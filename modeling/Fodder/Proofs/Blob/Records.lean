import Fodder.Cow.Blob
import Fodder.Flash.Basic
import Fodder.Proofs.Blob.RoundTrip
import Fodder.Settings.Blob

/-!
# Stored cows and schedules

A cow within the room of its record is read back from its blob, which is far smaller than what a
blob may be; whatever blob a cow is read from, it is within that room.
-/
namespace Fodder

open Blob

theorem Feed.takes_reader (feed : Feed) : Feed.reader.Takes feed.blob feed := by
  have hwidth : 0 < 32 := by decide
  apply (Reader.takes_byte feed.station).bind
  apply (Reader.takes_varint hwidth (by decide) feed.minute.toNat_lt).andThen
  rw [UInt32.ofNat_toNat]
  exact Reader.Takes.pure feed

theorem Feed.length_blob_le (feed : Feed) : feed.blob.length ≤ 11 :=
  Nat.succ_le_succ (length_varint_le _)

namespace Cow

variable {cow : Cow}

theorem takes_reader (h : cow.Fits) : reader.Takes cow.fields cow := by
  apply (Reader.takes_text (by decide) h.name).bind
  apply (Reader.takes_text (by decide) h.earTag).bind
  apply (Reader.takes_varint (by decide) (by decide) cow.collar.toNat_lt).bind
  apply (Reader.takes_word cow.ration.bits).bind
  apply (Reader.takes_signed cow.calvingDay).bind
  apply (Reader.takes_list (by decide) h.feeds fun feed _ => feed.takes_reader).andThen
  rw [UInt16.ofNat_toNat]
  exact Reader.Takes.pure cow

/-- A stored cow is read back as it was. -/
theorem ofBlob?_blob (h : cow.Fits) : ofBlob? cow.blob = some cow := by
  rw [blob, ofBlob?, if_pos rfl]
  exact (takes_reader h).front

theorem length_blob_le (h : cow.Fits) : cow.blob.length ≤ Flash.blobCapacity := by
  have hname := length_text_le cow.name
  have hear := length_text_le cow.earTag
  have hcollar := length_varint_le cow.collar.toNat
  have hday : (signed cow.calvingDay).length ≤ 10 := length_varint_le _
  have hfeeds := length_list_le cow.feeds fun feed _ => feed.length_blob_le
  have hroom := h.name
  have hear' := h.earTag
  have hcapacity := h.feeds
  have hword : (word cow.ration.bits).length = 4 := rfl
  simp only [blob, fields, List.length_cons, List.length_append]
  simp only [nameCapacity, Cow.earTagLength, FeedHistory.capacity, Flash.blobCapacity] at *
  omega

theorem fits_of_ofBlob? {bytes : List UInt8} (h : ofBlob? bytes = some cow) : cow.Fits := by
  rw [ofBlob?.eq_def] at h
  split at h
  · rename_i version fields
    split at h
    · obtain ⟨⟨found, rest⟩, hread, rfl⟩ := Option.map_eq_some_iff.1 h
      obtain ⟨name, _, hname, h⟩ := Reader.bind_eq_some hread
      obtain ⟨earTag, _, hear, h⟩ := Reader.bind_eq_some h
      obtain ⟨collar, _, -, h⟩ := Reader.bind_eq_some h
      obtain ⟨ration, _, -, h⟩ := Reader.bind_eq_some h
      obtain ⟨day, _, -, h⟩ := Reader.bind_eq_some h
      obtain ⟨feeds, _, hfeeds, h⟩ := Reader.bind_eq_some h
      cases h
      exact ⟨Reader.size_le_of_text hname, Reader.size_le_of_text hear,
        Reader.length_le_of_list hfeeds⟩
    · cases h
  · cases h

end Cow

namespace Settings

variable {s : Settings}

/-- The hours are within the room that a stored schedule gives them. -/
def Fits (s : Settings) : Prop := s.resets.length ≤ maxResets

theorem takes_reader (h : s.Fits) : reader.Takes s.fields s := by
  apply (Reader.takes_list (by decide) h fun hour _ => Reader.takes_byte hour).bind
  exact (Reader.takes_byte s.rations).andThen (Reader.Takes.pure s)

/-- A stored schedule is read back as it was. -/
theorem ofBlob?_blob (h : s.Fits) : ofBlob? s.blob = some s := by
  rw [blob, ofBlob?, if_pos rfl]
  exact (takes_reader h).front

theorem length_blob_le (h : s.Fits) : s.blob.length ≤ 16 := by
  have hresets : (list (fun hour => [hour]) s.resets).length ≤ 10 + 1 * s.resets.length :=
    length_list_le s.resets fun _ _ => le_rfl
  have hmax : s.resets.length ≤ 4 := h
  simp only [blob, fields, List.length_cons, List.length_append, List.length_nil]
  omega

end Settings

end Fodder
