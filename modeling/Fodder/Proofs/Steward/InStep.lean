import Fodder.Proofs.Herd.Names
import Fodder.Proofs.Steward.Durable
import Fodder.Proofs.Steward.Sound

/-!
# Memory in step with the store

An upsert writes one slot, and where a cow is new the count, going by the places of the table in
memory. Slots that are pending may be written on the way, any of them and not others, as calls fail.
This costs a stored cow nothing as long as she has a place: a slot below the count that is hers in
memory as well, before which no other record may come to stand that a start would prefer to her.
Whatever else stands below the count does no harm. Where nothing else does, every cow has a place as
long as the stored cows stand at the front of the table in memory, in their order.
-/
namespace Fodder.Steward

open HerdStore Storage

/-- The herd that a start finds. -/
def loaded (flash : Flash) : Herd := (boot (Device.sound flash)).engine.herd

/-- The slots below the count hold the cows that a start finds, and nothing else. -/
def Tidy (flash : Flash) : Prop := Holds flash (loaded flash).cows []

theorem loaded_eq (flash : Flash) : loaded flash = Herd.ofRecords (found flash) := boot_herd _

theorem sound_loaded (flash : Flash) : (loaded flash).Sound := by
  rw [loaded_eq]
  exact Herd.sound_ofRecords _

theorem loaded_of_holds {flash : Flash} {cows : List Cow} (h : Holds flash cows []) :
    loaded flash = Herd.ofRecords cows := by
  rw [loaded_eq, found_of_holds h]

variable {φ : Type}

/-- The stored cows stand at the front of the table in memory, and no cow that is to be written over
one of them wears the collar that is stored for another. -/
structure InStep (s : Steward φ) : Prop where
  names : (loaded s.device.flash).names <+: s.engine.herd.names
  collars : ∀ slot ∈ s.engine.pending, slot < (loaded s.device.flash).size → ∀ cow,
    s.engine.herd.cows[slot]? = some cow → ∀ other ∈ (loaded s.device.flash).cows,
      other.collar = cow.collar → other.name = cow.name

/-- Whatever fails in the course of an upsert that succeeds, a start afterwards finds every cow that
one before it would have found, but for those that share the name or the collar of the record. -/
def Spares (s : Steward φ) : Prop :=
  ∀ (ψ : Type) [FaultSource ψ] (faults : ψ) (cow : Cow), cow.Fits →
    ((s.withFaults faults).upsert cow).1 = .ok () →
      ∀ other ∈ (loaded s.device.flash).cows, other.name ≠ cow.name → other.collar ≠ cow.collar →
        other.name ∈ (loaded ((s.withFaults faults).upsert cow).2.device.flash).names

/-- A record without flaws that stands in a slot, or is to be written there. -/
structure MayStand (s : Steward φ) (slot : Nat) (cow : Cow) : Prop where
  valid : cow.Valid
  here : storedCow? s.device.flash slot = some cow ∨
    slot ∈ s.engine.pending ∧ s.engine.herd.cows[slot]? = some cow

/-- A slot below the count in which a stored cow is found, hers in memory too, and before which no
record of another name may stand that wears a collar she may be found with. -/
structure HasPlace (s : Steward φ) (cow : Cow) (slot : Nat) : Prop where
  counted : ∃ slots, storedCount s.device.flash = .ok slots ∧ slot < slots
  stored : storedCow? s.device.flash slot = some cow
  known : ∃ known, s.engine.herd.cows[slot]? = some known ∧ known.name = cow.name
  before : ∀ kept other, ∀ i < slot, MayStand s slot kept → MayStand s i other →
    other.collar = kept.collar → other.name = kept.name

/-- Every cow that a start finds has a place. What else is in the store, slots that cannot be read,
flawed records and records that come twice, does not matter beyond this. -/
def InPlace (s : Steward φ) : Prop :=
  ∀ cow ∈ (loaded s.device.flash).cows, ∃ slot, HasPlace s cow slot

/-! ## Contents written over in part -/

/-- Contents in which some of the pending slots were written. -/
structure Overlaid (herd : Herd) (pending : List Nat) (flash later : Flash) : Prop where
  count : storedCount later = storedCount flash
  slot : ∀ i, storedCow? later i = storedCow? flash i ∨
    i ∈ pending ∧ ∃ cow, herd.cows[i]? = some cow ∧ storedCow? later i = some cow

section Overlaid

variable {herd : Herd} {slots pending : List Nat} {flash later : Flash}

theorem overlaid_self (herd : Herd) (pending : List Nat) (flash : Flash) :
    Overlaid herd pending flash flash :=
  ⟨rfl, fun _ => .inl rfl⟩

theorem Overlaid.save (h : Overlaid herd pending flash later) {slot : Nat} {cow : Cow}
    (hslot : slot ∈ pending) (hat : herd.cows[slot]? = some cow) (hfits : cow.Fits) :
    Overlaid herd pending flash (later.edit (saveEdit cow slot)) where
  count := (storedCount_saveEdit later cow slot).trans h.count
  slot i := by
    rw [storedCow?_saveEdit later hfits]
    split_ifs with heq
    · subst heq
      exact .inr ⟨hslot, cow, hat, rfl⟩
    · exact h.slot i

/-- A flush writes some of the pending cows into their slots. -/
theorem Overlaid.flushSlots [FaultSource φ] (hfits : ∀ cow ∈ herd.cows, cow.Fits)
    (hsub : slots ⊆ pending) {device : Device φ} (h : Overlaid herd pending flash device.flash) :
    Overlaid herd pending flash (flushSlots herd slots device).device.flash := by
  induction slots generalizing device with
  | nil => exact h
  | cons slot slots ih =>
    obtain ⟨hslot, hsub⟩ := List.cons_subset.1 hsub
    rcases flushSlots_cons_cases hfits slot slots device with
      ⟨-, heq⟩ | ⟨cow, hat, hcow, ⟨faults, heq⟩ | ⟨after, hflash, heq⟩⟩
    · rw [heq]
      exact ih hsub h
    · rw [heq]
      exact ih hsub (h.save hslot hat hcow)
    · rw [heq]
      exact ih hsub (hflash ▸ h)

/-- What stands in a slot after a flush stood there before or was to be written there. -/
theorem Overlaid.mayStand {s : Steward φ}
    (h : Overlaid s.engine.herd s.engine.pending s.device.flash later) {slot : Nat} {cow : Cow}
    (hcow : storedCow? later slot = some cow) (hvalid : cow.Valid) : MayStand s slot cow where
  valid := hvalid
  here := by
    rcases h.slot slot with hsame | ⟨hpending, written, hat, hwritten⟩
    · exact .inl (hsame ▸ hcow)
    · obtain rfl := Option.some.inj (hwritten.symm.trans hcow)
      exact .inr ⟨hpending, hat⟩

end Overlaid

/-! ## Upserts -/

/-- The name of the record in a slot is found, as its own or as that of a record before it, if none
before it wears its collar under another name. -/
theorem mem_names_loaded {flash : Flash} {slots place : Nat} {cow : Cow}
    (hcount : storedCount flash = .ok slots) (hplace : place < slots)
    (hroom : place < Herd.capacity) (hcow : storedCow? flash place = some cow) (hvalid : cow.Valid)
    (hcollars : ∀ i < place, ∀ other, storedCow? flash i = some other → other.Valid →
      other.collar = cow.collar → other.name = cow.name) :
    cow.name ∈ (loaded flash).names := by
  have hslots : slots = place + (slots - place - 1 + 1) := by omega
  have hrecords : found flash =
      storedCows flash 0 place ++ cow :: storedCows flash (place + 1) (slots - place - 1) := by
    rw [found, hcount]
    dsimp only
    rw [hslots, storedCows_add, storedCows_succ, Nat.zero_add, hcow]
    simp
  rw [loaded_eq, hrecords]
  refine Herd.mem_names_ofRecords ((length_storedCows_le flash 0 place).trans_lt hroom) hvalid ?_
  intro other hother
  obtain ⟨i, hi, hslot⟩ := List.mem_filterMap.1 hother
  exact hcollars i (by simpa using hi) other hslot

theorem Plan.Ends.flash_of_ok [FaultSource φ] {ε : Type} {script : List Edit} {done undone : Engine}
    {s : Steward φ} {outcome : Except ε Unit × Steward φ}
    (h : Plan.Ends ⟨script, done, undone⟩ s outcome) (hok : outcome.1 = .ok ()) :
    outcome.2.device.flash = s.device.flash.edited script := by
  rcases h with ⟨faults, rfl⟩ | ⟨made, failed, rest, cause, error, device, -, -, -, rfl⟩
  · rfl
  · cases hok

section InPlace

variable {s : Steward φ}

/-- A cow that has a place is found again if an upsert writes into another slot than hers, with a
collar that neither she nor another cow in memory wears. -/
theorem HasPlace.mem_names {other : Cow} {place : Nat} (h : HasPlace s other place)
    (hsound : s.engine.Sound) {later final : Flash}
    (hlater : Overlaid s.engine.herd s.engine.pending s.device.flash later) {slots index : Nat}
    {written : Cow} (hcount : storedCount final = .ok slots) (hlt : place < slots)
    (hslots : ∀ i < slots,
      storedCow? final i = if i = index then some written else storedCow? later i)
    (hfree : ∀ i known, s.engine.herd.cows[i]? = some known → known.collar = written.collar →
      i = index)
    (hne : place ≠ index) (hvalid : other.Valid) (hcollar : other.collar ≠ written.collar) :
    other.name ∈ (loaded final).names := by
  obtain ⟨known, hknown, hsame⟩ := h.known
  obtain ⟨hsize, -⟩ := List.getElem?_eq_some_iff.1 hknown
  -- In her slot there is what was there before, or the cow in memory.
  obtain ⟨kept, hkept, hname, hkeptvalid, hapart⟩ : ∃ kept, storedCow? later place = some kept ∧
      kept.name = other.name ∧ kept.Valid ∧ kept.collar ≠ written.collar := by
    rcases hlater.slot place with hunchanged | ⟨-, cow, hat, hcow⟩
    · exact ⟨other, hunchanged.trans h.stored, rfl, hvalid, hcollar⟩
    · obtain rfl := Option.some.inj (hat.symm.trans hknown)
      exact ⟨cow, hcow, hsame, hsound.herd.valid cow (List.mem_of_getElem? hat),
        fun hworn => hne (hfree place cow hat hworn)⟩
  rw [← hname]
  refine mem_names_loaded hcount hlt (hsize.trans_le hsound.herd.size) ?_ hkeptvalid ?_
  · rw [hslots place hlt, if_neg hne, hkept]
  · intro i hi record hrecord hrecordvalid hshared
    rw [hslots i (hi.trans hlt)] at hrecord
    split_ifs at hrecord
    · obtain rfl := Option.some.inj hrecord
      exact absurd hshared.symm hapart
    · exact h.before kept record i hi (hlater.mayStand hkept hkeptvalid)
        (hlater.mayStand hrecord hrecordvalid) hshared

/-- Cows that have their places outlast every upsert. -/
theorem InPlace.spares (h : InPlace s) (hsound : s.engine.Sound) : Spares s := by
  intro ψ _ faults cow hfits hok other hother hname hcollar
  obtain ⟨place, hplace⟩ := h other hother
  obtain ⟨known, hknown, hsame⟩ := hplace.known
  have hvalid := (sound_loaded s.device.flash).valid other hother
  have hstart : Overlaid s.engine.herd s.engine.pending s.device.flash
      (s.withFaults faults).device.flash := overlaid_self _ _ _
  have hflushed : Overlaid s.engine.herd s.engine.pending s.device.flash
      (s.withFaults faults).flush.2.device.flash :=
    hstart.flushSlots hsound.fits (List.Subset.refl s.engine.pending)
  cases hupsert : (s.withFaults faults).flush.2.engine.herd.upsert cow with
  | error error =>
    rw [upsert_of_error hupsert] at hok
    cases hok
  | ok placed =>
    obtain ⟨-, ⟨index, old, hget, hold, holdname, hfree, rfl⟩ | ⟨hget, hsize, hfree, rfl⟩⟩ :=
      Herd.upsert_eq_ok hupsert
    · have hstored : ({ cow with feeds := s.engine.herd.feedsAfter index cow } : Cow).Fits :=
        fits_feedsAfter hsound.fits hfits index
      have hends := upsert_edit_ends hstored hupsert hget hold
      obtain ⟨slots, hcount, hlt⟩ := hplace.counted
      rw [hends.flash_of_ok hok]
      refine hplace.mem_names hsound hflushed ?_ hlt
        (fun i _ => storedCow?_saveEdit _ hstored index i) hfree ?_ hvalid hcollar
      · exact (storedCount_saveEdit _ _ index).trans (hflushed.count.trans hcount)
      · rintro rfl
        obtain rfl := Option.some.inj (hknown.symm.trans hold)
        exact hname (hsame.symm.trans holdname)
    · obtain ⟨former, hends⟩ := upsert_create_ends hfits hupsert hget hsize
      obtain ⟨hlt, -⟩ := List.getElem?_eq_some_iff.1 hknown
      have hroom : s.engine.herd.size + 1 < 65536 := (Nat.succ_le_of_lt hsize).trans_lt (by decide)
      rw [hends.flash_of_ok hok]
      refine hplace.mem_names hsound hflushed (storedCount_truncation _ hroom former)
        (Nat.lt_succ_of_lt hlt) ?_ ?_ (Nat.ne_of_lt hlt) hvalid hcollar
      · intro i hi
        exact (storedCow?_truncation _ hi former).trans (storedCow?_saveEdit _ hfits _ i)
      · exact fun i known hknown hworn => absurd hworn (hfree known (List.mem_of_getElem? hknown))

end InPlace

section InStep

variable {s : Steward φ}

/-- In a tidy store, what may stand in a slot is the stored cow or the pending one. -/
theorem MayStand.cases_of_tidy (htidy : Tidy s.device.flash) {slot : Nat} {cow : Cow}
    (h : MayStand s slot cow) (hlt : slot < (loaded s.device.flash).size) :
    (loaded s.device.flash).cows[slot]? = some cow ∨
      slot ∈ s.engine.pending ∧ s.engine.herd.cows[slot]? = some cow := by
  refine h.here.imp_left fun hstored => ?_
  rw [← htidy.slots slot hlt List.not_mem_nil]
  exact hstored

/-- A stored cow and the cow that may be written over it have one name. -/
theorem InStep.exists_known (h : InStep s) {i : Nat} {stored : Cow}
    (hstored : (loaded s.device.flash).cows[i]? = some stored) :
    ∃ known, s.engine.herd.cows[i]? = some known ∧ known.name = stored.name := by
  obtain ⟨hlt, hat⟩ := List.getElem?_eq_some_iff.1 hstored
  have hnames : i < (loaded s.device.flash).names.length := by rwa [Herd.names, List.length_map]
  have hname := List.prefix_iff_getElem?.1 h.names i hnames
  simp only [Herd.names, List.getElem?_map, List.getElem_map, hat, Option.map_eq_some_iff] at hname
  exact hname

/-- Records that may stand below the count share a collar only if they share the name. -/
theorem InStep.name_eq_of_collar (h : InStep s) (hsound : s.engine.Sound)
    (htidy : Tidy s.device.flash) {i j : Nat} {cow other : Cow}
    (hi : i < (loaded s.device.flash).size) (hj : j < (loaded s.device.flash).size)
    (hcow : MayStand s i cow) (hother : MayStand s j other) (hcollar : other.collar = cow.collar) :
    other.name = cow.name := by
  have hstored := sound_loaded s.device.flash
  rcases hcow.cases_of_tidy htidy hi with hcow | ⟨hpending, hcow⟩
  · rcases hother.cases_of_tidy htidy hj with hother | ⟨hpending, hother⟩
    · obtain rfl := hstored.collar_inj hother hcow hcollar
      exact congrArg Cow.name (Option.some.inj (hother.symm.trans hcow))
    · exact (h.collars j hpending hj other hother cow (List.mem_of_getElem? hcow) hcollar.symm).symm
  · rcases hother.cases_of_tidy htidy hj with hother | ⟨-, hother⟩
    · exact h.collars i hpending hi cow hcow other (List.mem_of_getElem? hother) hcollar
    · obtain rfl := hsound.herd.collar_inj hother hcow hcollar
      exact congrArg Cow.name (Option.some.inj (hother.symm.trans hcow))

/-- In a tidy store, memory in step leaves every cow in her place. -/
theorem InStep.inPlace (h : InStep s) (hsound : s.engine.Sound) (htidy : Tidy s.device.flash) :
    InPlace s := by
  intro cow hcow
  obtain ⟨slot, hslot⟩ := List.mem_iff_getElem?.1 hcow
  obtain ⟨hlt, -⟩ := List.getElem?_eq_some_iff.1 hslot
  refine ⟨slot, ⟨_, htidy.count, hlt⟩, (htidy.slots slot hlt List.not_mem_nil).trans hslot,
    h.exists_known hslot, fun kept other i hi hkept hother hcollar => ?_⟩
  exact h.name_eq_of_collar hsound htidy hlt (hi.trans hlt) hkept hother hcollar

theorem InStep.spares (h : InStep s) (hsound : s.engine.Sound) (htidy : Tidy s.device.flash) :
    Spares s :=
  (h.inPlace hsound htidy).spares hsound

end InStep

/-- With everything stored, memory is in step with the store. -/
theorem Backed.inStep {blank : Prop} {s : Steward φ} (h : Backed blank s.engine s.device.flash)
    (hpending : s.engine.pending = []) : InStep s where
  names := by
    rw [loaded_eq, h.found_eq hpending, Herd.ofRecords_of_sound h.sound]
  collars slot hslot := by
    rw [hpending] at hslot
    cases hslot

/-- Once everything is stored, no upsert costs a stored cow. -/
theorem Backed.spares {blank : Prop} {s : Steward φ} (h : Backed blank s.engine s.device.flash)
    (hsound : s.engine.Sound) (hpending : s.engine.pending = []) : Spares s := by
  have hloaded : loaded s.device.flash = s.engine.herd := by
    rw [loaded_eq, h.found_eq hpending, Herd.ofRecords_of_sound h.sound]
  rcases h.stored with hholds | ⟨-, hempty, -⟩
  · rw [hpending, ← hloaded] at hholds
    exact (h.inStep hpending).spares hsound hholds
  · intro ψ _ faults cow hfits hok other hother
    rw [hloaded, hempty] at hother
    cases hother

end Fodder.Steward
