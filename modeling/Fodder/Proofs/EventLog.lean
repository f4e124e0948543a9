import Fodder.EventLog
import Fodder.Proofs.TwoPlaces

/-!
# Lines of the log are complete

A line is cut at the first piece that does not fit. All pieces of an event together are its text, as
it is spelled out here, and the longest of these texts takes 80 bytes: a station and a collar of as
many digits as there can be, and an amount of 43 bytes. A line has room for more than that, so the
log holds the complete texts of the newest events.
-/
namespace Fodder

/-! ## Filling a line -/

variable {room : Nat} {pieces : List String}

theorem utf8ByteSize_fill_le (room : Nat) (pieces : List String) :
    (fill room pieces).utf8ByteSize ≤ room := by
  induction pieces generalizing room with
  | nil => exact Nat.zero_le room
  | cons piece rest ih =>
    unfold fill
    split
    · have hrest := ih (room - piece.utf8ByteSize)
      rw [String.utf8ByteSize_append]
      omega
    · exact Nat.zero_le room

theorem fill_eq_join (h : (String.join pieces).utf8ByteSize ≤ room) :
    fill room pieces = String.join pieces := by
  induction pieces generalizing room with
  | nil => simp [fill]
  | cons piece rest ih =>
    rw [String.join_cons, String.utf8ByteSize_append] at h
    rw [fill, if_pos (by omega), ih (by omega), String.join_cons]

/-- Nothing is cut exactly when all the pieces together fit, however a text is split into them. -/
theorem fill_eq_join_iff :
    fill room pieces = String.join pieces ↔ (String.join pieces).utf8ByteSize ≤ room :=
  ⟨fun h => h ▸ utf8ByteSize_fill_le room pieces, fill_eq_join⟩

/-! ## Texts -/

namespace Event

/-- The complete text of an event. -/
def text : Event → String
  | started stations => s!"START | {stations} stations"
  | cowPresent station tag => s!"STN {station} | collar {tag} present"
  | stationEmpty station => s!"STN {station} | empty"
  | noResponse station => s!"STN {station} | no response"
  | intervalPending station tag => s!"STN {station} | collar {tag} fed too recently"
  | dispensing station tag kg => s!"STN {station} | collar {tag} dispensing {kg.text} kg"
  | feedConfirmed station tag => s!"STN {station} | collar {tag} feed confirmed"
  | feedUnconfirmed station tag => s!"STN {station} | collar {tag} feed not acknowledged"
  | quotaMet station tag => s!"STN {station} | collar {tag} quota met"
  | allocationRefused station tag .unknownTag =>
    s!"STN {station} | collar {tag} refused: no cow with this collar tag (-1)"
  | allocationRefused station tag .clockNotSet =>
    s!"STN {station} | collar {tag} refused: wall clock not set (-2)"
  | allocationRefused station tag .invalidWindow =>
    s!"STN {station} | collar {tag} refused: invalid feeding window (-2)"
  | transmitFailed station => s!"STN {station} | transmit failed"

theorem join_pieces (event : Event) : String.join event.pieces = event.text := by
  rw [← String.toList_inj]
  cases event with
  | allocationRefused station tag reason =>
    have hone : (-1 : Int).repr = "-1" := rfl
    have htwo : (-2 : Int).repr = "-2" := rfl
    cases reason <;>
      simp [pieces, text, withCollar, atStation, AllocationError.message, AllocationError.code,
        toString, hone, htwo]
  | dispensing station tag kg =>
    simp [pieces, text, withCollar, atStation, kg.twoPlaces_eq_text, toString]
  | _ => simp [pieces, text, withCollar, atStation, toString]

/-! ## The longest text -/

/-- Bytes of the longest text. -/
def longestText : Nat := 80

/-- A station has up to three digits. -/
theorem utf8ByteSize_atStation_append_le (station : UInt8) (rest : List String) :
    (String.join (atStation station ++ rest)).utf8ByteSize ≤
      10 + (String.join rest).utf8ByteSize := by
  have hstation : (toString station.toNat).utf8ByteSize ≤ 3 :=
    utf8ByteSize_toString_le (by decide) (station.toNat_lt.trans (by decide))
  have hbefore : "STN ".utf8ByteSize = 4 := by decide
  have hafter : " | ".utf8ByteSize = 3 := by decide
  simp only [atStation, List.cons_append, List.nil_append, String.join_cons,
    String.utf8ByteSize_append]
  omega

/-- A collar has up to five digits. -/
theorem utf8ByteSize_withCollar_append_le (station : UInt8) (tag : UInt16) (rest : List String) :
    (String.join (withCollar station tag ++ rest)).utf8ByteSize ≤
      22 + (String.join rest).utf8ByteSize := by
  have htag : (toString tag.toNat).utf8ByteSize ≤ 5 :=
    utf8ByteSize_toString_le (by decide) (tag.toNat_lt.trans (by decide))
  have hcollar : "collar ".utf8ByteSize = 7 := by decide
  have hstation := utf8ByteSize_atStation_append_le station
    ("collar " :: toString tag.toNat :: rest)
  simp only [String.join_cons, String.utf8ByteSize_append] at hstation
  rw [withCollar, List.append_assoc, List.cons_append, List.cons_append, List.nil_append]
  omega

theorem utf8ByteSize_text_le (event : Event) : event.text.utf8ByteSize ≤ longestText := by
  rw [← event.join_pieces]
  cases event with
  | started stations =>
    have hstations : (toString stations.toNat).utf8ByteSize ≤ 3 :=
      utf8ByteSize_toString_le (by decide) (stations.toNat_lt.trans (by decide))
    have hwords : "START | ".utf8ByteSize + " stations".utf8ByteSize = 17 := by decide
    simp only [pieces, String.join_cons, String.join_nil, String.utf8ByteSize_append,
      String.utf8ByteSize_empty, longestText]
    omega
  | stationEmpty station | noResponse station | transmitFailed station =>
    exact (utf8ByteSize_atStation_append_le station _).trans (by decide)
  | cowPresent station tag | intervalPending station tag | feedConfirmed station tag
  | feedUnconfirmed station tag | quotaMet station tag =>
    exact (utf8ByteSize_withCollar_append_le station tag _).trans (by decide)
  | dispensing station tag kg =>
    have hkg : kg.twoPlaces.utf8ByteSize ≤ 43 := by
      rw [kg.twoPlaces_eq_text]
      exact kg.utf8ByteSize_text_le
    have hwords : " dispensing ".utf8ByteSize + " kg".utf8ByteSize = 15 := by decide
    refine (utf8ByteSize_withCollar_append_le station tag _).trans ?_
    simp only [String.join_cons, String.join_nil, String.utf8ByteSize_append,
      String.utf8ByteSize_empty, longestText]
    omega
  | allocationRefused station tag reason =>
    refine (utf8ByteSize_withCollar_append_le station tag _).trans ?_
    cases reason <;> decide

theorem exists_longest : ∃ event : Event, event.text.utf8ByteSize = longestText :=
  ⟨.dispensing 255 65535 ⟨0xff7fffff⟩, by decide +kernel⟩

theorem fill_pieces_eq_text_iff (event : Event) {room : Nat} :
    fill room event.pieces = event.text ↔ event.text.utf8ByteSize ≤ room := by
  rw [← event.join_pieces]
  exact fill_eq_join_iff

/-- A line shows every event completely exactly when the longest text fits. -/
theorem forall_fill_pieces_iff (room : Nat) :
    (∀ event : Event, fill room event.pieces = event.text) ↔ longestText ≤ room := by
  constructor
  · intro h
    obtain ⟨event, hevent⟩ := exists_longest
    rw [← hevent]
    exact event.fill_pieces_eq_text_iff.1 (h event)
  · intro h event
    exact event.fill_pieces_eq_text_iff.2 ((utf8ByteSize_text_le event).trans h)

end Event

/-! ## The log -/

namespace EventLog

theorem line_eq_text (event : Event) : line event = event.text :=
  (Event.forall_fill_pieces_iff lineCapacity).2 (by decide) event

theorem emitAll_cons (log : EventLog) (event : Event) (events : List Event) :
    emitAll log (event :: events) = emitAll (log.emit event) events := by
  rw [emitAll, List.foldl_cons, emitAll]

/-- One more event leaves the newest of one more line. -/
theorem emit_newest (lines : List String) (event : Event) :
    emit (newest capacity lines) event = newest capacity (lines ++ [line event]) := by
  rw [emit, remember_newest, remember]

/-- Whatever was written before, the log goes on holding the newest of all lines. -/
theorem emitAll_newest (lines : List String) (events : List Event) :
    emitAll (newest capacity lines) events = newest capacity (lines ++ events.map line) := by
  induction events generalizing lines with
  | nil => simp [emitAll]
  | cons event events ih =>
    rw [emitAll_cons, emit_newest, ih, List.append_assoc, List.singleton_append, List.map_cons]

/-- After any events a new log holds the complete texts of the newest 64 of them, oldest first. No
text goes beyond a line, whatever its amount, and the hundredths that it shows of an amount are the
nearest whole number of them, the even one of two. -/
theorem emitAll_eq_newest_texts (events : List Event) :
    emitAll [] events = (events.map Event.text).drop (events.length - 64) ∧
      (∀ event : Event, event.text.utf8ByteSize ≤ 96) ∧
      ∀ kg : Amount, |100 * kg.size - kg.hundredths| ≤ 1 / 2 ∧
        (|100 * kg.size - kg.hundredths| = 1 / 2 → Even kg.hundredths) := by
  refine ⟨?_, fun event => ?_, fun kg => ?_⟩
  · have hlines : line = Event.text := funext line_eq_text
    have hrun := emitAll_newest [] events
    rw [newest_of_length_le (Nat.zero_le _), List.nil_append, hlines] at hrun
    rw [hrun, newest, List.length_map, capacity]
  · exact (Event.utf8ByteSize_text_le event).trans (by decide)
  · exact Binary.abs_sub_nearestEven (mul_nonneg (by norm_num) kg.size_nonneg)

/-- The longest text of all, and a refusal with its message and code. -/
theorem emitAll_dispensing_refused :
    emitAll [] [.dispensing 255 65535 ⟨0xff7fffff⟩, .allocationRefused 2 404 .unknownTag] =
      ["STN 255 | collar 65535 dispensing -340282346638528859811704183484516925440.00 kg",
        "STN 2 | collar 404 refused: no cow with this collar tag (-1)"] := by
  rw [(emitAll_eq_newest_texts _).1]
  decide +kernel

end EventLog

end Fodder
