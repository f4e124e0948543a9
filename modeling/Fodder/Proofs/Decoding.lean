import Fodder.Receiver
import Mathlib.Tactic

/-!
# The receiver decodes the stream

What a stream of bytes says is defined without a receiver: each start byte begins a frame, and each
of the three places after it counts by its weight if it holds a digit, no other start byte came up to
there, and the frame was still young. The receiver works byte by byte and keeps only the weights that
are still to come; it ends up with the newest of exactly these frames.
-/
namespace Fodder

/-- A byte with the clock at its arrival. -/
abbrev Sample := UInt8 × Nat

namespace Receiver

/-! ## What a stream says -/

/-- The digit `k` places after the start byte at place `i`, zero if it does not count. -/
def digitAfter (timeoutMs : Nat) (stream : List Sample) (i k : Nat) : Nat :=
  match stream[i]?, stream[i + k]? with
  | some (_, start), some (byte, time) =>
    if 0x06 ∉ ((stream.drop (i + 1)).take k).map Prod.fst ∧ (0x30 ≤ byte ∧ byte ≤ 0x39) ∧
        time - start ≤ timeoutMs then
      byte.toNat - 0x30
    else 0
  | _, _ => 0

def tagAt (timeoutMs : Nat) (stream : List Sample) (i : Nat) : Nat :=
  100 * digitAfter timeoutMs stream i 1 + 10 * digitAfter timeoutMs stream i 2 +
    digitAfter timeoutMs stream i 3

def frameAt? (timeoutMs : Nat) (stream : List Sample) (i : Nat) : Option Ack :=
  match stream[i]? with
  | some (byte, time) =>
    if byte = 0x06 then some ⟨time, UInt16.ofNat (tagAt timeoutMs stream i)⟩ else none
  | none => none

/-- One acknowledgement for each start byte, in the order of arrival. -/
def frames (timeoutMs : Nat) (stream : List Sample) : List Ack :=
  (List.range stream.length).filterMap (frameAt? timeoutMs stream)

/-- What the samples after a start byte add to its tag, by the weights still to come. -/
def credited (timeoutMs start : Nat) : List UInt16 → List Sample → Nat
  | weight :: weights, (byte, time) :: rest =>
    if byte = 0x06 then 0
    else
      (if (0x30 ≤ byte ∧ byte ≤ 0x39) ∧ time - start ≤ timeoutMs then
        (byte.toNat - 0x30) * weight.toNat else 0) + credited timeoutMs start weights rest
  | _, _ => 0

section Stream

variable (timeoutMs : Nat) (sample : Sample) (rest : List Sample)

theorem digitAfter_succ (i k : Nat) :
    digitAfter timeoutMs (sample :: rest) (i + 1) k = digitAfter timeoutMs rest i k := by
  have hplace : (sample :: rest)[i + 1 + k]? = rest[i + k]? := by
    rw [Nat.add_right_comm, List.getElem?_cons_succ]
  simp only [digitAfter, hplace, List.getElem?_cons_succ, List.drop_succ_cons]

theorem frameAt?_succ (i : Nat) :
    frameAt? timeoutMs (sample :: rest) (i + 1) = frameAt? timeoutMs rest i := by
  simp only [frameAt?, tagAt, digitAfter_succ, List.getElem?_cons_succ]

theorem frames_cons :
    frames timeoutMs (sample :: rest) =
      (frameAt? timeoutMs (sample :: rest) 0).toList ++ frames timeoutMs rest := by
  rw [frames, List.length_cons, List.range_succ_eq_map, List.filterMap_cons, List.filterMap_map]
  have hrest : frameAt? timeoutMs (sample :: rest) ∘ Nat.succ = frameAt? timeoutMs rest := by
    funext i
    exact frameAt?_succ timeoutMs sample rest i
  rw [hrest, ← frames]
  cases frameAt? timeoutMs (sample :: rest) 0 <;> rfl

variable (start : Nat) (first : UInt8)

theorem digitAfter_of_nil (k : Nat) : digitAfter timeoutMs [(first, start)] 0 (k + 1) = 0 := by
  simp [digitAfter]

theorem digitAfter_one :
    digitAfter timeoutMs ((first, start) :: sample :: rest) 0 1 =
      if sample.1 ≠ 0x06 ∧ (0x30 ≤ sample.1 ∧ sample.1 ≤ 0x39) ∧ sample.2 - start ≤ timeoutMs then
        sample.1.toNat - 0x30
      else 0 := by
  simp only [digitAfter, List.getElem?_cons_zero, List.getElem?_cons_succ, Nat.zero_add,
    List.drop_succ_cons, List.drop_zero, List.take_succ_cons, List.take_zero, List.map_cons,
    List.map_nil, List.mem_singleton, ne_comm (a := (0x06 : UInt8))]

/-- A byte between a start byte and a digit moves the digit one place away, or cuts it off. -/
theorem digitAfter_add_two (k : Nat) :
    digitAfter timeoutMs ((first, start) :: sample :: rest) 0 (k + 2) =
      if sample.1 = 0x06 then 0
      else digitAfter timeoutMs ((first, start) :: rest) 0 (k + 1) := by
  cases hlast : rest[k]? with
  | none => simp [digitAfter, hlast]
  | some last =>
    by_cases hcut : sample.1 = 0x06
    · simp [digitAfter, hlast, hcut]
    · simp [digitAfter, hlast, hcut, eq_comm (a := (6 : UInt8))]

theorem credited_eq_sum (weights : List UInt16) :
    credited timeoutMs start weights rest = (weights.mapIdx fun k weight =>
      digitAfter timeoutMs ((first, start) :: rest) 0 (k + 1) * weight.toNat).sum := by
  have hnothing (weights : List UInt16) : (weights.mapIdx fun _ _ => 0).sum = 0 :=
    List.sum_eq_zero (by simp)
  induction weights generalizing rest with
  | nil => cases rest <;> rfl
  | cons weight weights ih =>
    cases rest with
    | nil => simp [credited, digitAfter_of_nil, hnothing]
    | cons sample rest =>
      simp only [credited, List.mapIdx_cons, List.sum_cons, Nat.zero_add, digitAfter_one,
        digitAfter_add_two]
      by_cases hcut : sample.1 = 0x06
      · simp [hcut, hnothing]
      · simp [hcut, ih rest, ite_mul]

/-- The tag of a frame is what the samples after its start byte add to zero. -/
theorem tagAt_zero :
    tagAt timeoutMs ((first, start) :: rest) 0 = credited timeoutMs start weights rest := by
  rw [credited_eq_sum timeoutMs rest start first]
  simp [tagAt, weights]
  omega

end Stream

section TakeIn

def takeIn (receiver : Receiver) (stream : List Sample) (history : AckHistory) :
    Receiver × AckHistory :=
  match stream with
  | [] => (receiver, history)
  | (byte, now) :: rest =>
    let (receiver, history) := receiver.onByte byte now history
    receiver.takeIn rest history

/-- The newest acknowledgement with the digits that are still to come. -/
def complete (timeoutMs : Nat) (awaited : List UInt16) (stream : List Sample) (ack : Ack) : Ack :=
  { ack with tag := ack.tag + UInt16.ofNat (credited timeoutMs ack.time awaited stream) }

variable {timeoutMs : UInt32} {weight : UInt16} {awaited : List UInt16} {byte : UInt8} {now : Nat}
  {rest : List Sample}

theorem complete_of_credited_eq_zero {timeoutMs : Nat} {stream : List Sample}
    (h : ∀ start, credited timeoutMs start awaited stream = 0) :
    complete timeoutMs awaited stream = id := by
  funext ack
  simp [complete, h]

theorem isDigit_iff : isDigit byte = true ↔ 0x30 ≤ byte ∧ byte ≤ 0x39 := decide_eq_true_iff

/-- What a digit adds is counted without a carry. -/
theorem digit_eq (hlow : 0x30 ≤ byte) :
    (byte - 0x30).toUInt16 = UInt16.ofNat (byte.toNat - 0x30) := by
  apply UInt16.toNat_inj.1
  rw [UInt8.toNat_toUInt16, UInt8.toNat_sub_of_le _ _ hlow, UInt16.toNat_ofNat_of_lt']
  · rfl
  · exact (Nat.sub_le _ _).trans_lt (byte.toNat_lt.trans (by decide))

theorem complete_comp_credit (hstart : byte ≠ 0x06) (hdigit : 0x30 ≤ byte ∧ byte ≤ 0x39) :
    complete timeoutMs.toNat awaited rest ∘ credit timeoutMs byte weight now =
      complete timeoutMs.toNat (weight :: awaited) ((byte, now) :: rest) := by
  funext ack
  by_cases htimely : now - ack.time ≤ timeoutMs.toNat
  · simp [complete, credit, credited, hstart, hdigit, htimely, digit_eq hdigit.1, UInt16.ofNat_add,
      UInt16.ofNat_mul, UInt16.add_assoc]
  · simp [complete, credit, credited, hstart, htimely]

theorem complete_of_no_digit (hstart : byte ≠ 0x06) (hdigit : ¬(0x30 ≤ byte ∧ byte ≤ 0x39)) :
    complete timeoutMs.toNat awaited rest =
      complete timeoutMs.toNat (weight :: awaited) ((byte, now) :: rest) := by
  funext ack
  simp [complete, credited, hstart, hdigit]

theorem frames_start (timeoutMs now : Nat) (rest : List Sample) :
    frames timeoutMs ((0x06, now) :: rest) =
      complete timeoutMs weights rest ⟨now, 0⟩ :: frames timeoutMs rest := by
  simp [frames_cons, frameAt?, complete, tagAt_zero]

theorem frames_of_ne_start (timeoutMs : Nat) (hstart : byte ≠ 0x06) :
    frames timeoutMs ((byte, now) :: rest) = frames timeoutMs rest := by
  simp [frames_cons, frameAt?, hstart]

/-- The history completes its newest acknowledgement and keeps the newest of what follows. -/
theorem takeIn_history (timeoutMs : UInt32) (awaited : List UInt16) (stream : List Sample)
    {history : AckHistory} (h : history.length ≤ AckHistory.capacity) :
    (takeIn ⟨timeoutMs, awaited⟩ stream history).2 =
      newest AckHistory.capacity (history.amendNewest (complete timeoutMs.toNat awaited stream) ++
        frames timeoutMs.toNat stream) := by
  induction stream generalizing awaited history with
  | nil =>
    rw [complete_of_credited_eq_zero (by cases awaited <;> simp [credited]),
      AckHistory.amendNewest_id]
    simp [takeIn, frames, newest_of_length_le h]
  | cons sample rest ih =>
    obtain ⟨byte, now⟩ := sample
    by_cases hstart : byte = startByte
    · subst hstart
      have hroom : (history.push ⟨now, 0⟩).length ≤ AckHistory.capacity :=
        length_remember_le _ _ _
      have hcut : complete timeoutMs.toNat awaited ((0x06, now) :: rest) = id :=
        complete_of_credited_eq_zero (by cases awaited <;> simp [credited])
      simp only [takeIn, onByte, if_true]
      rw [ih weights hroom, AckHistory.amendNewest_push, AckHistory.push, remember,
        newest_newest_append, startByte, frames_start, hcut, AckHistory.amendNewest_id,
        List.append_assoc, List.singleton_append]
    · rw [frames_of_ne_start timeoutMs.toNat hstart]
      cases awaited with
      | nil =>
        simp only [takeIn, onByte, hstart, if_false]
        rw [ih [] h, complete_of_credited_eq_zero (by simp [credited]),
          complete_of_credited_eq_zero (by simp [credited])]
      | cons weight awaited =>
        simp only [takeIn, onByte, hstart, if_false]
        by_cases hdigit : isDigit byte
        · rw [if_pos hdigit, ih awaited (by simpa using h), AckHistory.amendNewest_amendNewest,
            complete_comp_credit hstart (isDigit_iff.1 hdigit)]
        · rw [if_neg hdigit, ih awaited h, complete_of_no_digit hstart (mt isDigit_iff.2 hdigit)]

/-! ## Room for the digits to come -/

/-- The digits that are still to come fit into the newest tag, whatever they are. -/
def HasRoom (receiver : Receiver) (history : AckHistory) : Prop :=
  ∀ ack, history.newest? = some ack →
    ack.tag.toNat + 9 * (receiver.awaited.map UInt16.toNat).sum ≤ 999

theorem digit_le (hhigh : byte ≤ 0x39) : byte.toNat - 0x30 ≤ 9 := by
  have hbyte : byte.toNat ≤ 0x39 := UInt8.le_iff_toNat_le.1 hhigh
  omega

/-- A digit that comes fits into the newest tag. -/
theorem HasRoom.digit {receiver : Receiver} {history : AckHistory} (h : receiver.HasRoom history)
    {ack : Ack} (hack : history.newest? = some ack) (hawaited : receiver.awaited = weight :: awaited)
    (hhigh : byte ≤ 0x39) :
    ack.tag.toNat + (byte.toNat - 0x30) * weight.toNat + 9 * (awaited.map UInt16.toNat).sum ≤ 999 := by
  have hroom := h ack hack
  rw [hawaited, List.map_cons, List.sum_cons] at hroom
  have hweighted := Nat.mul_le_mul_right weight.toNat (digit_le hhigh)
  omega

theorem tag_credit_le (timeoutMs : UInt32) (byte : UInt8) (weight : UInt16) (now : Nat) (ack : Ack)
    (hlow : 0x30 ≤ byte) : (credit timeoutMs byte weight now ack).tag.toNat ≤
      ack.tag.toNat + (byte.toNat - 0x30) * weight.toNat := by
  unfold credit
  split
  · simp only [digit_eq hlow, UInt16.toNat_add, UInt16.toNat_mul, UInt16.toNat_ofNat']
    refine (Nat.mod_le _ _).trans (Nat.add_le_add_left ?_ _)
    exact (Nat.mod_le _ _).trans (Nat.mul_le_mul_right _ (Nat.mod_le _ _))
  · exact Nat.le_add_right _ _

theorem HasRoom.onByte {receiver : Receiver} {history : AckHistory} (h : receiver.HasRoom history)
    (byte : UInt8) (now : Nat) :
    (receiver.onByte byte now history).1.HasRoom (receiver.onByte byte now history).2 := by
  unfold Receiver.onByte
  split
  · intro ack hack
    rw [AckHistory.newest?_push, Option.some.injEq] at hack
    subst hack
    exact Nat.le_of_eq rfl
  · split
    · exact h
    · rename_i weight awaited hawaited
      intro ack hack
      split at hack
      · obtain ⟨hlow, hhigh⟩ := isDigit_iff.1 ‹_›
        rw [AckHistory.newest?_amendNewest] at hack
        obtain ⟨former, hformer, rfl⟩ := Option.map_eq_some_iff.1 hack
        have hdigits := h.digit hformer hawaited hhigh
        have hcredit := tag_credit_le receiver.timeoutMs byte weight now former hlow
        exact (Nat.add_le_add_right hcredit _).trans hdigits
      · have hroom := h ack hack
        rw [hawaited, List.map_cons, List.sum_cons] at hroom
        show ack.tag.toNat + 9 * (awaited.map UInt16.toNat).sum ≤ 999
        omega

theorem HasRoom.takeIn {receiver : Receiver} {history : AckHistory} (h : receiver.HasRoom history)
    (stream : List Sample) :
    (receiver.takeIn stream history).1.HasRoom (receiver.takeIn stream history).2 := by
  induction stream generalizing receiver history with
  | nil => exact h
  | cons sample rest ih => exact ih (h.onByte sample.1 sample.2)

theorem tagAt_le (timeoutMs : Nat) (stream : List Sample) (i : Nat) :
    tagAt timeoutMs stream i ≤ 999 := by
  have hdigit (k : Nat) : digitAfter timeoutMs stream i k ≤ 9 := by
    unfold digitAfter
    split
    · split
      · rename_i hcounts
        exact digit_le hcounts.2.1.2
      · exact Nat.zero_le _
    · exact Nat.zero_le _
  have h1 := hdigit 1
  have h2 := hdigit 2
  have h3 := hdigit 3
  unfold tagAt
  omega

theorem tag_le_of_mem_frames {timeoutMs : Nat} {stream : List Sample} {ack : Ack}
    (h : ack ∈ frames timeoutMs stream) : ack.tag.toNat ≤ 999 := by
  obtain ⟨i, -, hack⟩ := List.mem_filterMap.1 h
  unfold frameAt? at hack
  split at hack
  · split at hack
    · obtain rfl := Option.some.inj hack
      rw [UInt16.toNat_ofNat_of_lt' ((tagAt_le _ _ _).trans_lt (by decide))]
      exact tagAt_le _ _ _
    · cases hack
  · cases hack

/-- A byte begins a frame or leaves all frames before the newest as they are. -/
theorem onByte_history_cases (receiver : Receiver) (byte : UInt8) (now : Nat)
    (history : AckHistory) :
    (byte = 0x06 ∧ (receiver.onByte byte now history).2 = history.push ⟨now, 0⟩) ∨
      ((receiver.onByte byte now history).2.dropLast = history.dropLast ∧
        (receiver.onByte byte now history).2.length = history.length) := by
  unfold Receiver.onByte
  split
  · exact .inl ⟨‹_›, rfl⟩
  · right
    split
    · exact ⟨rfl, rfl⟩
    · split <;> simp

/-! ## Reading from the line -/

/-- The bytes that arrive before the line closes. -/
def arrivals (readings : List Reading) : List Sample :=
  (readings.takeWhile (· ≠ .error .closed)).filterMap Except.toOption

/-- Reading takes in the bytes that arrive before the line closes, and nothing after that. -/
theorem run_eq_takeIn (receiver : Receiver) (readings : List Reading) (history : AckHistory) :
    receiver.run readings history =
      let (receiver, history) := receiver.takeIn (arrivals readings) history
      ⟨min readings.length ((readings.takeWhile (· ≠ .error .closed)).length + 1), receiver,
        history⟩ := by
  induction readings generalizing receiver history with
  | nil => rfl
  | cons reading rest ih =>
    match reading with
    | .error .closed => simp [run, arrivals, takeIn]
    | .error .io => simp [run, arrivals, ih, List.filterMap_cons, Except.toOption]
    | .ok (byte, now) => simp [run, arrivals, ih, takeIn, Except.toOption]

/-- A new receiver ends up with the newest of the frames that the stream says. No tag of theirs
passes 999, nor does one with any digit that may come next, and older frames stay as they are. What
is read from a line is taken in up to its end. -/
theorem decodes_stream (timeoutMs : UInt32) (stream : List Sample) (readings : List Reading) :
    let (receiver, history) := ({ timeoutMs } : Receiver).takeIn stream []
    history = newest AckHistory.capacity (frames timeoutMs.toNat stream) ∧
      (∀ i, tagAt timeoutMs.toNat stream i ≤ 999) ∧
      (∀ ack ∈ history, ack.tag.toNat ≤ 999) ∧
      (∀ (byte : UInt8) weight awaited ack, 0x30 ≤ byte → byte ≤ 0x39 →
        receiver.awaited = weight :: awaited → history.newest? = some ack →
          ack.tag.toNat + (byte.toNat - 0x30) * weight.toNat ≤ 999) ∧
      (∀ byte now,
        (byte = 0x06 ∧ (receiver.onByte byte now history).2 = history.push ⟨now, 0⟩) ∨
        ((receiver.onByte byte now history).2.dropLast = history.dropLast ∧
          (receiver.onByte byte now history).2.length = history.length)) ∧
      ∀ receiver history, Receiver.run receiver readings history =
        let (receiver, history) := receiver.takeIn (arrivals readings) history
        ⟨min readings.length ((readings.takeWhile (· ≠ .error .closed)).length + 1), receiver,
          history⟩ := by
  have hfresh : ({ timeoutMs } : Receiver).HasRoom [] := by simp [HasRoom, AckHistory.newest?]
  have hroom := hfresh.takeIn stream
  have hhistory : (({ timeoutMs } : Receiver).takeIn stream []).2 = _ :=
    takeIn_history timeoutMs [] stream (Nat.zero_le _)
  rw [AckHistory.amendNewest_nil, List.nil_append] at hhistory
  refine ⟨hhistory, tagAt_le _ _, ?_, ?_, ?_, ?_⟩
  · intro ack hack
    rw [hhistory] at hack
    exact tag_le_of_mem_frames ((newest_suffix _ _).mem hack)
  · intro byte weight awaited ack _ hhigh hawaited hack
    have hfits := hroom.digit hack hawaited hhigh
    omega
  · intro byte now
    exact onByte_history_cases _ byte now _
  · intro receiver history
    exact run_eq_takeIn receiver readings history

/-- The first frame is cut off by the next one, whose last digit comes too late. -/
example :
    frames 50 [(0x06, 0), (0x31, 1), (0x06, 2), (0x30, 3), (0x37, 4), (0x39, 90)] =
      [⟨0, 100⟩, ⟨2, 70⟩] := by
  decide

end TakeIn

end Receiver

end Fodder
