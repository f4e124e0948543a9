import Fodder.Proofs.Allocation
import Fodder.Proofs.FeedingWindow

/-!
# The quota of a window

A cow that comes hungry into a window should get no more rations in it than are unlocked when it
comes for the last time. The engine counts rations in a history of bounded length, so a count never
exceeds that length: the bound holds as long as no more rations are unlocked than a history can
hold, and no schedule that splits the allowance into more of them keeps it.
-/
namespace Fodder

namespace FeedHistory

theorem reverse_newest {α : Type} (room : Nat) (entries : List α) :
    (newest room entries).reverse = entries.reverse.take room := by
  rw [newest, List.reverse_drop]
  by_cases h : room ≤ entries.length
  · rw [Nat.sub_sub_self h]
  · rw [List.take_of_length_le (by rw [List.length_reverse]; omega),
      List.take_of_length_le (by rw [List.length_reverse]; omega)]

theorem length_takeWhile_take {α : Type} (p : α → Bool) (n : Nat) (items : List α) :
    ((items.take n).takeWhile p).length = min n (items.takeWhile p).length := by
  induction items generalizing n with
  | nil => simp
  | cons a items ih =>
    cases n with
    | zero => simp
    | succ n =>
      by_cases h : p a
      · simp only [List.take_succ_cons, List.takeWhile_cons_of_pos h, List.length_cons, ih]
        omega
      · simp [h]

/-- A count ends at the room of a history. -/
theorem countSince_newest (history : FeedHistory) (minute : Nat) :
    countSince (newest capacity history) minute = min capacity (history.countSince minute) := by
  rw [countSince, newestFirst, reverse_newest, length_takeWhile_take]
  rfl

/-- A feed in the period is counted until the count reaches the length of the history. -/
theorem countSince_push (history : FeedHistory) {feed : Feed} {minute : Nat}
    (h : minute ≤ feed.minute.toNat) :
    countSince (push history feed) minute = min capacity (countSince history minute + 1) := by
  rw [push, remember, countSince_newest, countSince, newestFirst, List.reverse_append,
    List.reverse_singleton, List.singleton_append, List.takeWhile_cons_of_pos (by simpa using h),
    List.length_cons]
  rfl

theorem countSince_eq_zero {history : FeedHistory} {minute : Nat}
    (h : ∀ feed ∈ history, feed.minute.toNat < minute) : countSince history minute = 0 := by
  rw [countSince, List.length_eq_zero_iff, newestFirst]
  cases hr : history.reverse with
  | nil => rfl
  | cons feed rest =>
    have := h feed (by rw [← List.mem_reverse, hr]; exact List.mem_cons_self)
    exact List.takeWhile_cons_of_neg (by simpa using this)

end FeedHistory

/-- A cow that shows up at a station, by its collar, and the wall clock at that moment. -/
structure Visit where
  now : Nat
  tag : UInt16
  station : UInt8
  deriving DecidableEq, Repr

namespace Engine

/-- Rations given to a collar in the course of visits, one after the other. -/
def dispensed (engine : Engine) (tag : UInt16) : List Visit → Nat
  | [] => 0
  | visit :: visits =>
    let (answer, engine) := engine.allocate visit.now visit.tag visit.station
    dispensed engine tag visits + if visit.tag = tag ∧ isDispense answer then 1 else 0

end Engine

namespace Settings

variable {s : Settings} {feeds : FeedHistory} {now : Nat} {window : FeedingWindow}

/-- A ration is due only while fewer were given than are unlocked. -/
theorem lt_of_rule_eq_due {minute : UInt32} {expected : Nat}
    (hwindow : FeedingWindow.containing s now = .ok window)
    (hexpected : window.expectedFeeds (now / 60) s.rations.toNat = .ok expected)
    (h : s.rule feeds now = .ok (.due minute)) :
    minute.toNat = now / 60 ∧ feeds.countSince window.start < expected := by
  obtain ⟨hminute, found, unlocked, hfound, hunlocked, hlt⟩ := rule_eq_due_cases h
  obtain rfl : window = found := Except.ok.inj (hwindow.symm.trans hfound)
  obtain rfl : expected = unlocked := Except.ok.inj (hexpected.symm.trans hunlocked)
  exact ⟨hminute, hlt⟩

theorem rule_eq_due {expected : Nat} (hset : now ≠ 0)
    (hrange : now / 60 < FeedingWindow.minuteLimit)
    (hwindow : FeedingWindow.containing s now = .ok window)
    (hexpected : window.expectedFeeds (now / 60) s.rations.toNat = .ok expected)
    (hlt : feeds.countSince window.start < expected) :
    s.rule feeds now = .ok (.due (UInt32.ofNat (now / 60))) := by
  rw [rule, if_neg hset]
  simp only [hwindow, hexpected]
  rw [if_neg (by omega), if_neg (by omega)]

end Settings

namespace Engine

variable {engine : Engine} {tag : UInt16} {slot : Nat} {cow : Cow} {now : Nat} {station : UInt8}

theorem dispensed_cons (engine : Engine) (tag : UInt16) (visit : Visit) (visits : List Visit) :
    engine.dispensed tag (visit :: visits) =
      (engine.allocate visit.now visit.tag visit.station).2.dispensed tag visits +
        if visit.tag = tag ∧ isDispense (engine.allocate visit.now visit.tag visit.station).1 = true
        then 1 else 0 := rfl

/-- As long as no more rations are unlocked than a history can hold, those already counted and those
still given stay within what is unlocked. -/
theorem countSince_add_dispensed_le {window : FeedingWindow} {limit : Nat}
    (hlimit : limit ≤ FeedHistory.capacity) {visits : List Visit}
    (h : engine.herd.wearer? tag = some (slot, cow))
    (hvisits : ∀ visit ∈ visits, FeedingWindow.containing engine.settings visit.now = .ok window ∧
      window.start ≤ visit.now / 60 ∧ ∃ expected ≤ limit,
        window.expectedFeeds (visit.now / 60) engine.settings.rations.toNat = .ok expected)
    (hcount : cow.feeds.countSince window.start ≤ limit) :
    cow.feeds.countSince window.start + engine.dispensed tag visits ≤ limit := by
  induction visits generalizing engine cow with
  | nil => simpa [dispensed] using hcount
  | cons visit visits ih =>
    obtain ⟨hwindow, hopened, expected, hle, hexpected⟩ := hvisits visit List.mem_cons_self
    have hrest := fun other hother => hvisits other (List.mem_cons_of_mem visit hother)
    rw [dispensed_cons]
    by_cases htag : visit.tag = tag
    · rw [htag]
      rcases allocate_of_wearer? h visit.now visit.station with
        ⟨minute, hrule, hdispense, heq⟩ | ⟨hdispense, heq⟩
      · obtain ⟨hminute, hlt⟩ := Settings.lt_of_rule_eq_due hwindow hexpected hrule
        have hwearer := Herd.wearer?_recordFeed h slot ⟨visit.station, minute⟩
        rw [if_pos rfl] at hwearer
        have hstarted : window.start ≤ minute.toNat := by
          rw [hminute]
          exact hopened
        have hpush : FeedHistory.countSince (cow.feeds.push ⟨visit.station, minute⟩) window.start =
            min FeedHistory.capacity (cow.feeds.countSince window.start + 1) :=
          FeedHistory.countSince_push cow.feeds hstarted
        have hfed := @ih (engine.recordFeed slot cow.name ⟨visit.station, minute⟩) _ hwearer hrest
          (by dsimp only; omega)
        rw [heq, hdispense, if_pos ⟨rfl, rfl⟩]
        dsimp only at hfed
        omega
      · rw [heq, hdispense, if_neg (by simp)]
        exact ih h hrest hcount
    · obtain ⟨hsettings, hwearer⟩ := wearer?_allocate_of_ne h htag visit.now visit.station
      rw [if_neg (fun both => htag both.1)]
      exact ih hwearer (by rwa [hsettings]) hcount

/-- Once more rations are unlocked than a history can hold, the cow is fed at every visit. -/
theorem dispensed_replicate {window : FeedingWindow} {expected : Nat} {visit : Visit} (n : Nat)
    (h : engine.herd.wearer? visit.tag = some (slot, cow)) (hset : visit.now ≠ 0)
    (hrange : visit.now / 60 < FeedingWindow.minuteLimit)
    (hwindow : FeedingWindow.containing engine.settings visit.now = .ok window)
    (hexpected : window.expectedFeeds (visit.now / 60) engine.settings.rations.toNat = .ok expected)
    (hfull : FeedHistory.capacity < expected) (hlength : cow.feeds.length ≤ FeedHistory.capacity) :
    engine.dispensed visit.tag (List.replicate n visit) = n := by
  induction n generalizing engine cow with
  | zero => rfl
  | succ n ih =>
    have hcount := FeedHistory.countSince_le_length cow.feeds window.start
    have hdue := Settings.rule_eq_due hset hrange hwindow hexpected (hcount.trans_lt (by omega))
    rw [List.replicate_succ, dispensed_cons]
    rcases allocate_of_wearer? h visit.now visit.station with
      ⟨minute, -, hdispense, heq⟩ | ⟨hdispense, -⟩
    · have hwearer := Herd.wearer?_recordFeed h slot ⟨visit.station, minute⟩
      rw [if_pos rfl] at hwearer
      rw [heq, hdispense, if_pos ⟨rfl, rfl⟩]
      have hfed := @ih (engine.recordFeed slot cow.name ⟨visit.station, minute⟩) _ hwearer hwindow
        hexpected (length_remember_le _ _ _)
      exact congrArg (· + 1) hfed
    · rw [allocate, h] at hdispense
      simp [hdue, isDispense] at hdispense

end Engine

/-- Visits in one window, at which the wall clock never goes back. -/
structure Visit.InWindow (s : Settings) (window : FeedingWindow) (visits : List Visit) : Prop where
  within : ∀ visit ∈ visits, FeedingWindow.containing s visit.now = .ok window
  ordered : visits.Pairwise (·.now ≤ ·.now)

/-- A schedule keeps the quota if no cow without a feed in the window gets more rations in it than
are unlocked at the last visit, and so never more than the schedule has. -/
def Settings.KeepsQuota (s : Settings) : Prop :=
  ∀ (engine : Engine) (cow : Cow) (window : FeedingWindow) (visits : List Visit) (last : Visit),
    engine.settings = s → engine.herd.Sound → cow ∈ engine.herd.cows →
    (∀ feed ∈ cow.feeds, feed.minute.toNat < window.start) →
    Visit.InWindow s window (visits ++ [last]) →
    ∃ expected, window.expectedFeeds (last.now / 60) s.rations.toNat = .ok expected ∧
      engine.dispensed cow.collar (visits ++ [last]) ≤ expected ∧ expected ≤ s.rations.toNat

namespace Settings

/-- A cow like any other, for the runs that break the quota. -/
def hungryCow : Cow where
  name := "Berta"
  earTag := "276000123456"
  collar := 17
  ration := ⟨1082130432⟩
  calvingDay := 1700000000

def hungryHerd : Herd := ⟨[hungryCow]⟩

theorem hungryCow_valid : hungryCow.Valid := (Cow.flaw?_eq_none_iff _).1 (by decide +kernel)

theorem hungryHerd_sound : hungryHerd.Sound := by
  refine ⟨by decide, ?_, by decide, by decide⟩
  intro cow hcow
  exact List.mem_singleton.1 hcow ▸ hungryCow_valid

variable {s : Settings}

theorem rations_lt_minuteLimit (valid : s.Valid) : s.rations.toNat < FeedingWindow.minuteLimit :=
  valid.rations.2.trans_lt (by decide)

theorem keepsQuota_of_le (valid : s.Valid) (hle : s.rations.toNat ≤ FeedHistory.capacity) :
    s.KeepsQuota := by
  intro engine cow window visits last hsettings hsound hcow hhungry hvisits
  obtain ⟨slot, hwearer⟩ := hsound.exists_wearer? hcow
  have hzero := FeedHistory.countSince_eq_zero hhungry
  have hcontains {visit} (hvisit : visit ∈ visits ++ [last]) :=
    FeedingWindow.contains_of_containing valid (hvisits.within visit hvisit)
  have hexpected {visit} (hvisit : visit ∈ visits ++ [last]) :=
    FeedingWindow.expectedFeeds_eq_unlocked (hcontains hvisit) valid.rations.1
      (rations_lt_minuteLimit valid)
  have hmem : last ∈ visits ++ [last] := by simp
  have hunlocked := FeedingWindow.unlocked_le_rations (hcontains hmem) valid.rations.1
  refine ⟨_, hexpected hmem, ?_, hunlocked⟩
  have hvisit : ∀ visit ∈ visits ++ [last],
      FeedingWindow.containing engine.settings visit.now = .ok window ∧
        window.start ≤ visit.now / 60 ∧
        ∃ expected ≤ window.unlocked s.rations.toNat (last.now / 60),
          window.expectedFeeds (visit.now / 60) engine.settings.rations.toNat = .ok expected := by
    intro visit hvisit
    subst hsettings
    refine ⟨hvisits.within visit hvisit, (hcontains hvisit).1, _, ?_, hexpected hvisit⟩
    refine FeedingWindow.unlocked_mono _ _ (Nat.div_le_div_right ?_)
    rcases List.mem_append.1 hvisit with hvisit | hvisit
    · exact (List.pairwise_append.1 hvisits.ordered).2.2 visit hvisit last (by simp)
    · rw [List.mem_singleton.1 hvisit]
  have hsum := Engine.countSince_add_dispensed_le (hunlocked.trans hle) hwearer hvisit (by omega)
  omega

/-- Late in a window every ration is unlocked. If that is more than a history remembers, a cow that
comes once more than there are rations is fed every time. -/
theorem not_keepsQuota_of_lt (valid : s.Valid) (hfull : FeedHistory.capacity < s.rations.toNat) :
    ¬s.KeepsQuota := by
  intro h
  obtain ⟨now, window, hwindow, hset, hrange, hlast⟩ := FeedingWindow.exists_last_minute valid
  have hcontains := FeedingWindow.contains_of_containing valid hwindow
  have hexpected := FeedingWindow.expectedFeeds_eq_unlocked hcontains valid.rations.1
    (rations_lt_minuteLimit valid)
  have hopened := hcontains.1
  have hmax : s.rations.toNat ≤ 48 := valid.rations.2
  have hall : window.unlocked s.rations.toNat (now / 60) = s.rations.toNat :=
    FeedingWindow.unlocked_last_minute hlast (by omega) valid.rations.1 (by omega)
  rw [hall] at hexpected
  let engine : Engine := { herd := hungryHerd, settings := s }
  let visit : Visit := ⟨now, hungryCow.collar, 0⟩
  have hvisits : List.replicate s.rations.toNat visit ++ [visit] =
      List.replicate (s.rations.toNat + 1) visit := List.replicate_succ'.symm
  have hwearer : engine.herd.wearer? visit.tag = some (0, hungryCow) := by
    show hungryHerd.wearer? hungryCow.collar = some (0, hungryCow)
    decide +kernel
  have hwithin : Visit.InWindow s window (List.replicate s.rations.toNat visit ++ [visit]) := by
    rw [hvisits]
    refine ⟨fun other hother => ?_, List.pairwise_replicate.2 (.inr le_rfl)⟩
    exact List.eq_of_mem_replicate hother ▸ hwindow
  obtain ⟨expected, heq, hle, -⟩ := h engine hungryCow window _ visit rfl hungryHerd_sound
    List.mem_cons_self (by simp [hungryCow]) hwithin
  have hfed := Engine.dispensed_replicate (s.rations.toNat + 1) hwearer hset hrange hwindow hexpected
    hfull (by decide)
  rw [hexpected, Except.ok.injEq] at heq
  rw [hvisits, hfed] at hle
  omega

/-- The schedules that keep the quota are those that split the allowance into no more rations than a
feeding history remembers. -/
theorem keepsQuota_iff (valid : s.Valid) :
    s.KeepsQuota ↔ s.rations.toNat ≤ FeedHistory.capacity := by
  refine ⟨fun h => ?_, keepsQuota_of_le valid⟩
  by_contra hfull
  exact not_keepsQuota_of_lt valid (Nat.not_le.1 hfull) h

theorem keepsQuota_thirtyTwo :
    (⟨[5, 17], 32⟩ : Settings).Valid ∧ (⟨[5, 17], 32⟩ : Settings).KeepsQuota := by
  have valid : (⟨[5, 17], 32⟩ : Settings).Valid := (flaw?_eq_none_iff _).1 (by decide)
  exact ⟨valid, (keepsQuota_iff valid).2 (by decide)⟩

/-- At four in the afternoon 33 of 48 rations are unlocked; the cow that comes 34 times gets 34. -/
theorem dispensed_past_unlocked :
    (⟨[0], 48⟩ : Settings).flaw? = none ∧
      FeedingWindow.containing ⟨[0], 48⟩ 1728057600 = .ok ⟨28800000, 24⟩ ∧
      (⟨28800000, 24⟩ : FeedingWindow).expectedFeeds (1728057600 / 60) 48 = .ok 33 ∧
      ({ herd := hungryHerd, settings := ⟨[0], 48⟩ } : Engine).dispensed hungryCow.collar
        (List.replicate 34 ⟨1728057600, hungryCow.collar, 0⟩) = 34 := by
  decide +kernel

end Settings

end Fodder
