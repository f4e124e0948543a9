import Fodder.Form.Basic
import Fodder.Json
import Mathlib.Data.List.TakeWhile
import Mathlib.Tactic

/-!
# Reading what was written

Any object whose values can be read, as natural numbers of 64 bits and lists of them can, can be read
again. Texts and marks end by themselves, so that they give the same tokens whatever comes after them.
A number ends only where another token begins, so a value is always read together with the mark behind
it.
-/
namespace Fodder.Form

/-! ## Texts -/

theorem unit?_hexDigits {n : Nat} (h : n < 0x20) :
    unit? '0' '0' (Nat.digitChar (n / 16)) (Nat.digitChar (n % 16)) = some n := by
  revert n
  decide

/-- A character is written by a letter, by its number or as itself. -/
theorem escape_cases (c : Char) :
    (∃ letter, letter ≠ 'u' ∧ escaped? letter = some c ∧ Json.escape c = ['\\', letter]) ∨
      (c.toNat < 0x20 ∧ Json.escape c = '\\' :: 'u' :: '0' :: '0' :: Json.hexDigits c.toNat) ∨
      (¬c.toNat < 0x20 ∧ c ≠ '"' ∧ c ≠ '\\' ∧ Json.escape c = [c]) := by
  fun_cases Json.escape c with
  | case1 => exact .inl ⟨'"', by decide, rfl, rfl⟩
  | case2 => exact .inl ⟨'\\', by decide, rfl, rfl⟩
  | case3 => exact .inl ⟨'b', by decide, rfl, rfl⟩
  | case4 => exact .inl ⟨'f', by decide, rfl, rfl⟩
  | case5 => exact .inl ⟨'n', by decide, rfl, rfl⟩
  | case6 => exact .inl ⟨'r', by decide, rfl, rfl⟩
  | case7 => exact .inl ⟨'t', by decide, rfl, rfl⟩
  | case8 _ _ _ _ _ _ _ _ hcontrol => exact .inr (.inl ⟨hcontrol, by simp⟩)
  | case9 _ hquote hbackslash _ _ _ _ _ hplain =>
    exact .inr (.inr ⟨hplain, hquote, hbackslash, by simp⟩)

/-- The piece stands for the character. -/
def Denotes (p : Piece) (c : Char) : Prop := p = .char c ∨ c.toNat < 0x20 ∧ p = .unit c.toNat

variable {body rest : List Char} {ps : List Piece} {cs : List Char}

theorem pieces_escape (h : pieces body = some (ps, rest)) (c : Char) :
    ∃ p, Denotes p c ∧ pieces (Json.escape c ++ body) = some (p :: ps, rest) := by
  obtain ⟨letter, hletter, hescaped, heq⟩ | ⟨hcontrol, heq⟩ | ⟨hplain, hquote, hbackslash, heq⟩ :=
    escape_cases c
  · refine ⟨.char c, .inl rfl, ?_⟩
    simp [heq, pieces, hescaped, h, hletter]
  · refine ⟨.unit c.toNat, .inr ⟨hcontrol, rfl⟩, ?_⟩
    simp [heq, Json.hexDigits, pieces, unit?_hexDigits hcontrol, h]
  · refine ⟨.char c, .inl rfl, ?_⟩
    -- Neither a quote nor a backslash: of the equations of `pieces` only the last one is left.
    simp [heq, pieces, hplain, hbackslash, h]

/-- No control character is half of a surrogate pair. -/
theorem join_unit {n : Nat} (h : n < 0x20) (ps : List Piece) :
    join (.unit n :: ps) = (join ps).map (Char.ofNat n :: ·) := by
  have hhigh : isHigh n = false := decide_eq_false (by omega)
  have hlow : isLow n = false := decide_eq_false (by omega)
  rw [join.eq_def]
  simp only [hhigh, hlow, Bool.false_eq_true, if_false]

theorem join_cons (h : join ps = some cs) {p : Piece} {c : Char} (hp : Denotes p c) :
    join (p :: ps) = some (c :: cs) := by
  obtain rfl | ⟨hcontrol, rfl⟩ := hp
  · rw [join, h]
    rfl
  · rw [join_unit hcontrol, h, Char.ofNat_toNat]
    rfl

theorem exists_pieces (cs rest : List Char) :
    ∃ ps, pieces (cs.flatMap Json.escape ++ '"' :: rest) = some (ps, rest) ∧ join ps = some cs := by
  induction cs with
  | nil => exact ⟨[], rfl, rfl⟩
  | cons c cs ih =>
    obtain ⟨ps, hps, hjoin⟩ := ih
    obtain ⟨p, hdenotes, hp⟩ := pieces_escape hps c
    rw [List.flatMap_cons, List.append_assoc]
    exact ⟨p :: ps, hp, join_cons hjoin hdenotes⟩

/-- A written text is read again up to its closing quote. -/
theorem quoted_flatMap_escape (cs rest : List Char) :
    quoted (cs.flatMap Json.escape ++ '"' :: rest) = some (String.ofList cs, rest) := by
  obtain ⟨ps, hps, hjoin⟩ := exists_pieces cs rest
  simp [quoted, hps, hjoin]

/-! ## Numbers -/

theorem le_ofDigitChars (ds : List Char) (n : Nat) : n ≤ Nat.ofDigitChars 10 ds n := by
  induction ds generalizing n with
  | nil => simp
  | cons d ds ih =>
    rw [Nat.ofDigitChars_cons]
    exact (by omega : n ≤ 10 * n + (d.toNat - '0'.toNat)).trans (ih _)

/-- Digits are all gathered if their value fits. -/
theorem gather_eq {ds : List Char} {n : Nat} (h : Nat.ofDigitChars 10 ds n < UInt64.size) :
    Number.gather n ds = (Nat.ofDigitChars 10 ds n, []) := by
  induction ds generalizing n with
  | nil => simp [Number.gather]
  | cons d ds ih =>
    rw [Nat.ofDigitChars_cons, Nat.mul_comm 10 n] at h ⊢
    rw [Number.gather, if_pos ((le_ofDigitChars ds _).trans_lt h), ih h]

variable {n : Nat}

/-- No number but zero begins with a zero. -/
theorem head?_toDigits_ne (h : 0 < n) : (Nat.toDigits 10 n).head? ≠ some '0' := by
  induction n using Nat.strong_induction_on with
  | h n ih =>
    rw [Nat.toDigits_eq_if (by decide)]
    split_ifs with hlt
    · simpa using h.ne'
    · rw [List.head?_append_of_ne_nil _ Nat.toDigits_ne_nil]
      exact ih _ (by omega) (by omega)

theorem length_toDigits_le (h : (Nat.toDigits 10 n).head? = some '0') :
    (Nat.toDigits 10 n).length ≤ 1 := by
  rcases Nat.eq_zero_or_pos n with rfl | hpos
  · decide
  · exact absurd h (head?_toDigits_ne hpos)

theorem isDigit_toDigits : ∀ d ∈ Nat.toDigits 10 n, d.isDigit = true :=
  fun _ hd => Nat.isDigit_of_mem_toDigits (by decide) (by decide) hd

/-- Digits without a leading zero are an integer. -/
theorem split_digits {ds : List Char} (hdigits : ∀ d ∈ ds, d.isDigit = true) (hne : ds ≠ [])
    (hzero : ds.head? = some '0' → ds.length ≤ 1) :
    Number.split ds = some ⟨false, ds, none, none⟩ := by
  have htake : ds.takeWhile Char.isDigit = ds := List.takeWhile_eq_self_iff.2 hdigits
  have hdrop : ds.dropWhile Char.isDigit = [] := List.dropWhile_eq_nil_iff.2 hdigits
  have hsign : Number.sign ds = (false, ds) := by
    unfold Number.sign
    split
    · exact absurd (hdigits '-' (by simp)) (by decide)
    · rfl
  have hzero : ¬(ds.head? = some '0' ∧ 1 < ds.length) := fun h => (hzero h.1).not_gt h.2
  simp [Number.split, hsign, htake, hdrop, hne, hzero, Number.fraction, Number.exponent]

/-- The digits of a number of 64 bits are read as the number. -/
theorem read_toDigits (h : n < UInt64.size) :
    Number.read (Nat.toDigits 10 n) = some (.natural n) := by
  have hsplit := split_digits (isDigit_toDigits (n := n)) Nat.toDigits_ne_nil length_toDigits_le
  have hgather : Number.gather 0 (Nat.toDigits 10 n) = (n, []) := by
    rw [gather_eq] <;> rw [Nat.ofDigitChars_ten_toDigits]
    exact h
  simp [Number.read, hsplit, Number.ofWritten, hgather]

/-! ## Tokens -/

namespace Token

/-- More fuel than is needed changes nothing. -/
theorem scan_mono {fuel more : Nat} {tokens : List Token} (h : scan fuel cs = some tokens)
    (hle : fuel ≤ more) : scan more cs = some tokens := by
  induction fuel generalizing cs tokens more with
  | zero =>
    cases cs with
    | nil => simpa [scan] using h
    | cons c rest => cases h
  | succ fuel ih =>
    cases cs with
    | nil => simpa [scan] using h
    | cons c rest =>
      obtain ⟨more, rfl⟩ := Nat.exists_eq_add_of_le' hle
      have hle : fuel ≤ more + fuel := Nat.le_add_left ..
      rw [scan] at h
      rw [← Nat.add_assoc, scan]
      split_ifs at h ⊢ with hblank
      · exact ih h hle
      · obtain ⟨⟨token, left⟩, hfirst, h⟩ := Option.bind_eq_some_iff.1 h
        obtain ⟨others, hothers, h⟩ := Option.bind_eq_some_iff.1 h
        rw [hfirst]
        simp only [Option.bind_eq_bind, Option.bind_some, ih hothers hle]
        exact h

variable {c d : Char}

/-- A mark is neither a blank nor part of a number. -/
theorem plain_of_mark {mark : Token} (h : mark? c = some mark) :
    isBlank c = false ∧ inNumber c = false := by
  unfold mark? at h
  split at h <;> first | exact ⟨rfl, rfl⟩ | cases h

/-- A digit begins no token but a number. -/
theorem plain_of_isDigit (h : d.isDigit = true) :
    isBlank d = false ∧ mark? d = none ∧ d ≠ '"' := by
  refine ⟨decide_eq_false ?_, ?_, ?_⟩
  · rintro (rfl | rfl | rfl | rfl) <;> cases h
  · unfold mark?
    split <;> first | rfl | cases h
  · rintro rfl
    cases h

/-- A number ends before a mark. -/
theorem first_digits {ds : List Char} {n : Number} {mark : Token}
    (hdigits : ∀ e ∈ d :: ds, e.isDigit = true) (hread : Number.read (d :: ds) = some n)
    (hmark : mark? c = some mark) (rest : List Char) :
    first d (ds ++ [c] ++ rest) = some (number n, [c] ++ rest) := by
  obtain ⟨hd, hds⟩ := List.forall_mem_cons.1 hdigits
  obtain ⟨-, hnone, hquote⟩ := plain_of_isDigit hd
  have hin : ∀ e ∈ ds, inNumber e = true := fun e he => by simp [inNumber, hds e he]
  rw [first, hnone]
  simp only [hquote, if_false, List.append_assoc, List.takeWhile_append_of_pos hin,
    List.dropWhile_append_of_pos hin]
  simp [(plain_of_mark hmark).2, hread]

end Token

/-- The characters give the tokens, whatever comes after them. -/
def Spells (cs : List Char) (tokens : List Token) : Prop :=
  ∀ (rest : List Char) (others : List Token), Token.scan rest.length rest = some others →
    Token.scan (cs ++ rest).length (cs ++ rest) = some (tokens ++ others)

namespace Spells

variable {tokens others : List Token}

theorem nil : Spells [] [] := fun _ _ hrest => hrest

theorem append {ds : List Char} (h : Spells cs tokens) (hds : Spells ds others) :
    Spells (cs ++ ds) (tokens ++ others) := by
  intro rest after hrest
  rw [List.append_assoc, List.append_assoc]
  exact h _ _ (hds rest after hrest)

theorem scan_eq (h : Spells cs tokens) : Token.scan cs.length cs = some tokens := by
  simpa using h [] [] rfl

/-- The token at the front comes first, then those of what it leaves. -/
theorem of_first {c : Char} {token : Token} {left : List Char} (hblank : Token.isBlank c = false)
    (hfirst : ∀ rest, Token.first c (cs ++ rest) = some (token, left ++ rest))
    (hshort : left.length ≤ cs.length) (hleft : Spells left tokens) :
    Spells (c :: cs) (token :: tokens) := by
  intro rest others hrest
  have hfuel : (left ++ rest).length ≤ (cs ++ rest).length := by
    rw [List.length_append, List.length_append]
    exact Nat.add_le_add_right hshort _
  simp only [List.cons_append, List.length_cons, Token.scan, hblank, hfirst,
    Token.scan_mono (hleft rest others hrest) hfuel, Option.bind_eq_bind, Option.bind_some]
  rfl

theorem of_mark {c : Char} {mark : Token} (h : Token.mark? c = some mark) : Spells [c] [mark] :=
  of_first (Token.plain_of_mark h).1 (fun rest => by rw [Token.first, h]) le_rfl nil

theorem text (s : String) : Spells (Json.text s).toList [.text s] := by
  have hfirst (rest : List Char) :
      Token.first '"' (s.toList.flatMap Json.escape ++ ['"'] ++ rest) =
        some (.text s, [] ++ rest) := by
    rw [List.append_assoc, List.singleton_append]
    simp [Token.first, Token.mark?, quoted_flatMap_escape]
  rw [Json.text, String.toList_ofList]
  exact of_first rfl hfirst (Nat.zero_le _) nil

theorem natural {c : Char} {mark : Token} (hn : n < UInt64.size) (hmark : Token.mark? c = some mark) :
    Spells (Nat.toDigits 10 n ++ [c]) [.number (.natural n), mark] := by
  have hread := read_toDigits hn
  have hdigits := isDigit_toDigits (n := n)
  obtain ⟨d, ds, heq⟩ := List.exists_cons_of_ne_nil (Nat.toDigits_ne_nil (n := n) (b := 10))
  rw [heq] at hread hdigits ⊢
  obtain ⟨hblank, -⟩ := Token.plain_of_isDigit (hdigits d List.mem_cons_self)
  exact of_first hblank (Token.first_digits hdigits hread hmark) (by simp) (of_mark hmark)

end Spells

/-! ## Values -/

/-- The text is read as the value, up to the mark behind it. -/
def Writes (written : String) (v : Value) : Prop :=
  ∃ tokens, (∀ c mark, Token.mark? c = some mark →
      Spells (written.toList ++ [c]) (tokens ++ [mark])) ∧
    ∀ rest, value (tokens ++ rest) = some (v, rest)

theorem writes_natural (h : n < UInt64.size) : Writes (toString n) (.number (.natural n)) := by
  refine ⟨[.number (.natural n)], fun c mark hmark => ?_, fun _ => rfl⟩
  rw [Nat.toString_eq_repr, Nat.toList_repr]
  exact .natural h hmark

/-- Tokens of a list of numbers, from the first of them to the bracket. -/
def listTokens : List Nat → List Token
  | [] => [.closeList]
  | [n] => [.number (.natural n), .closeList]
  | n :: m :: ns => .number (.natural n) :: .comma :: listTokens (m :: ns)

theorem spells_listTokens {ns : List Nat} (h : ∀ n ∈ ns, n < UInt64.size) :
    Spells ((",".intercalate (ns.map toString)).toList ++ [']']) (listTokens ns) := by
  induction ns using listTokens.induct with
  | case1 => exact .of_mark rfl
  | case2 n =>
    rw [List.map_singleton, String.intercalate_singleton, Nat.toString_eq_repr, Nat.toList_repr]
    exact .natural (h n (by simp)) rfl
  | case3 n m ns ih =>
    obtain ⟨hn, hns⟩ := List.forall_mem_cons.1 h
    have hfront : Spells (Nat.toDigits 10 n ++ [',']) [.number (.natural n), .comma] :=
      .natural hn rfl
    have hall := hfront.append (ih hns)
    simpa [String.intercalate_cons_cons, Nat.toString_eq_repr, listTokens] using hall

theorem numbers_listTokens (n : Nat) (ns : List Nat) (rest : List Token) :
    numbers (listTokens (n :: ns) ++ rest) = some ((n :: ns).map .natural, rest) := by
  induction ns generalizing n with
  | nil => rfl
  | cons m ns ih =>
    have hrest := ih m
    simp only [listTokens, List.cons_append, numbers, hrest]
    rfl

theorem value_listTokens (ns : List Nat) (rest : List Token) :
    value (.openList :: listTokens ns ++ rest) = some (.numbers (ns.map .natural), rest) := by
  cases ns with
  | nil => rfl
  | cons n ns =>
    have hnumbers := numbers_listTokens n ns rest
    obtain ⟨tail, htail⟩ : ∃ tail, listTokens (n :: ns) = .number (.natural n) :: tail := by
      cases ns <;> exact ⟨_, rfl⟩
    rw [htail] at hnumbers ⊢
    exact congrArg (Option.map _) hnumbers

theorem writes_naturals {ns : List Nat} (h : ∀ n ∈ ns, n < UInt64.size) :
    Writes (Json.list (ns.map toString)) (.numbers (ns.map .natural)) := by
  refine ⟨.openList :: listTokens ns, fun c mark hmark => ?_, value_listTokens ns⟩
  have hopen : Spells ['['] [.openList] := .of_mark rfl
  have hall := (hopen.append (spells_listTokens h)).append (.of_mark hmark)
  simpa [Json.list] using hall

/-! ## Objects -/

/-- The field is written under the name of the entry, and writes its value. -/
def WritesField (field : String × String) (entry : String × Value) : Prop :=
  field.1 = entry.1 ∧ Writes field.2 entry.2

variable {written : List (String × String)} {entries : List (String × Value)}

/-- The fields up to the closing brace. Each of them needs fuel, and has more tokens than that. -/
theorem exists_fields (h : List.Forall₂ WritesField written entries) (hne : written ≠ []) :
    ∃ tokens,
      Spells ((",".intercalate (written.map fun (key, value) =>
        Json.text key ++ ":" ++ value)).toList ++ ['\x7d']) tokens ∧
      written.length < tokens.length ∧
      ∀ fuel, written.length ≤ fuel → fields fuel tokens = some entries := by
  induction h with
  | nil => exact absurd rfl hne
  | @cons field entry written entries hfield hrest ih =>
    obtain ⟨key, v⟩ := entry
    obtain ⟨rfl, tokens, hspells, hvalue⟩ := hfield
    have hkey : Spells ((Json.text field.1).toList ++ [':']) [.text field.1, .colon] :=
      (Spells.text field.1).append (.of_mark rfl)
    -- The last field ends with the brace, any other with the comma before the next.
    cases written with
    | nil =>
      cases hrest
      refine ⟨[.text field.1, .colon] ++ (tokens ++ [.closeObject]), ?_, by simp, ?_⟩
      · simpa using hkey.append (hspells '\x7d' _ rfl)
      · rintro (- | fuel) hfuel
        · cases hfuel
        · simp [fields, hvalue]
    | cons next written =>
      obtain ⟨others, hothers, hlength, hfields⟩ := ih (by simp)
      refine ⟨[.text field.1, .colon] ++ (tokens ++ [.comma]) ++ others, ?_, ?_, ?_⟩
      · simpa [String.intercalate_cons_cons] using (hkey.append (hspells ',' _ rfl)).append hothers
      · simp only [List.length_cons, List.length_append] at hlength ⊢
        omega
      · rintro (- | fuel) hfuel
        · cases hfuel
        · have hrest := hfields fuel (Nat.le_of_succ_le_succ hfuel)
          simp [fields, hvalue, hrest]

/-- A written object is read as the form with the values of its fields. -/
theorem ofString_object (h : List.Forall₂ WritesField written entries) :
    ofString (Json.object written) = some (.named entries) := by
  rcases eq_or_ne written [] with rfl | hne
  · cases h
    decide
  · obtain ⟨tokens, hspells, hlength, hfields⟩ := exists_fields h hne
    have hopen : Spells ['\x7b'] [.openObject] := .of_mark rfl
    have hscan : Token.ofString (Json.object written) = some (.openObject :: tokens) := by
      have hall := (hopen.append hspells).scan_eq
      simpa [Token.ofString, Json.object] using hall
    -- With a field there are too many tokens for the empty object, which is read apart.
    have hpos : 0 < written.length := List.length_pos_iff.2 hne
    have hlong : 1 < tokens.length := Nat.lt_of_le_of_lt hpos hlength
    have hmore : tokens ≠ [.closeObject] := fun h => by simp [h] at hlong
    rw [ofString, hscan, Option.bind_some]
    simp [ofTokens, hfields _ hlength.le]

end Fodder.Form
