import ArgGrammar.Proofs.Recording
import Mathlib.Data.List.Forall2
import Mathlib.Data.Nat.Digits.Defs
import Mathlib.Tactic.Ring

/-!
# What a numeral denotes

A numeral is read from left to right, away from zero on the side of its sign, until a digit makes the
number too large for the width. What a numeral denotes is said here without an order of reading.

* `Numeral.IsDigit`, `Numeral.Magnitude`, `Numeral.InBase`, `Numeral.Denotes`: digits, runs of digits,
  numerals of one base, and numerals with the mark of their base.
* `Numeral.accumulate_eq_ok_iff`, `Numeral.readBase_eq_ok_iff`, `Numeral.readChars_eq_ok_iff`: reading
  succeeds on the numerals whose number is of the width, and only on those.
* `Numeral.denotes_toString`: the decimal text of an integer denotes it.
* `integers_read_numerals`: what the integer leaves of a grammar read.
-/

namespace ArgGrammar

/-- The integer is one of the width. -/
abbrev Width.Holds (w : Width) (z : Int) : Prop := w.least ≤ z ∧ z ≤ w.greatest

theorem Width.holds_word32_iff {z : Int} : word32.Holds z ↔ -2 ^ 31 ≤ z ∧ z < 2 ^ 31 := by
  simp only [Holds, least, greatest]
  omega

theorem Width.holds_word64_iff {z : Int} : word64.Holds z ↔ -2 ^ 63 ≤ z ∧ z < 2 ^ 63 := by
  simp only [Holds, least, greatest]
  omega

namespace Numeral

/-- The character `c` is the digit `d` of a base; digits from ten on are letters of either case. -/
def IsDigit (base : Nat) (c : Char) (d : Nat) : Prop :=
  d < base ∧ (c = d.digitChar ∨ c = d.digitChar.toUpper)

/-- The characters are one digit or more of a base, and `n` is their number. -/
def Magnitude (base : Nat) (cs : List Char) (n : Nat) : Prop :=
  cs ≠ [] ∧ ∃ ds, List.Forall₂ (IsDigit base) cs ds ∧ n = Nat.ofDigits base ds.reverse

/-- Digits of a base, with or without a sign in front, denote `z`. -/
inductive InBase (base : Nat) : List Char → Int → Prop where
  | unsigned {cs : List Char} {n : Nat} (h : Magnitude base cs n) : InBase base cs n
  | plus {cs : List Char} {n : Nat} (h : Magnitude base cs n) : InBase base ('+' :: cs) n
  | minus {cs : List Char} {n : Nat} (h : Magnitude base cs n) : InBase base ('-' :: cs) (-n)

/-- A decimal, hexadecimal or binary numeral denotes `z`. The mark of the base stands in front of the
sign. -/
inductive Denotes : List Char → Int → Prop where
  | decimal {cs : List Char} {z : Int} (h : InBase 10 cs z) : Denotes cs z
  | hexadecimal {cs : List Char} {z : Int} (h : InBase 16 cs z) : Denotes ('0' :: 'x' :: cs) z
  | binary {cs : List Char} {z : Int} (h : InBase 2 cs z) : Denotes ('0' :: 'b' :: cs) z

/-! ## Digits -/

theorem digit?_eq_some_iff_lt {base : Nat} (hbase : base ≤ 16) {c : Char} {d : Nat} :
    digit? base c = some d ↔ d < base ∧ digit? 16 c = some d := by
  simp only [digit?, Option.filter_eq_some_iff, decide_eq_true_eq]
  constructor
  · rintro ⟨hvalue, hlt⟩
    exact ⟨hlt, hvalue, hlt.trans_le hbase⟩
  · rintro ⟨hlt, hvalue, -⟩
    exact ⟨hvalue, hlt⟩

theorem digit?_digitChar :
    ∀ d < 16, digit? 16 d.digitChar = some d ∧ digit? 16 d.digitChar.toUpper = some d := by
  decide

theorem toNat_digitChar :
    ∀ d < 16, (d < 10 → d.digitChar.toNat = 48 + d) ∧
      (10 ≤ d → d.digitChar.toNat = 87 + d ∧ d.digitChar.toUpper.toNat = 55 + d) := by
  decide

theorem eq_digitChar_of_digit? {c : Char} {d : Nat} (h : digit? 16 c = some d) :
    c = d.digitChar ∨ c = d.digitChar.toUpper := by
  simp only [digit?, Option.filter_eq_some_iff, decide_eq_true_eq] at h
  obtain ⟨hvalue, hlt⟩ := h
  obtain ⟨hfigure, hletter⟩ := toNat_digitChar d hlt
  split at hvalue
  · cases hvalue
    refine .inl (Char.toNat_inj.mp ?_)
    rw [hfigure (by omega)]
    omega
  split at hvalue
  · cases hvalue
    refine .inl (Char.toNat_inj.mp ?_)
    rw [(hletter (by omega)).1]
    omega
  split at hvalue
  · cases hvalue
    refine .inr (Char.toNat_inj.mp ?_)
    rw [(hletter (by omega)).2]
    omega
  · cases hvalue

theorem digit?_eq_some_iff {base : Nat} (hbase : base ≤ 16) {c : Char} {d : Nat} :
    digit? base c = some d ↔ IsDigit base c d := by
  rw [digit?_eq_some_iff_lt hbase, IsDigit]
  refine and_congr_right fun hd => ⟨eq_digitChar_of_digit?, ?_⟩
  obtain ⟨hlower, hupper⟩ := digit?_digitChar d (hd.trans_le hbase)
  rintro (rfl | rfl)
  · exact hlower
  · exact hupper

theorem not_isDigit {base : Nat} (hbase : base ≤ 16) {c : Char} (hc : digit? base c = none) (d : Nat) :
    ¬ IsDigit base c d := fun hd => by
  rw [(digit?_eq_some_iff hbase).mpr hd] at hc
  cases hc

/-! ## Runs of digits -/

/-- The number read so far, on the side of the sign. -/
def signed (negative : Bool) (n : Nat) : Int := if negative then -n else n

/-- The number after the digits `ds`, if it was `n` before them. -/
def shifted (base n : Nat) (ds : List Nat) : Nat := ds.foldl (fun n d => n * base + d) n

theorem shifted_zero (base : Nat) (ds : List Nat) :
    shifted base 0 ds = Nat.ofDigits base ds.reverse := by
  rw [Nat.ofDigits_eq_foldr, List.foldr_reverse, shifted]
  simp only [Nat.cast_id, Nat.mul_comm, Nat.add_comm]

theorem le_shifted {base : Nat} (hbase : 0 < base) (n : Nat) (ds : List Nat) :
    n ≤ shifted base n ds := by
  induction ds generalizing n with
  | nil => exact Nat.le_refl n
  | cons d ds ih =>
    have hn : n ≤ n * base := Nat.le_mul_of_pos_right n hbase
    exact (hn.trans (Nat.le_add_right _ d)).trans (ih (n * base + d))

theorem signed_next (negative : Bool) (base n d : Nat) :
    (if negative then signed negative n * base - d else signed negative n * base + d) =
      signed negative (n * base + d) := by
  cases negative with
  | false => simp [signed]
  | true =>
    simp only [signed, if_true]
    push_cast
    ring

theorem holds_signed_of_le {w : Width} {negative : Bool} {m n : Nat} (hle : m ≤ n)
    (hn : w.Holds (signed negative n)) : w.Holds (signed negative m) := by
  have hzero : w.least ≤ 0 ∧ 0 ≤ w.greatest := by cases w <;> decide
  cases negative <;> simp only [signed, if_true, Bool.false_eq_true, if_false] at hn ⊢ <;> omega

variable {w : Width} {base n : Nat} {negative : Bool} {c : Char} {cs : List Char} {z : Int}

theorem exists_digits_cons (hbase : base ≤ 16) {d : Nat} (hc : digit? base c = some d)
    {P : List Nat → Prop} :
    (∃ ds, List.Forall₂ (IsDigit base) (c :: cs) ds ∧ P ds) ↔
      ∃ ds, List.Forall₂ (IsDigit base) cs ds ∧ P (d :: ds) := by
  constructor
  · rintro ⟨es, hes, hP⟩
    obtain ⟨e, ds, he, hds, rfl⟩ := List.forall₂_cons_left_iff.mp hes
    obtain rfl : d = e := Option.some.inj (hc.symm.trans ((digit?_eq_some_iff hbase).mpr he))
    exact ⟨ds, hds, hP⟩
  · rintro ⟨ds, hds, hP⟩
    exact ⟨d :: ds, .cons ((digit?_eq_some_iff hbase).mp hc) hds, hP⟩

theorem accumulate_cons {d : Nat} (hc : digit? base c = some d) :
    accumulate w base negative (signed negative n) (c :: cs) =
      if w.Holds (signed negative (n * base + d)) then
        accumulate w base negative (signed negative (n * base + d)) cs
      else .error (if negative then .tooSmall else .tooLarge) := by
  rw [accumulate, hc]
  simp only [signed_next]

theorem accumulate_cons_of_none (hc : digit? base c = none) (acc : Int) :
    accumulate w base negative acc (c :: cs) = .error .badDigit := by
  rw [accumulate, hc]

/-- Digits are read to their number if it is of the width. The numbers on the way are no farther from
zero than the last one, so the checks on the way say no more than a check at the end. -/
theorem accumulate_eq_ok_iff (hpos : 0 < base) (hbase : base ≤ 16)
    (hn : w.Holds (signed negative n)) :
    accumulate w base negative (signed negative n) cs = .ok z ↔
      ∃ ds, List.Forall₂ (IsDigit base) cs ds ∧ z = signed negative (shifted base n ds) ∧
        w.Holds z := by
  induction cs generalizing n with
  | nil =>
    rw [accumulate, Except.ok.injEq]
    constructor
    · rintro rfl
      exact ⟨[], .nil, rfl, hn⟩
    · rintro ⟨ds, hds, rfl, -⟩
      cases hds
      rfl
  | cons c cs ih =>
    cases hc : digit? base c with
    | none =>
      rw [accumulate_cons_of_none hc]
      refine iff_of_false nofun ?_
      rintro ⟨ds, hds, -⟩
      obtain ⟨d, -, hd, -⟩ := List.forall₂_cons_left_iff.mp hds
      exact not_isDigit hbase hc d hd
    | some d =>
      rw [accumulate_cons hc, exists_digits_cons hbase hc]
      split
      · next hnext => exact ih hnext
      · next hnext =>
        refine iff_of_false nofun ?_
        rintro ⟨ds, -, rfl, hz⟩
        exact hnext (holds_signed_of_le (le_shifted hpos _ ds) hz)

theorem accumulate_zero_eq_ok_iff (hpos : 0 < base) (hbase : base ≤ 16) (hcs : cs ≠ []) :
    accumulate w base negative 0 cs = .ok z ↔
      (∃ n, Magnitude base cs n ∧ z = signed negative n) ∧ w.Holds z := by
  have hzero : signed negative 0 = 0 := by cases negative <;> rfl
  have hn : w.Holds (signed negative 0) := by
    rw [hzero]
    cases w <;> decide
  rw [← hzero, accumulate_eq_ok_iff hpos hbase hn]
  constructor
  · rintro ⟨ds, hds, hz, hfits⟩
    exact ⟨⟨_, ⟨hcs, ds, hds, shifted_zero base ds⟩, hz⟩, hfits⟩
  · rintro ⟨⟨n, ⟨-, ds, hds, rfl⟩, hz⟩, hfits⟩
    exact ⟨ds, hds, by rw [shifted_zero, hz], hfits⟩

/-! ## Signs and marks -/

/-- Whether there is a minus sign in front, and what stands behind the sign. -/
def splitSign : List Char → Bool × List Char
  | '+' :: cs => (false, cs)
  | '-' :: cs => (true, cs)
  | cs => (false, cs)

theorem splitSign_of_ne (hplus : c ≠ '+') (hminus : c ≠ '-') :
    splitSign (c :: cs) = (false, c :: cs) := by
  unfold splitSign
  split <;> simp_all

theorem sign_cases (cs : List Char) :
    cs = [] ∨ (∃ rest, cs = '+' :: rest) ∨ (∃ rest, cs = '-' :: rest) ∨
      ∃ c rest, cs = c :: rest ∧ c ≠ '+' ∧ c ≠ '-' := by
  cases cs with
  | nil => exact .inl rfl
  | cons c rest =>
    by_cases hplus : c = '+'
    · exact .inr (.inl ⟨rest, by rw [hplus]⟩)
    by_cases hminus : c = '-'
    · exact .inr (.inr (.inl ⟨rest, by rw [hminus]⟩))
    · exact .inr (.inr (.inr ⟨c, rest, rfl, hplus, hminus⟩))

theorem Magnitude.ne_sign (hbase : base ≤ 16) (h : Magnitude base (c :: cs) n) :
    c ≠ '+' ∧ c ≠ '-' := by
  obtain ⟨-, ds, hds, -⟩ := h
  obtain ⟨d, -, hd, -⟩ := List.forall₂_cons_left_iff.mp hds
  have hvalue : digit? 16 c = some d :=
    ((digit?_eq_some_iff_lt hbase).mp ((digit?_eq_some_iff hbase).mpr hd)).2
  constructor <;> (rintro rfl; simp [digit?] at hvalue)

theorem inBase_iff (hbase : base ≤ 16) :
    InBase base cs z ↔
      ∃ n, Magnitude base (splitSign cs).2 n ∧ z = signed (splitSign cs).1 n := by
  constructor
  · rintro (⟨h⟩ | h | h)
    · cases cs with
      | nil => exact absurd rfl h.1
      | cons c cs =>
        obtain ⟨hplus, hminus⟩ := h.ne_sign hbase
        rw [splitSign_of_ne hplus hminus]
        exact ⟨_, h, rfl⟩
    · exact ⟨_, h, rfl⟩
    · exact ⟨_, h, rfl⟩
  · rintro ⟨n, h, rfl⟩
    rcases sign_cases cs with rfl | ⟨rest, rfl⟩ | ⟨rest, rfl⟩ | ⟨c, rest, rfl, hplus, hminus⟩
    · exact absurd rfl h.1
    · exact .plus h
    · exact .minus h
    · rw [splitSign_of_ne hplus hminus] at h ⊢
      exact .unsigned h

theorem readBase_of_nil (w : Width) (base : Nat) (h : (splitSign cs).2 = []) :
    ∃ fault, readBase w base cs = .error fault := by
  rcases sign_cases cs with rfl | ⟨rest, rfl⟩ | ⟨rest, rfl⟩ | ⟨c, rest, rfl, hplus, hminus⟩
  · exact ⟨_, rfl⟩
  · obtain rfl : rest = [] := h
    exact ⟨_, rfl⟩
  · obtain rfl : rest = [] := h
    exact ⟨_, rfl⟩
  · rw [splitSign_of_ne hplus hminus] at h
    cases h

theorem readBase_of_ne_nil (h : (splitSign cs).2 ≠ []) :
    readBase w base cs = accumulate w base (splitSign cs).1 0 (splitSign cs).2 := by
  rcases sign_cases cs with rfl | ⟨rest, rfl⟩ | ⟨rest, rfl⟩ | ⟨c, rest, rfl, hplus, hminus⟩
  · exact absurd rfl h
  · obtain ⟨d, rest, rfl⟩ := List.exists_cons_of_ne_nil h
    rfl
  · obtain ⟨d, rest, rfl⟩ := List.exists_cons_of_ne_nil h
    rfl
  · rw [splitSign_of_ne hplus hminus]
    unfold readBase
    split <;> simp_all

theorem readBase_eq_ok_iff (hpos : 0 < base) (hbase : base ≤ 16) :
    readBase w base cs = .ok z ↔ InBase base cs z ∧ w.Holds z := by
  rw [inBase_iff hbase]
  by_cases hcs : (splitSign cs).2 = []
  · obtain ⟨fault, hfault⟩ := readBase_of_nil w base hcs
    rw [hfault]
    refine iff_of_false nofun ?_
    rintro ⟨⟨n, hn, -⟩, -⟩
    exact hn.1 hcs
  · rw [readBase_of_ne_nil hcs]
    exact accumulate_zero_eq_ok_iff hpos hbase hcs

theorem not_inBase_of_mark {mark : Char} (hmark : digit? 10 mark = none) :
    ¬ InBase 10 ('0' :: mark :: cs) z := by
  rw [inBase_iff (by decide), splitSign_of_ne (by decide) (by decide)]
  rintro ⟨n, ⟨-, ds, hds, -⟩, -⟩
  obtain ⟨-, es, -, hes, rfl⟩ := List.forall₂_cons_left_iff.mp hds
  obtain ⟨d, -, hd, -⟩ := List.forall₂_cons_left_iff.mp hes
  exact not_isDigit (by decide) hmark d hd

theorem readChars_eq_ok_iff : readChars w cs = .ok z ↔ Denotes cs z ∧ w.Holds z := by
  unfold readChars
  split
  · next cs =>
    rw [readBase_eq_ok_iff (by decide) (by decide)]
    refine and_congr_left fun _ => ⟨.hexadecimal, fun h => ?_⟩
    cases h with
    | decimal h => exact absurd h (not_inBase_of_mark (by decide))
    | hexadecimal h => exact h
  · next cs =>
    rw [readBase_eq_ok_iff (by decide) (by decide)]
    refine and_congr_left fun _ => ⟨.binary, fun h => ?_⟩
    cases h with
    | decimal h => exact absurd h (not_inBase_of_mark (by decide))
    | binary h => exact h
  · next hhexadecimal hbinary =>
    rw [readBase_eq_ok_iff (by decide) (by decide)]
    refine and_congr_left fun _ => ⟨.decimal, fun h => ?_⟩
    cases h with
    | decimal h => exact h
    | hexadecimal => exact absurd rfl (hhexadecimal _)
    | binary => exact absurd rfl (hbinary _)

theorem read_eq_ok_iff {s : String} : read w s = .ok z ↔ Denotes s.toList z ∧ w.Holds z :=
  readChars_eq_ok_iff

/-! ## Decimal texts -/

theorem magnitude_toDigits (n : Nat) : Magnitude 10 (Nat.toDigits 10 n) n := by
  refine ⟨Nat.toDigits_ne_nil, ?_⟩
  induction n using Nat.strongRecOn with
  | ind n ih =>
    rcases Nat.lt_or_ge n 10 with hsmall | hlarge
    · refine ⟨[n], ?_, by simp⟩
      rw [Nat.toDigits_of_lt_base hsmall]
      exact .cons ⟨hsmall, .inl rfl⟩ .nil
    · have hlast : n % 10 < 10 := Nat.mod_lt n (by decide)
      obtain ⟨ds, hds, hn⟩ := ih (n / 10) (by omega)
      refine ⟨ds ++ [n % 10], ?_, ?_⟩
      · rw [Nat.toDigits_of_base_le (by decide) hlarge]
        exact List.rel_append hds (.cons ⟨hlast, .inl rfl⟩ .nil)
      · rw [List.reverse_append, List.reverse_singleton, List.singleton_append, Nat.ofDigits_cons,
          ← hn]
        omega

theorem denotes_toString (z : Int) : Denotes (toString z).toList z := by
  refine .decimal ?_
  rw [Int.toString_eq_repr, Int.repr_eq_if]
  split
  · next hz =>
    have hdigits := InBase.unsigned (magnitude_toDigits z.toNat)
    rwa [Int.toNat_of_nonneg hz, ← Nat.toList_repr] at hdigits
  · next hz =>
    have hdigits := InBase.minus (magnitude_toDigits (-z).toNat)
    rw [Int.toNat_of_nonneg (by omega), neg_neg, ← Nat.toList_repr] at hdigits
    rwa [String.toList_append]

end Numeral

/-! ## Leaves -/

theorem Context.put_inj {c : Context} {key : String} {v v' : Value}
    (h : c.put key v = c.put key v') : v = v' := by
  have hall := congrArg (fun d => d.all key) h
  simpa [Context.all_put_self] using hall

namespace Element

variable {s : State} {t : Token} {ts : List Token} {w : Width} {key : String} {z : Int}

theorem parse_integer_ok_iff (h : s.cursor.rest = t :: ts) :
    (leaf key (.integer w)).parse s = .ok (s.behind.put key (.int z)) ↔
      Numeral.Denotes t.value.toList z ∧ w.Holds z := by
  rw [← Numeral.read_eq_ok_iff, Reader.integer, parse_leaf_of_rest_cons h]
  cases Numeral.read w t.value with
  | error fault => simp
  | ok y =>
    simp only [Outcome.ok.injEq, Except.ok.injEq]
    constructor
    · intro hput
      have hvalue := Context.put_inj (congrArg State.context hput)
      exact Value.int.inj hvalue
    · rintro rfl
      rfl

theorem parse_integer_cases (key : String) (w : Width) (h : s.cursor.rest = t :: ts) :
    (∃ z, (leaf key (.integer w)).parse s = .ok (s.behind.put key (.int z))) ∨
      ∃ e, (leaf key (.integer w)).parse s = .failed e s.behind ∧ e.kind = .typeConversion := by
  rw [Reader.integer, parse_leaf_of_rest_cons h]
  cases Numeral.read w t.value with
  | error fault => exact .inr ⟨_, rfl, rfl⟩
  | ok z => exact .inl ⟨z, rfl⟩

end Element

/-- **Integer leaves read exactly the numerals in their range.** The long leaf reads the next token as
`z` if and only if the token denotes `z` and `z` has 64 bits. The other one does if and only if the long
leaf does and `z` has 32 bits. On every other token they fail behind this one token, with nothing
recorded, because it does not convert. The decimal text of an integer in range is read as that
integer. -/
theorem integers_read_numerals (key : String) {s : State} {t : Token} {ts : List Token}
    (h : s.cursor.rest = t :: ts) :
    (∀ z, (Element.long key).parse s = .ok (s.behind.put key (.int z)) ↔
      Numeral.Denotes t.value.toList z ∧ -2 ^ 63 ≤ z ∧ z < 2 ^ 63) ∧
    (∀ z, (Element.integer key).parse s = .ok (s.behind.put key (.int z)) ↔
      (Element.long key).parse s = .ok (s.behind.put key (.int z)) ∧ -2 ^ 31 ≤ z ∧ z < 2 ^ 31) ∧
    (∀ leaf ∈ [Element.long key, Element.integer key],
      (∃ z, leaf.parse s = .ok (s.behind.put key (.int z))) ∨
        ∃ e, leaf.parse s = .failed e s.behind ∧ e.kind = .typeConversion) ∧
    ∀ z : Int, t.value = toString z →
      (-2 ^ 63 ≤ z → z < 2 ^ 63 →
        (Element.long key).parse s = .ok (s.behind.put key (.int z))) ∧
      (-2 ^ 31 ≤ z → z < 2 ^ 31 →
        (Element.integer key).parse s = .ok (s.behind.put key (.int z))) := by
  have hlong (z : Int) : (Element.long key).parse s = .ok (s.behind.put key (.int z)) ↔
      Numeral.Denotes t.value.toList z ∧ -2 ^ 63 ≤ z ∧ z < 2 ^ 63 := by
    rw [← Width.holds_word64_iff]
    exact Element.parse_integer_ok_iff h
  have hshort (z : Int) : (Element.integer key).parse s = .ok (s.behind.put key (.int z)) ↔
      Numeral.Denotes t.value.toList z ∧ -2 ^ 31 ≤ z ∧ z < 2 ^ 31 := by
    rw [← Width.holds_word32_iff]
    exact Element.parse_integer_ok_iff h
  refine ⟨hlong, fun z => ?_, ?_, fun z ht => ⟨fun hlow hhigh => ?_, fun hlow hhigh => ?_⟩⟩
  · -- an integer of 32 bits is one of 64 bits
    rw [hlong, hshort, and_assoc]
    refine and_congr_right fun _ => ⟨fun hz => ⟨?_, hz⟩, And.right⟩
    omega
  · exact List.forall_mem_cons.mpr ⟨Element.parse_integer_cases key .word64 h,
      List.forall_mem_singleton.mpr (Element.parse_integer_cases key .word32 h)⟩
  · exact (hlong z).mpr ⟨ht ▸ Numeral.denotes_toString z, hlow, hhigh⟩
  · exact (hshort z).mpr ⟨ht ▸ Numeral.denotes_toString z, hlow, hhigh⟩

/-- An integer of 64 bits but not of 32, with the sign behind the mark of the base and a letter among
the digits; and the least integer of 32 bits as a decimal text. -/
theorem integers_read_numerals_least :
    let token (text : String) : Token := ⟨text, 2, 13⟩
    let state (text : String) : State :=
      ⟨{ Cursor.ofTokens ("k " ++ text) [⟨"k", 0, 1⟩, token text] with index := 1 },
        ⟨[("k", [.int 3])]⟩⟩
    let s := state "0x-8000000a"
    let u := state "-2147483648"
    s.cursor.rest = [token "0x-8000000a"] ∧ u.cursor.rest = [token "-2147483648"] ∧
      (Element.long "k").parse s = .ok (s.behind.put "k" (.int (-2147483658))) ∧
      (∃ e, (Element.integer "k").parse s = .failed e s.behind ∧ e.kind = .typeConversion) ∧
      (Element.integer "k").parse u = .ok (u.behind.put "k" (.int (-2147483648))) := by
  intro token state s u
  have hrest : s.cursor.rest = [token "0x-8000000a"] := rfl
  have hrest' : u.cursor.rest = [token "-2147483648"] := rfl
  obtain ⟨hlong, hshort, hcases, -⟩ := integers_read_numerals "k" hrest
  obtain ⟨-, -, -, hdecimal⟩ := integers_read_numerals "k" hrest'
  have hdenotes : Numeral.Denotes "0x-8000000a".toList (-2147483658) := by
    have hdigits : Numeral.Magnitude 16 ['8', '0', '0', '0', '0', '0', '0', 'a'] 2147483658 := by
      refine ⟨nofun, [8, 0, 0, 0, 0, 0, 0, 10], ?_, by decide⟩
      simp [Numeral.IsDigit]
    have htext : "0x-8000000a".toList = ['0', 'x', '-', '8', '0', '0', '0', '0', '0', '0', 'a'] := by
      decide
    rw [htext]
    exact .hexadecimal (.minus hdigits)
  have hread := (hlong (-2147483658)).mpr ⟨hdenotes, by decide, by decide⟩
  refine ⟨hrest, hrest', hread, ?_, (hdecimal (-2147483648) rfl).2 (by decide) (by decide)⟩
  rcases hcases _ (List.mem_cons_of_mem _ (List.mem_singleton_self _)) with ⟨z, hz⟩ | hfailed
  · -- what the short leaf read would be what the long one reads, which is out of range
    obtain ⟨hz, hlow, -⟩ := (hshort z).mp hz
    have hsame := congrArg State.context (Outcome.ok.inj (hz.symm.trans hread))
    cases Context.put_inj hsame
    exact absurd hlow (by decide)
  · exact hfailed

end ArgGrammar
