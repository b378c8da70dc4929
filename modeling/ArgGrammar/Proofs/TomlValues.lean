import ArgGrammar.Proofs.TomlStrings

/-!
# TOML values read back

A value that is written on a line of its own has the end of the line behind it.

* `Toml.Denotes text v`: where a line ends behind it, the text reads as the value `v`.
* `Toml.denotes_writeString`: what is written for a text.
* `Toml.denotes_atom`: any value without quotes and brackets; `Toml.denotes_truth` and
  `Toml.denotes_nat` are those of a truth value and of a natural number.
-/

namespace ArgGrammar.Toml

/-- Where a line ends behind it, the text reads as the value. It does not start with a blank. -/
structure Denotes (text : List Char) (v : Toml) : Prop where
  inked : ∀ c y, text = c :: y → isSpace c = false
  reads : ∀ n more, text.length ≤ n →
    readValue (n + 1) maxDepth (text ++ '\n' :: more) = some (v, '\n' :: more)

/-! ## Texts -/

theorem length_le_basicText (multi : Bool) (allowed run : Nat) (cs : List Char) :
    cs.length ≤ (basicText multi allowed run cs).length := by
  induction cs generalizing run with
  | nil => exact Nat.zero_le _
  | cons c cs ih =>
    rcases basicText_cases multi allowed run c cs with
      ⟨-, -, htext⟩ | ⟨hescape, htext⟩ | ⟨-, -, -, htext⟩
    · have := ih (run + 1)
      rw [htext, List.length_cons, List.length_cons]
      omega
    · obtain ⟨y, hy⟩ := escapeOf_head hescape []
      have hlen := congrArg List.length hy
      have := ih 0
      rw [List.append_nil, List.length_cons] at hlen
      rw [htext, List.length_append, List.length_cons]
      omega
    · have := ih 0
      rw [htext, List.length_cons, List.length_cons]
      omega

theorem Form.head_length {cs text : List Char} (h : Form cs text) :
    (∃ y, text = '"' :: y ∨ text = '\'' :: y) ∧ cs.length ≤ text.length := by
  have hbasic := length_le_basicText false 0 0 cs
  have hmulti := length_le_basicText true 2 0 cs
  cases h <;> simp [triple] <;> omega

theorem denotes_writeString (cs : List Char) :
    Denotes (writeString cs) (.str (String.ofList cs)) where
  inked c y h := by
    obtain ⟨⟨z, hz⟩, -⟩ := (form_writeString cs).head_length
    rw [h] at hz
    rcases hz with hz | hz <;> obtain ⟨rfl, -⟩ := List.cons.inj hz <;> rfl
  reads n more hn := readValue_writeString n maxDepth (by simp) (by simp)
    (Nat.le_trans (form_writeString cs).head_length.2 hn)

/-! ## Values without quotes -/

theorem takeAtom_append {text : List Char} (h : ∀ c ∈ text, isAtomChar c = true)
    (more : List Char) : takeAtom (text ++ '\n' :: more) = (text, '\n' :: more) := by
  have htake : (text ++ '\n' :: more).takeWhile isAtomChar = text := by
    rw [List.takeWhile_append_of_pos h]
    simp [isAtomChar]
  have hdrop : (text ++ '\n' :: more).dropWhile isAtomChar = '\n' :: more := by
    rw [List.dropWhile_append_of_pos h]
    simp [isAtomChar]
  rw [takeAtom, htake, hdrop]
  rfl

theorem denotes_atom {c : Char} {cs : List Char} {v : Toml} (hdouble : c ≠ '"') (hsingle : c ≠ '\'')
    (hall : (c :: cs).all isAtomChar = true) (hv : atom? (c :: cs) = some v) :
    Denotes (c :: cs) v where
  inked d y h := by
    obtain ⟨rfl, -⟩ := List.cons.inj h
    have hd := List.all_eq_true.mp hall c (by simp)
    simp only [isAtomChar, Bool.not_eq_true', Bool.or_eq_false_iff] at hd
    simp only [hd]
  reads n more _ := by
    have hchars := List.all_eq_true.mp hall
    have hc := hchars c (by simp)
    have hbracket : c ≠ '[' := by
      rintro rfl
      cases hc
    have hbrace : c.toNat ≠ 0x7B := by
      intro h
      simp [isAtomChar, h] at hc
    rw [List.cons_append, readValue]
    · rw [if_neg hbrace, ← List.cons_append, takeAtom_append hchars]
      simp [hv]
    all_goals simp_all

theorem denotes_truth (b : Bool) :
    Denotes (if b then ['t', 'r', 'u', 'e'] else ['f', 'a', 'l', 's', 'e']) (.bool b) := by
  cases b
  · exact denotes_atom (by decide) (by decide) (by decide) rfl
  · exact denotes_atom (by decide) (by decide) (by decide) rfl

/-! ## Natural numbers -/

theorem isAtomChar_of_isDigit {c : Char} (h : Decimal.isDigit c = true) : isAtomChar c = true := by
  have hdigits : ∀ n < 58, 48 ≤ n → isAtomChar (Char.ofNat n) = true := by decide
  simp only [Decimal.isDigit, Bool.and_eq_true, decide_eq_true_eq] at h
  have hc := hdigits c.toNat (by omega) h.1
  rwa [Char.ofNat_toNat] at hc

theorem groupedFrom_digits (isDigit : Char → Bool) {ds : List Char}
    (h : '_' ∉ ds) (before : Bool) : groupedFrom isDigit before ds = true := by
  induction ds generalizing before with
  | nil => rw [groupedFrom]
  | cons d ds ih =>
    obtain ⟨hne, hrest⟩ := List.ne_and_not_mem_of_not_mem_cons h
    have hd : d ≠ '_' := Ne.symm hne
    rw [groupedFrom]
    · exact ih hrest _
    all_goals simp_all

theorem isDigit_toDigits (n : Nat) : ∀ c ∈ Nat.toDigits 10 n, Decimal.isDigit c = true := by
  intro c hc
  have h := Nat.isDigit_of_mem_toDigits (by decide) (by decide) hc
  simp only [Char.isDigit, Bool.and_eq_true, decide_eq_true_eq] at h
  have hrange : 48 ≤ c.toNat ∧ c.toNat ≤ 57 := h
  simpa [Decimal.isDigit] using hrange

theorem digitsValue_toDigits (n : Nat) : Decimal.digitsValue (Nat.toDigits 10 n) = n := by
  have hfold := @Nat.ofDigitChars_ten_toDigits n
  rw [Nat.ofDigitChars_eq_foldl] at hfold
  simpa [Decimal.digitsValue, Nat.mul_comm] using hfold

theorem toDigits_head_ne_zero {n : Nat} (h : 0 < n) (ds : List Char) :
    Nat.toDigits 10 n ≠ '0' :: ds := by
  induction n using Nat.strongRecOn generalizing ds with
  | ind n ih =>
    by_cases hsmall : n < 10
    · have hdigit : ∀ n < 10, 0 < n → n.digitChar ≠ '0' := by decide
      rw [Nat.toDigits_of_lt_base hsmall]
      exact fun heq => hdigit n hsmall h (List.cons.inj heq).1
    · have hbase : 10 ≤ n := Nat.le_of_not_lt hsmall
      intro heq
      rw [Nat.toDigits_of_base_le (by decide) hbase] at heq
      match hfront : Nat.toDigits 10 (n / 10) with
      | [] => exact Nat.toDigits_ne_nil hfront
      | d :: front =>
        rw [hfront, List.cons_append] at heq
        obtain ⟨rfl, -⟩ := List.cons.inj heq
        exact ih (n / 10) (by omega) (by omega) front hfront

theorem noLeadingZero_toDigits (n : Nat) : noLeadingZero (Nat.toDigits 10 n) = true := by
  rcases Nat.eq_zero_or_pos n with rfl | hn
  · rfl
  · rw [noLeadingZero]
    exact fun _ y heq => toDigits_head_ne_zero hn _ heq

theorem integer?_toDigits {n : Nat} (h : n < Nat.pow 2 128) :
    integer? [] (Nat.toDigits 10 n) = some (.int n) := by
  have hdigits := isDigit_toDigits n
  have hunderscore : '_' ∉ Nat.toDigits 10 n := fun hmem => absurd (hdigits _ hmem) (by decide)
  have hungroup : ungroup (Nat.toDigits 10 n) = Nat.toDigits 10 n := by
    refine List.filter_eq_self.mpr fun c hc => ?_
    have : c ≠ '_' := by
      rintro rfl
      exact hunderscore hc
    simpa using this
  have hgrouped : grouped (isDigitOf 16) (Nat.toDigits 10 n) = true := by
    match hds : Nat.toDigits 10 n with
    | [] => rfl
    | d :: ds =>
      rw [hds] at hunderscore
      obtain ⟨hne, hrest⟩ := List.ne_and_not_mem_of_not_mem_cons hunderscore
      simp [grouped, groupedFrom_digits _ hrest, Ne.symm hne]
  have hall : (Nat.toDigits 10 n).all Decimal.isDigit = true := List.all_eq_true.mpr hdigits
  have hroom : -(Nat.pow 2 127 : Nat) ≤ (n : Int) ∧ (n : Int) < (Nat.pow 2 128 : Nat) :=
    ⟨by omega, Int.ofNat_lt.mpr h⟩
  have hsign : ¬([] : List Char) = ['-'] := by simp
  simp only [integer?, List.nil_append, noLeadingZero_toDigits, hgrouped, hungroup, hall,
    digitsValue_toDigits, ofInteger, Bool.and_self, if_true, if_neg hsign]
  rw [if_pos hroom]

theorem atom?_toDigits {n : Nat} (h : n < Nat.pow 2 128) :
    atom? (Nat.toDigits 10 n) = some (.int n) := by
  have hdigits := isDigit_toDigits n
  have hne : ∀ cs, (∃ c ∈ cs, Decimal.isDigit c = false) → Nat.toDigits 10 n ≠ cs := by
    rintro cs ⟨c, hc, hletter⟩ rfl
    simp [hdigits c hc] at hletter
  have hbehind : (Nat.toDigits 10 n).dropWhile Decimal.isDigit = [] := by
    rw [← List.append_nil (Nat.toDigits 10 n), List.dropWhile_append_of_pos hdigits]
    rfl
  rw [atom?, if_neg (hne _ ⟨'t', by simp, rfl⟩), if_neg (hne _ ⟨'f', by simp, rfl⟩), numeral?,
    if_neg (hne _ ⟨'i', by simp, rfl⟩), if_neg (hne _ ⟨'n', by simp, rfl⟩), decimal?, hbehind]
  · simp [Nat.toDigits_ne_nil, integer?_toDigits h]
  · exact fun cs => hne _ ⟨'x', by simp, rfl⟩
  · exact fun cs => hne _ ⟨'o', by simp, rfl⟩
  · exact fun cs => hne _ ⟨'b', by simp, rfl⟩
  · exact fun cs => hne _ ⟨'+', by simp, rfl⟩
  · exact fun cs => hne _ ⟨'-', by simp, rfl⟩

theorem denotes_nat {n : Nat} (h : n < Nat.pow 2 128) :
    Denotes (Nat.toDigits 10 n) (.int n) := by
  have hdigits := isDigit_toDigits n
  have hatom := atom?_toDigits h
  match hds : Nat.toDigits 10 n with
  | [] => exact absurd hds Nat.toDigits_ne_nil
  | d :: ds =>
    rw [hds] at hdigits hatom
    have hd := hdigits d (by simp)
    have hall : (d :: ds).all isAtomChar = true :=
      List.all_eq_true.mpr fun c hc => isAtomChar_of_isDigit (hdigits c hc)
    refine denotes_atom ?_ ?_ hall hatom
    · rintro rfl
      cases hd
    · rintro rfl
      cases hd

end ArgGrammar.Toml
