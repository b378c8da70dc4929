import ArgGrammar.Text.Lowercase

/-!
# Lower case is final

* `CaseRun.misses_caseRuns`: no lower case of a character of one run lies in another run, by a look
  at the tables. Runs whose images lie apart are told apart by their ends, so that only few of the
  characters are looked at one by one.
* `lowerChar_of_mem_lowerChar`: what a character becomes stays as it is.
* `lower_lower`: putting a text into lower case twice is putting it into lower case once.
-/

namespace ArgGrammar.Text

namespace CaseRun

/-- Whether the character `n` is in the run. -/
def holds (r : CaseRun) (n : Nat) : Bool :=
  r.first.ble n && n.ble r.last && ((n - r.first) % r.step).beq 0

/-- The lower case of the character `n` of the run. -/
def lowered (r : CaseRun) (n : Nat) : Nat := ((n : Int) + r.shift).toNat

/-- Whether no lower case of a character of the run `r` is in the run `q`. -/
def misses (r q : CaseRun) : Bool :=
  (r.lowered r.last).blt q.first || q.last.blt (r.lowered r.first) ||
    (List.range' r.first (r.last + 1 - r.first)).all fun n => !r.holds n || !q.holds (r.lowered n)

/-- Whether the lower case of the run lies on one side of the code points that are no characters. -/
def valid (r : CaseRun) : Bool :=
  (r.lowered r.last).blt 0xD800 ||
    (Nat.blt 0xDFFF (r.lowered r.first) && (r.lowered r.last).blt 0x110000)

/-- The capital `İ`, which has a lower case of two characters, as a run of its own. -/
def dotted : CaseRun := ⟨0x130, 0x130, 1, 0⟩

theorem misses_caseRuns :
    (caseRuns.all fun r => (dotted :: caseRuns).all fun q => r.misses q) = true := by
  decide +kernel

theorem valid_caseRuns : (caseRuns.all fun r => r.valid) = true := by
  decide +kernel

variable {r q : CaseRun} {n : Nat}

theorem holds_iff : r.holds n = true ↔ r.first ≤ n ∧ n ≤ r.last ∧ (n - r.first) % r.step = 0 := by
  simp [holds, and_assoc]

theorem lowered_le (h : r.holds n = true) :
    r.lowered r.first ≤ r.lowered n ∧ r.lowered n ≤ r.lowered r.last := by
  obtain ⟨hfirst, hlast, -⟩ := holds_iff.mp h
  unfold lowered
  omega

theorem holds_lowered (hr : r ∈ caseRuns) (hq : q ∈ dotted :: caseRuns) (h : r.holds n = true) :
    q.holds (r.lowered n) = false := by
  have hmisses := List.all_eq_true.mp (List.all_eq_true.mp misses_caseRuns r hr) q hq
  obtain ⟨hlow, hhigh⟩ := lowered_le h
  obtain ⟨hfirst, hlast, -⟩ := holds_iff.mp h
  simp only [misses, Bool.or_eq_true, Nat.blt_eq, List.all_eq_true, List.mem_range'_1] at hmisses
  apply Bool.eq_false_iff.mpr
  intro hholds
  have hinside := holds_iff.mp hholds
  rcases hmisses with (hbefore | hbehind) | hall
  · omega
  · omega
  · simpa [h, hholds] using hall n (by omega)

theorem toNat_lowered (hr : r ∈ caseRuns) (h : r.holds n = true) :
    (Char.ofNat (r.lowered n)).toNat = r.lowered n := by
  have hvalid := List.all_eq_true.mp valid_caseRuns r hr
  obtain ⟨hlow, hhigh⟩ := lowered_le h
  simp only [valid, Bool.or_eq_true, Bool.and_eq_true, Nat.blt_eq] at hvalid
  have hchar : (r.lowered n).isValidChar := by
    unfold Nat.isValidChar
    omega
  rw [Char.ofNat, dif_pos hchar]
  rfl

end CaseRun

open CaseRun

theorem lowerChar_cases (c : Char) :
    lowerChar c = [c] ∨ c = 'İ' ∨
      ∃ r ∈ caseRuns, r.holds c.toNat = true ∧ lowerChar c = [Char.ofNat (r.lowered c.toNat)] := by
  by_cases hdotted : c = 'İ'
  · exact .inr (.inl hdotted)
  rw [lowerChar, if_neg hdotted]
  split
  · next r hr =>
    have hlast : c.toNat ≤ r.last := by simpa using List.find?_some hr
    split
    · next hrun =>
      exact .inr (.inr ⟨r, List.mem_of_find?_eq_some hr, holds_iff.mpr ⟨hrun.1, hlast, hrun.2⟩, rfl⟩)
    · exact .inl rfl
  · exact .inl rfl

theorem lowerChar_of_holds {c : Char}
    (h : ((dotted :: caseRuns).all fun q => !q.holds c.toNat) = true) : lowerChar c = [c] := by
  have hnone : ∀ q ∈ dotted :: caseRuns, q.holds c.toNat = false := by
    intro q hq
    simpa using List.all_eq_true.mp h q hq
  rcases lowerChar_cases c with hc | rfl | ⟨r, hr, hholds, -⟩
  · exact hc
  · exact absurd (hnone dotted (by simp)) (by decide)
  · rw [hnone r (by simp [hr])] at hholds
    cases hholds

theorem lowerChar_of_mem_lowerChar {c d : Char} (h : d ∈ lowerChar c) : lowerChar d = [d] := by
  rcases lowerChar_cases c with hc | rfl | ⟨r, hr, hholds, hc⟩
  · rw [hc] at h
    obtain rfl := List.mem_singleton.mp h
    exact hc
  · rw [lowerChar, if_pos rfl, List.mem_cons, List.mem_singleton] at h
    rcases h with rfl | rfl
    · exact lowerChar_of_holds (by decide +kernel)
    · exact lowerChar_of_holds (by decide +kernel)
  · rw [hc] at h
    obtain rfl := List.mem_singleton.mp h
    apply lowerChar_of_holds
    rw [toNat_lowered hr hholds, List.all_eq_true]
    intro q hq
    rw [holds_lowered hr hq hholds]
    rfl

theorem lowerChar_of_mem_lowerAfter {d : Char} {before cs : List Char}
    (h : d ∈ lowerAfter before cs) : lowerChar d = [d] := by
  induction cs generalizing before with
  | nil => cases h
  | cons c cs ih =>
    rw [lowerAfter, List.mem_append] at h
    rcases h with hhead | htail
    · split at hhead
      · rw [List.mem_singleton] at hhead
        subst hhead
        split
        · exact lowerChar_of_holds (by decide +kernel)
        · exact lowerChar_of_holds (by decide +kernel)
      · exact lowerChar_of_mem_lowerChar hhead
    · exact ih htail

theorem lowerAfter_eq_self (before : List Char) {cs : List Char}
    (h : ∀ c ∈ cs, lowerChar c = [c]) : lowerAfter before cs = cs := by
  induction cs generalizing before with
  | nil => rfl
  | cons c cs ih =>
    have hsigma : c ≠ 'Σ' := by
      rintro rfl
      have hsmall : lowerChar 'Σ' = ['σ'] := by decide +kernel
      rw [h 'Σ' (by simp)] at hsmall
      exact absurd hsmall (by decide)
    rw [lowerAfter, if_neg hsigma, h c (by simp), ih _ fun c' hc' => h c' (by simp [hc'])]
    rfl

@[simp] theorem lower_lower (s : String) : lower (lower s) = lower s := by
  have hfinal : lowerAfter [] (lowerAfter [] s.toList) = lowerAfter [] s.toList :=
    lowerAfter_eq_self [] fun _ hc => lowerChar_of_mem_lowerAfter hc
  rw [lower, lower, String.toList_ofList, hfinal]

end ArgGrammar.Text
