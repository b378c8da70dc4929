import ArgGrammar.Proofs.Grammar

/-!
# A scan for flags, round by round

* `Flags.Round f s ps u`: a round leads from `s` to `u` and collects `ps`. `scan_succ_ok`: what the
  first round of a scan can be.
* `Flags.scan_add`: a scan that was stopped after some rounds can be taken up again.
* `Flags.scan_of_le`: rounds beyond the tokens that are left change nothing.
* `Flags.Meets f s ps u t`: when the scan of `s` comes to read `t`, it is in the state `u` and has
  collected `ps`. `meets_of_mem`: what is collected is met before.
-/

namespace ArgGrammar

theorem State.Leads.rest_ne_nil {s u : State} (h : s.Leads u) (hleft : u.cursor.rest ≠ []) :
    s.cursor.rest ≠ [] := by
  intro hnil
  have hsub := h.cursor.rest
  rw [hnil] at hsub
  exact hleft (List.sublist_nil.mp hsub)

theorem Advances.leads {parse : State → Outcome} (h : Advances parse) {s u : State}
    (hs : s.cursor.Valid) (hparse : parse s = .ok u) : s.Leads u := by
  have hleads := h s hs
  rwa [hparse] at hleads

namespace Flags

variable {f : Flags} {s u : State} {ps : List Token}

/-! ## One round -/

/-- A round that reads a word in `s` and ends in `u`, with the tokens that it collects. -/
inductive Round (f : Flags) (s : State) : List Token → State → Prop where
  | positional {a : Token} {ts : List Token} (hanchored : f.anchored = false)
      (hrest : s.cursor.rest = a :: ts) (hword : FlagWord.ofText a.value = .positional) :
      Round f s [a] s.behind
  | long {a : Token} {ts : List Token} {name : String} {inline : Option String} {u : State}
      (hrest : s.cursor.rest = a :: ts) (hword : FlagWord.ofText a.value = .long name inline)
      (hflag : f.parseLong name inline a s.behind = .ok u) : Round f s [] u
  | short {a : Token} {ts : List Token} {group : List Char} {u : State}
      (hrest : s.cursor.rest = a :: ts) (hword : FlagWord.ofText a.value = .short group)
      (hflag : f.parseGroup group s.behind = .ok u) : Round f s [] u

/-- The scan stops in `s`: nothing is left, or the first positional token is next and the flags are
anchored. -/
def Stops (f : Flags) (s : State) : Prop :=
  ∀ a ts, s.cursor.rest = a :: ts → f.anchored = true ∧ FlagWord.ofText a.value = .positional

theorem Stops.of_unanchored (hanchored : f.anchored = false) (h : f.Stops s) :
    s.cursor.rest = [] := by
  cases hrest : s.cursor.rest with
  | nil => rfl
  | cons a ts => exact absurd (h a ts hrest).1 (by simp [hanchored])

theorem Round.scan (h : f.Round s ps u) (n : Nat) :
    f.scan (n + 1) s = ((f.scan n u).1, ps ++ (f.scan n u).2) := by
  cases h with
  | positional hanchored hrest hword =>
    rw [scan_of_rest_cons n hrest, hword]
    simp only [hanchored, Bool.false_eq_true, if_false]
    rfl
  | long hrest hword hflag =>
    rw [scan_of_rest_cons n hrest, hword]
    simp only [hflag, scanAfter]
    rfl
  | short hrest hword hflag =>
    rw [scan_of_rest_cons n hrest, hword]
    simp only [hflag, scanAfter]
    rfl

theorem Stops.scan (h : f.Stops s) (n : Nat) : f.scan n s = (.ok s, []) := by
  cases n with
  | zero => rfl
  | succ n =>
    cases hrest : s.cursor.rest with
    | nil => exact scan_of_rest_nil _ hrest
    | cons a ts =>
      obtain ⟨hanchored, hword⟩ := h a ts hrest
      rw [scan_of_rest_cons n hrest, hword]
      simp only [hanchored, if_true]

/-- A scan that succeeds stops at once or starts with a round. -/
theorem scan_succ_ok {n : Nat} (h : f.scan (n + 1) s = (.ok u, ps)) :
    f.Stops s ∧ u = s ∧ ps = [] ∨
      ∃ qs v rs, f.Round s qs v ∧ f.scan n v = (.ok u, rs) ∧ ps = qs ++ rs := by
  have hafter : ∀ o, f.scanAfter n o = (.ok u, ps) → ∃ v, o = .ok v ∧ f.scan n v = (.ok u, ps) := by
    intro o ho
    cases o with
    | ok v => exact ⟨v, rfl, ho⟩
    | failed e v => cases ho
  cases hrest : s.cursor.rest with
  | nil =>
    rw [scan_of_rest_nil _ hrest] at h
    cases h
    exact .inl ⟨fun a ts hcons => by simp [hrest] at hcons, rfl, rfl⟩
  | cons a ts =>
    rw [scan_of_rest_cons n hrest] at h
    split at h
    · next hword =>
      split at h
      · next hanchored =>
        cases h
        refine .inl ⟨fun b us hcons => ?_, rfl, rfl⟩
        obtain ⟨rfl, -⟩ := List.cons.inj (hrest.symm.trans hcons)
        exact ⟨hanchored, hword⟩
      · next hanchored =>
        rw [Prod.ext_iff] at h
        obtain ⟨hout, rfl⟩ := h
        exact .inr ⟨[a], s.behind, (f.scan n s.behind).2,
          .positional (Bool.eq_false_iff.mpr hanchored) hrest hword, Prod.ext hout rfl, rfl⟩
    · next hword =>
      obtain ⟨v, hflag, hscan⟩ := hafter _ h
      exact .inr ⟨[], v, ps, .long hrest hword hflag, hscan, rfl⟩
    · next hword =>
      obtain ⟨v, hflag, hscan⟩ := hafter _ h
      exact .inr ⟨[], v, ps, .short hrest hword hflag, hscan, rfl⟩

theorem Round.exists_cons (h : f.Round s ps u) : ∃ a ts, s.cursor.rest = a :: ts := by
  cases h with
  | positional _ hrest _ => exact ⟨_, _, hrest⟩
  | long hrest _ _ => exact ⟨_, _, hrest⟩
  | short hrest _ _ => exact ⟨_, _, hrest⟩

variable (hshort : ∀ d ∈ f.short, Advances d.2.parse) (hlong : ∀ d ∈ f.long, Advances d.2.parse)

include hshort hlong in
theorem Round.leads_behind (hs : s.cursor.Valid) (h : f.Round s ps u) : s.behind.Leads u := by
  cases h with
  | positional _ hrest _ => exact .refl (hs.behind hrest)
  | @long a ts name inline _ hrest _ hflag =>
    exact (advances_parseLong hlong name inline a).leads (hs.behind hrest) hflag
  | @short a ts group _ hrest _ hflag =>
    exact (advances_parseGroup hshort group).leads (hs.behind hrest) hflag

include hshort hlong in
theorem Round.leads (hs : s.cursor.Valid) (h : f.Round s ps u) : s.Leads u := by
  obtain ⟨a, ts, hrest⟩ := h.exists_cons
  exact (State.leads_behind hs hrest).trans (h.leads_behind hshort hlong hs)

include hshort hlong in
theorem Round.length_lt (hs : s.cursor.Valid) (h : f.Round s ps u) :
    u.cursor.rest.length < s.cursor.rest.length := by
  obtain ⟨a, ts, hrest⟩ := h.exists_cons
  have hle := (h.leads_behind hshort hlong hs).cursor.rest.length_le
  rw [State.behind, Cursor.rest_behind hrest] at hle
  rw [hrest]
  exact Nat.lt_succ_of_le hle

/-! ## Several rounds -/

theorem scan_add {n : Nat} (h : f.scan n s = (.ok u, ps)) (m : Nat) :
    f.scan (n + m) s = ((f.scan m u).1, ps ++ (f.scan m u).2) := by
  induction n generalizing s ps with
  | zero =>
    cases h
    rw [Nat.zero_add]
    rfl
  | succ n ih =>
    rcases scan_succ_ok h with ⟨hstops, rfl, rfl⟩ | ⟨qs, v, rs, hround, hscan, rfl⟩
    · rw [hstops.scan, hstops.scan]
      rfl
    · rw [Nat.add_right_comm, hround.scan, ih hscan, List.append_assoc]

include hshort hlong in
/-- Each round reads a token at least, so as many rounds as there are tokens are enough. -/
theorem scan_succ (hs : s.cursor.Valid) {n : Nat} (hn : s.cursor.rest.length ≤ n) :
    f.scan (n + 1) s = f.scan n s := by
  induction n generalizing s with
  | zero =>
    have hrest := List.eq_nil_of_length_eq_zero (Nat.le_zero.mp hn)
    rw [scan_of_rest_nil _ hrest, scan_of_rest_nil _ hrest]
  | succ n ih =>
    cases hrest : s.cursor.rest with
    | nil => rw [scan_of_rest_nil _ hrest, scan_of_rest_nil _ hrest]
    | cons a ts =>
      have hbehind : s.behind.cursor.Valid := hs.behind hrest
      have hts : s.behind.cursor.rest.length ≤ n := by
        rw [hrest] at hn
        rw [State.behind, Cursor.rest_behind hrest]
        exact Nat.le_of_succ_le_succ hn
      have hafter : ∀ o : Outcome, s.behind.Leads o.state → f.scanAfter (n + 1) o = f.scanAfter n o := by
        intro o ho
        cases o with
        | ok v => exact ih ho.cursor.valid (Nat.le_trans ho.cursor.rest.length_le hts)
        | failed e v => rfl
      rw [scan_of_rest_cons (n + 1) hrest, scan_of_rest_cons n hrest, ih hbehind hts]
      split
      · rfl
      · exact hafter _ (advances_parseLong hlong _ _ _ _ hbehind)
      · exact hafter _ (advances_parseGroup hshort _ _ hbehind)

include hshort hlong in
theorem scan_of_le (hs : s.cursor.Valid) {n m : Nat} (hn : s.cursor.rest.length ≤ n)
    (hm : s.cursor.rest.length ≤ m) : f.scan n s = f.scan m s := by
  have henough : ∀ k, s.cursor.rest.length ≤ k → f.scan k s = f.scan s.cursor.rest.length s := by
    intro k hk
    induction hk with
    | refl => rfl
    | step hle ih => exact (scan_succ hshort hlong hs hle).trans ih
  rw [henough n hn, henough m hm]

include hshort hlong in
theorem scan_leads (hs : s.cursor.Valid) {n : Nat} (h : f.scan n s = (.ok u, ps)) : s.Leads u := by
  have hleads := (leads_scan hshort hlong n s hs).1
  rwa [h] at hleads

include hshort hlong in
theorem rounds_le (hs : s.cursor.Valid) {n : Nat} (h : f.scan n s = (.ok u, ps))
    (hgoes : ¬ f.Stops u) : n + u.cursor.rest.length ≤ s.cursor.rest.length := by
  induction n generalizing s ps with
  | zero =>
    cases h
    exact Nat.le_of_eq (Nat.zero_add _)
  | succ n ih =>
    rcases scan_succ_ok h with ⟨hstops, rfl, -⟩ | ⟨qs, v, rs, hround, hscan, -⟩
    · exact absurd hstops hgoes
    · have hless := hround.length_lt hshort hlong hs
      have hlater := ih (hround.leads hshort hlong hs).cursor.valid hscan
      omega

include hshort hlong in
theorem exists_remaining (hs : s.cursor.Valid) {n : Nat} (h : f.scan n s = (.ok u, ps))
    (hgoes : ¬ f.Stops u) : ∃ m, s.cursor.remaining = n + (m + 1) := by
  have hle := rounds_le hshort hlong hs h hgoes
  have hleft : u.cursor.rest ≠ [] := fun hnil => hgoes fun a ts hcons => by simp [hnil] at hcons
  have hpos := List.length_pos_iff.mpr hleft
  rw [← Cursor.remaining_eq s.cursor] at hle
  exact ⟨s.cursor.remaining - n - 1, by omega⟩

/-! ## The tokens that a scan reads -/

/-- When the scan of `s` comes to read `t`, it is in the state `u` and has collected `ps`. -/
def Meets (f : Flags) (s : State) (ps : List Token) (u : State) (t : Token) : Prop :=
  (∃ n, f.scan n s = (.ok u, ps)) ∧ u.cursor.rest.head? = some t

theorem meets_of_rest_cons {t : Token} {ts : List Token} (h : s.cursor.rest = t :: ts) :
    f.Meets s [] s t :=
  ⟨⟨0, rfl⟩, by rw [h]; rfl⟩

theorem Round.meets {qs rs : List Token} {v w : State} {t : Token} (h : f.Round s qs v)
    (hmeets : f.Meets v rs w t) : f.Meets s (qs ++ rs) w t := by
  obtain ⟨⟨n, hscan⟩, hhead⟩ := hmeets
  exact ⟨⟨n + 1, by rw [h.scan, hscan]⟩, hhead⟩

theorem meets_of_mem {n : Nat} {t : Token} (h : f.scan n s = (.ok u, ps)) (ht : t ∈ ps) :
    ∃ qs v, f.Meets s qs v t ∧ FlagWord.ofText t.value = .positional := by
  induction n generalizing s ps with
  | zero => cases h; cases ht
  | succ n ih =>
    rcases scan_succ_ok h with ⟨-, -, rfl⟩ | ⟨qs, v, rs, hround, hscan, rfl⟩
    · cases ht
    · rcases List.mem_append.mp ht with hfirst | hlater
      · cases hround with
        | positional _ hrest hword =>
          obtain rfl := List.mem_singleton.mp hfirst
          exact ⟨[], s, meets_of_rest_cons hrest, hword⟩
        | long _ _ _ => cases hfirst
        | short _ _ _ => cases hfirst
      · obtain ⟨rs', w, hmeets, hword⟩ := ih hscan hlater
        exact ⟨qs ++ rs', w, hround.meets hmeets, hword⟩

end Flags

end ArgGrammar
