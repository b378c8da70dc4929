import ArgGrammar.Proofs.Places

/-!
# Repetition makes progress

Repetition stops when the place stays the same. Flags that hand positional tokens back do so in a new
view, so that the place is another one even if nothing was read; this is why their element has to
take a token.

* `Element.Consuming`: the elements that take a token whenever they succeed; `Consuming.fewer`.
* `Element.Rounds`, `Element.Sweeps`: the loops of repetition, in parsing and in completion, with no
  bound on the number of their rounds.
* `rounds_parseAll`, `sweeps_stepAll`: an element that stays or takes a token brings these loops to an
  end before any bound on the rounds is met. `Flags.not_rounds`: flags around nothing do not.
* `allOf_progress`: a grammar whose unanchored flags stand around consuming elements is such an
  element.
-/

namespace ArgGrammar

open Cursor (Spot)

namespace Cursor.Spot

/-- Fewer tokens are left at `b` than at `a`. -/
def Fewer (a b : Spot) : Prop := b.rest.length < a.rest.length

/-- The place `b` is `a`, or fewer tokens are left there. -/
structure Progress (a b : Spot) : Prop where
  length_le : b.rest.length ≤ a.rest.length
  moved : b.position = a.position ∨ b.rest.length < a.rest.length

theorem Progress.refl (a : Spot) : Progress a a := ⟨Nat.le_refl _, .inl rfl⟩

theorem Fewer.progress {a b : Spot} (h : Fewer a b) : Progress a b := ⟨Nat.le_of_lt h, .inr h⟩

theorem Progress.trans {a b c : Spot} (hab : Progress a b) (hbc : Progress b c) : Progress a c := by
  refine ⟨Nat.le_trans hbc.length_le hab.length_le, ?_⟩
  rcases hbc.moved with hpos | hlt
  · rcases hab.moved with hpos' | hlt'
    · exact .inl (hpos.trans hpos')
    · exact .inr (Nat.lt_of_le_of_lt hbc.length_le hlt')
  · exact .inr (Nat.lt_of_lt_of_le hlt hab.length_le)

theorem steady_progress : Steady Progress where
  trans := Progress.trans
  forward {v i j ts} hle hj := by
    rcases Nat.eq_or_lt_of_le hle with rfl | hlt
    · exact .refl _
    · apply Fewer.progress
      show (ts.drop j).length < (ts.drop i).length
      rw [List.length_drop, List.length_drop]
      omega

end Cursor.Spot

open Cursor.Spot (Fewer Progress)

/-! ## Elements that take a token -/

/-- The elements that take a token whenever they succeed. -/
inductive Element.Consuming : Element → Prop where
  | token {e : Element} (h : TokenLeaf e) : Consuming e
  | rest (key : String) : Consuming (.rest key)
  | rawRest (key : String) : Consuming (.rawRest key)
  | literal (key : String) (value : Value) {words : List String} (h : words ≠ []) :
      Consuming (.literal key value words)
  | seq {es : List Element} (hes : ∀ e ∈ es, Built true e) {e : Element} (he : e ∈ es)
      (h : Consuming e) : Consuming (.seq es)
  | firstOf {es : List Element} (h : ∀ e ∈ es, Consuming e) : Consuming (.firstOf es)
  | times {n : Nat} (hn : 1 ≤ n) {e : Element} (h : Consuming e) : Consuming (.times n e)
  | onlyOne {e : Element} (h : Consuming e) : Consuming (.onlyOne e)
  | flags {f : Flags} {child : Element} (hshort : ∀ d ∈ f.short, Built true d.2)
      (hlong : ∀ d ∈ f.long, Built true d.2) (h : Consuming child) : Consuming (f.around child)

theorem State.Leads.length_le {s t : State} (h : s.Leads t) :
    t.cursor.rest.length ≤ s.cursor.rest.length := h.cursor.rest.length_le

theorem Along.andThen_advances {f g : State → Outcome} (hf : Along Fewer f) (hg : Advances g) :
    Along Fewer fun s => (f s).andThen g := by
  refine ⟨fun s hs => leads_andThen (hf.advances s hs) hg, fun {s t} hs hparse => ?_⟩
  cases hfirst : f s with
  | failed e u => simp [hfirst, Outcome.andThen] at hparse
  | ok u =>
    have hafter := hg u (hf.leads hs hfirst).cursor.valid
    simp only [hfirst, Outcome.andThen] at hparse
    rw [hparse] at hafter
    exact Nat.lt_of_le_of_lt hafter.length_le (hf.spot hs hfirst)

theorem Advances.andThen_along {f g : State → Outcome} (hf : Advances f) (hg : Along Fewer g) :
    Along Fewer fun s => (f s).andThen g := by
  refine ⟨fun s hs => leads_andThen (hf s hs) hg.advances, fun {s t} hs hparse => ?_⟩
  have hleads := hf s hs
  cases hfirst : f s with
  | failed e u => simp [hfirst, Outcome.andThen] at hparse
  | ok u =>
    rw [hfirst] at hleads
    simp only [hfirst, Outcome.andThen] at hparse
    exact Nat.lt_of_lt_of_le (hg.spot hleads.cursor.valid hparse) hleads.length_le

namespace Element

theorem fewer_behind {c : Cursor} {t : Token} {ts : List Token} (h : c.rest = t :: ts) :
    c.behind.rest.length < c.rest.length := by
  rw [Cursor.rest_behind h, h]
  exact Nat.lt_succ_self _

theorem fewer_toEnd {c : Cursor} (h : c.rest ≠ []) :
    ({ c with index := c.tokens.length } : Cursor).rest.length < c.rest.length := by
  rw [Cursor.rest_toEnd]
  exact List.length_pos_iff.mpr h

theorem fewer_leaf (key : String) {r : Reader}
    (hfollows : ∀ c : Cursor, c.Valid → c.rest ≠ [] → c.Follows (r.read c).2)
    (hr : ∀ c : Cursor, c.rest ≠ [] → (r.read c).2.rest.length < c.rest.length) :
    Along Fewer (leaf key r).parse := by
  refine ⟨advances_leaf key hfollows, fun {s t} _ hparse => ?_⟩
  simp only [leaf, ofTrial] at hparse
  split at hparse
  · next hnext =>
    have hread := hr s.cursor ((Cursor.hasNext_iff _).mp hnext)
    rcases hres : r.read s.cursor with ⟨_ | v, c⟩
    · simp [hres] at hparse
    · simp only [hres, Outcome.ok.injEq] at hparse hread
      subst hparse
      exact hread
  · cases hparse

theorem fewer_ofToken (convert : String → Except Complaint Value) (complete : String → List String)
    (c : Cursor) (hrest : c.rest ≠ []) :
    ((Reader.ofToken convert complete).read c).2.rest.length < c.rest.length := by
  obtain ⟨t, ts, ht⟩ := List.exists_cons_of_ne_nil hrest
  simp only [Reader.ofToken, Cursor.next, Cursor.next?_of_rest_cons ht]
  cases convert t.value <;> exact fewer_behind ht

theorem fewer_joined (c : Cursor) (hrest : c.rest ≠ []) :
    (Reader.joined.read c).2.rest.length < c.rest.length := by
  obtain ⟨t, ts, ht⟩ := List.exists_cons_of_ne_nil hrest
  simp only [Reader.joined, Cursor.next, Cursor.next?_of_rest_cons ht]
  exact fewer_toEnd hrest

theorem fewer_literal (key : String) (value : Value) {words : List String} (h : words ≠ []) :
    Along Fewer (literal key value words).parse := by
  refine ⟨advances_literal key value words, fun {s t} hs hparse => ?_⟩
  obtain ⟨word, words, rfl⟩ := List.exists_cons_of_ne_nil h
  simp only [literal, ofTrial, Literal.parseWords] at hparse
  cases hrest : s.cursor.rest with
  | nil => simp [Cursor.next?_of_rest_nil hrest, Outcome.andThen] at hparse
  | cons a as =>
    have hwords := advances_parseWords words s.behind (hs.behind hrest)
    have hlt : s.behind.cursor.rest.length < s.cursor.rest.length := fewer_behind hrest
    simp only [Cursor.next?_of_rest_cons hrest] at hparse
    split at hparse
    · change (Literal.parseWords words s.behind).andThen _ = _ at hparse
      cases hread : Literal.parseWords words s.behind with
      | failed e u => simp [hread, Outcome.andThen] at hparse
      | ok u =>
        rw [hread] at hparse hwords
        cases hparse
        exact Nat.lt_of_le_of_lt hwords.length_le hlt
    · simp [Outcome.andThen] at hparse

theorem fewer_parseSeq {es : List Element} (hes : ∀ e ∈ es, Advances e.parse) {e : Element}
    (he : e ∈ es) (h : Along Fewer e.parse) : Along Fewer (parseSeq es) := by
  induction es with
  | nil => cases he
  | cons e' es ih =>
    have hlater : ∀ e ∈ es, Advances e.parse := fun e he => hes e (by simp [he])
    rcases List.mem_cons.mp he with rfl | hin
    · exact h.andThen_advances (advances_parseSeq hlater)
    · exact (hes e' (by simp)).andThen_along (ih hlater hin)

end Element

namespace Flags

variable {f : Flags} {child : Element}

theorem Scans.length_le (hshort : ∀ d ∈ f.short, Advances d.2.parse)
    (hlong : ∀ d ∈ f.long, Advances d.2.parse) {s s' : State} {positional : List Token}
    (h : f.Scans s s' positional) (hs : s.cursor.Valid) :
    s'.cursor.rest.length + positional.length ≤ s.cursor.rest.length := by
  have hread : ∀ {parse : State → Outcome}, Advances parse → ∀ {s u : State} {a : Token}
      {ts : List Token}, s.cursor.Valid → s.cursor.rest = a :: ts → parse s.behind = .ok u →
      u.cursor.Valid ∧ u.cursor.rest.length < s.cursor.rest.length := by
    intro parse hparse s u a ts hs hrest hflag
    have hleads := hparse s.behind (hs.behind hrest)
    rw [hflag] at hleads
    exact ⟨hleads.cursor.valid, Nat.lt_of_le_of_lt hleads.length_le (Element.fewer_behind hrest)⟩
  induction h with
  | finished => exact Nat.le_refl _
  | stopped => exact Nat.le_refl _
  | @positional s _ _ _ _ _ hrest _ _ ih =>
    have hgo := ih (hs.behind hrest)
    have hlt : s.behind.cursor.rest.length < s.cursor.rest.length := Element.fewer_behind hrest
    rw [List.length_cons]
    omega
  | long hrest _ hflag _ ih =>
    obtain ⟨hvalid, hlt⟩ := hread (advances_parseLong hlong _ _ _) hs hrest hflag
    exact Nat.le_trans (ih hvalid) (Nat.le_of_lt hlt)
  | short hrest _ hflag _ ih =>
    obtain ⟨hvalid, hlt⟩ := hread (advances_parseGroup hshort _) hs hrest hflag
    exact Nat.le_trans (ih hvalid) (Nat.le_of_lt hlt)

theorem fewer_parse (hshort : ∀ d ∈ f.short, Advances d.2.parse)
    (hlong : ∀ d ∈ f.long, Advances d.2.parse) (h : Along Fewer child.parse) :
    Along Fewer (f.parse child) := by
  refine ⟨advances_parse hshort hlong h.advances, fun {s u} hs hparse => ?_⟩
  obtain ⟨s', positional, hscan, hends⟩ := parse_ok hparse
  have hlen := (scans_remaining hshort hlong hs hscan).length_le hshort hlong hs
  have hlead := (leads_scan hshort hlong s.cursor.remaining s hs).1
  rw [hscan] at hlead
  dsimp only [Outcome.state] at hlead
  rcases hends with ⟨-, hinner⟩ | ⟨-, t, hinner, hback⟩
  · exact Nat.lt_of_lt_of_le (h.spot hlead.cursor.valid hinner) hlead.length_le
  · have htaken : t.cursor.rest.length < positional.length := by
      have hfewer := h.spot (Cursor.valid_ofTokens _ _) hinner
      simpa only [Fewer, Cursor.onTokens, Cursor.rest_spot, Cursor.rest_ofTokens] using hfewer
    show u.cursor.rest.length < s.cursor.rest.length
    rcases hback with ⟨-, hcursor⟩ | ⟨-, hcursor⟩
    · rw [hcursor]
      omega
    · rw [hcursor, Cursor.rest_splice]
      omega

end Flags

theorem Element.Consuming.fewer {e : Element} (h : e.Consuming) : Along Fewer e.parse := by
  induction h with
  | token h =>
    obtain ⟨key, convert, complete, rfl, -⟩ := h.eq_leaf
    exact fewer_leaf key (follows_ofToken convert complete) (fewer_ofToken convert complete)
  | rest key => exact fewer_leaf key follows_joined fewer_joined
  | rawRest key => exact fewer_leaf key (fun c hc _ => .toEnd hc) fun c hc => fewer_toEnd hc
  | literal key value h => exact fewer_literal key value h
  | seq hes he _ ih => exact fewer_parseSeq (fun e he' => (hes e he').advances) he ih
  | firstOf _ ih => exact along_firstOf ih
  | times hn _ ih =>
    refine fewer_parseSeq (fun e' he' => ?_) (List.mem_replicate.mpr ⟨by omega, rfl⟩) ih
    obtain rfl := List.eq_of_mem_replicate he'
    exact ih.advances
  | onlyOne _ ih => exact along_onlyOne ih
  | flags hshort hlong _ ih =>
    exact Flags.fewer_parse (fun d hd => (hshort d hd).advances) (fun d hd => (hlong d hd).advances)
      ih

/-! ## Elements that stay or take a token -/

/-- Unanchored flags stand around an element that takes a token. -/
def Flags.Paced (f : Flags) (child : Element) : Prop := f.anchored = false → child.Consuming

theorem Element.BuiltWith.along_progress {e : Element} (h : e.BuiltWith Flags.Paced) :
    Along Progress e.parse := by
  apply h.along Cursor.Spot.steady_progress
  intro f child hpaced hanchored hshort hlong _ s s' t positional hs hscan hinner _ view
  have hsub := (Flags.leads_scan hshort hlong s.cursor.remaining s hs).2
  rw [hscan] at hsub
  have htaken := (hpaced hanchored).fewer.spot (Cursor.valid_ofTokens _ _) hinner
  simp only [Fewer, Cursor.onTokens, Cursor.rest_spot, Cursor.rest_ofTokens] at htaken
  exact Fewer.progress (Nat.lt_of_lt_of_le htaken hsub.length_le)

theorem Element.BuiltWith.lands_progress {e : Element} (h : e.BuiltWith Flags.Paced) :
    e.Lands Progress :=
  h.lands Progress.refl (fun _ _ _ => Progress.trans)
    fun he hs hparse _ => he.along_progress.spot hs hparse

/-! ## Rounds -/

namespace Element

/-- Running the element again and again from `s`, while input is left and the place changes, takes
`k` runs and ends with `o`. -/
inductive Rounds (e : Element) : State → Nat → Outcome → Prop where
  | finished {s : State} (hnext : s.cursor.hasNext = false) : Rounds e s 0 (.ok s)
  | stayed {s t : State} (hnext : s.cursor.hasNext = true) (hparse : e.parse s = .ok t)
      (hpos : t.cursor.position = s.cursor.position) : Rounds e s 1 (.ok t)
  | failed {s t : State} {err : ParseError} (hnext : s.cursor.hasNext = true)
      (hparse : e.parse s = .failed err t) : Rounds e s 1 (.failed err t)
  | again {s t : State} {k : Nat} {o : Outcome} (hnext : s.cursor.hasNext = true)
      (hparse : e.parse s = .ok t) (hpos : t.cursor.position ≠ s.cursor.position)
      (hrounds : Rounds e t k o) : Rounds e s (k + 1) o

/-- Taking steps of the element from all the places `rs`, then from the new places behind them, and
so on until no place is new, takes `k` rounds and ends with the candidates and the cursor `run`. -/
inductive Sweeps (e : Element) :
    List Cursor.Position → Cursor → List Resume → Nat → List String × Cursor → Prop where
  | finished (seen : List Cursor.Position) (c : Cursor) : Sweeps e seen c [] 0 ([], c)
  | again {seen : List Cursor.Position} {c : Cursor} {rs fresh : List Resume} {k : Nat}
      {run : List String × Cursor} (hrs : rs ≠ [])
      (hfresh : fresh = (stepFrom e c rs).resumes.filter (·.position ∉ seen))
      (hsweeps : Sweeps e (seen ++ fresh.map (·.position)) (stepFrom e c rs).cursor fresh k run) :
      Sweeps e seen c rs (k + 1) ((stepFrom e c rs).candidates ++ run.1, run.2)

variable {e : Element}

/-- Each round but the last takes a token, so the bound on the rounds is never met. -/
theorem rounds_parseAll (he : Along Progress e.parse) (n : Nat) {s : State} (hs : s.cursor.Valid)
    (hn : s.cursor.rest.length ≤ n) :
    ∃ k ≤ s.cursor.rest.length, Rounds e s k (parseAll e n s) := by
  induction n generalizing s with
  | zero =>
    have hrest : s.cursor.rest = [] := List.length_eq_zero_iff.mp (Nat.le_zero.mp hn)
    exact ⟨0, Nat.zero_le _, .finished ((Cursor.hasNext_eq_false_iff _).mpr hrest)⟩
  | succ n ih =>
    rw [parseAll]
    split
    · next hnext =>
      have hone : 1 ≤ s.cursor.rest.length :=
        List.length_pos_iff.mpr ((Cursor.hasNext_iff _).mp hnext)
      cases hparse : e.parse s with
      | failed err t => exact ⟨1, hone, .failed hnext hparse⟩
      | ok t =>
        dsimp only
        split
        · next hpos => exact ⟨1, hone, .stayed hnext hparse hpos⟩
        · next hpos =>
          have hlt : t.cursor.rest.length < s.cursor.rest.length :=
            (he.spot hs hparse).moved.resolve_left hpos
          obtain ⟨k, hk, hrounds⟩ := ih (he.leads hs hparse).cursor.valid (by omega)
          exact ⟨k + 1, by omega, .again hnext hparse hpos hrounds⟩
    · next hnext => exact ⟨0, Nat.zero_le _, .finished (by simpa using hnext)⟩

/-- If fewer than `m` tokens are left at all known places, there are at most `m` rounds: the places
that are followed next are new, so fewer tokens are left there. -/
theorem sweeps_stepAll (he : e.Lands Progress) {m n : Nat} (hmn : m ≤ n)
    {seen : List Cursor.Position} {c : Cursor} (hc : c.Valid) {rs : List Resume}
    (hrs : ∀ r ∈ rs, c.Holds r.position ∧ r.position ∈ seen ∧
      (c.spotAt r.position).rest.length < m) :
    ∃ k ≤ m, Sweeps e seen c rs k (stepAll e n seen c rs) := by
  induction m generalizing n seen c rs with
  | zero =>
    obtain rfl : rs = [] := List.eq_nil_iff_forall_not_mem.mpr fun r hr =>
      Nat.not_lt_zero _ (hrs r hr).2.2
    refine ⟨0, Nat.le_refl _, ?_⟩
    cases n <;> exact .finished seen c
  | succ m ih =>
    obtain ⟨n, rfl⟩ : ∃ n', n = n' + 1 := ⟨n - 1, by omega⟩
    rw [stepAll]
    split
    · next hnone =>
      obtain rfl := List.isEmpty_iff.mp hnone
      exact ⟨0, Nat.zero_le _, .finished seen c⟩
    · next hsome =>
      have hhere := reaches_stepFrom he hc fun r hr => (hrs r hr).1
      dsimp only
      generalize hfresh : List.filter _ (stepFrom e c rs).resumes = fresh
      have hnew : ∀ r ∈ fresh, (stepFrom e c rs).cursor.Holds r.position ∧
          r.position ∈ seen ++ fresh.map (·.position) ∧
          ((stepFrom e c rs).cursor.spotAt r.position).rest.length < m := by
        intro r' hr'
        have hmem := hr'
        rw [← hfresh, List.mem_filter, decide_eq_true_eq] at hmem
        obtain ⟨hplace, r, hr, hspot⟩ := hhere.resumes r' hmem.1
        obtain ⟨-, hseen, hlt⟩ := hrs r hr
        have hmoved : r'.position ≠ r.position := fun hsame => hmem.2 (hsame ▸ hseen)
        have hfewer := hspot.moved.resolve_left hmoved
        refine ⟨hplace, ?_, by omega⟩
        exact List.mem_append_right _ (List.mem_map.mpr ⟨r', hr', rfl⟩)
      obtain ⟨k, hk, hsweeps⟩ := ih (n := n) (by omega) hhere.grown.valid hnew
      refine ⟨k + 1, by omega, .again (by simpa using hsome) hfresh.symm hsweeps⟩

end Element

namespace Flags

variable {f : Flags}

theorem scan_positional (hanchored : f.anchored = false) {n : Nat} {s : State}
    (hn : s.cursor.rest.length ≤ n)
    (hwords : ∀ a ∈ s.cursor.rest, FlagWord.ofText a.value = .positional) :
    ∃ s', f.scan n s = (.ok s', s.cursor.rest) ∧ s'.cursor.views = s.cursor.views := by
  induction n generalizing s with
  | zero =>
    rw [List.length_eq_zero_iff.mp (Nat.le_zero.mp hn)]
    exact ⟨s, rfl, rfl⟩
  | succ n ih =>
    cases hrest : s.cursor.rest with
    | nil => exact ⟨s, scan_of_rest_nil _ hrest, rfl⟩
    | cons a ts =>
      rw [hrest] at hn hwords
      have hbehind : s.behind.cursor.rest = ts := Cursor.rest_behind hrest
      rw [List.length_cons] at hn
      obtain ⟨s', hscan, hviews⟩ := ih (s := s.behind) (by rw [hbehind]; omega)
        (by rw [hbehind]; exact fun b hb => hwords b (by simp [hb]))
      rw [hbehind] at hscan
      refine ⟨s', ?_, hviews⟩
      simp only [scan_of_rest_cons n hrest, hwords a (by simp), hanchored, Bool.false_eq_true,
        if_false, hscan]

/-- Unanchored flags that stand around nothing hand positional tokens back into one new view after
another: their repetition has no end. -/
theorem not_rounds (hanchored : f.anchored = false) {s : State} (hs : s.cursor.Valid)
    (hrest : s.cursor.rest ≠ [])
    (hwords : ∀ a ∈ s.cursor.rest, FlagWord.ofText a.value = .positional) (k : Nat) (o : Outcome) :
    ¬ Element.Rounds (f.around .none) s k o := by
  intro hrounds
  have hmoves : ∀ {s : State}, s.cursor.Valid → s.cursor.rest ≠ [] →
      (∀ a ∈ s.cursor.rest, FlagWord.ofText a.value = .positional) →
      ∃ t : State, f.parse .none s = .ok t ∧ t.cursor.Valid ∧ t.cursor.rest = s.cursor.rest ∧
        t.cursor.position ≠ s.cursor.position := by
    intro s hs hrest hwords
    obtain ⟨s', hscan, hviews⟩ :=
      scan_positional hanchored (Nat.le_of_eq (Cursor.remaining_eq s.cursor).symm) hwords
    refine ⟨_, parse_none hanchored hscan hrest, Cursor.valid_splice _ _ _,
      Cursor.rest_splice _ _ _, fun hsame => ?_⟩
    have hview : s'.cursor.views.length = s.cursor.view := congrArg Cursor.Position.view hsame
    have hlt := hs.view_lt
    rw [hviews] at hview
    omega
  induction hrounds with
  | finished hnext => exact hrest ((Cursor.hasNext_eq_false_iff _).mp hnext)
  | stayed _ hparse hpos =>
    obtain ⟨t, ht, -, -, hmoved⟩ := hmoves hs hrest hwords
    cases ht.symm.trans hparse
    exact hmoved hpos
  | failed _ hparse =>
    obtain ⟨t, ht, -⟩ := hmoves hs hrest hwords
    cases ht.symm.trans hparse
  | again _ hparse _ _ ih =>
    obtain ⟨t, ht, hvalid, hleft, -⟩ := hmoves hs hrest hwords
    cases ht.symm.trans hparse
    exact ih hvalid (hleft ▸ hrest) (hleft ▸ hwords)

end Flags

open Element in
/-- **Progress.** Let every unanchored flags element of a grammar, at any depth and also in the values
of flags, stand around a consuming element. A parse that succeeds then stays where it started, or
fewer tokens are left; the same holds of every place at which completion goes on. With `n` tokens
left, repetition therefore runs the element at most `n` times, and completing it takes at most
`n + 1` rounds. -/
theorem allOf_progress {e : Element} (he : e.BuiltWith Flags.Paced) (patience : Nat) {s : State}
    (hs : s.cursor.Valid) :
    (∀ t, e.parse s = .ok t →
      t.cursor.position = s.cursor.position ∨ t.cursor.remaining < s.cursor.remaining) ∧
    (∀ r ∈ (e.step s).resumes, r.position = s.cursor.position ∨
      ((e.step s).cursor.restore r.position).remaining < s.cursor.remaining) ∧
    (∃ k ≤ s.cursor.remaining, Rounds e s k ((allOf e patience).parse s)) ∧
    ∃ k ≤ s.cursor.remaining + 1, ∃ candidates cursor,
      Sweeps e [s.cursor.position] s.cursor [⟨s.cursor.position, s.context⟩] k
        (candidates, cursor) ∧
      (allOf e patience).step s = .offer (distinct candidates) (cursor.restore s.cursor.position) := by
  simp only [Cursor.remaining_eq]
  refine ⟨fun t ht => (he.along_progress.spot hs ht).moved, fun r hr => ?_, ?_, ?_⟩
  · obtain ⟨hplace, hspot⟩ := (he.lands_progress s hs).resumes r hr
    rw [hplace.rest_restore]
    exact hspot.moved
  · exact rounds_parseAll he.along_progress _ hs (by rw [Cursor.remaining_eq]; omega)
  · have hstart : ∀ r ∈ [(⟨s.cursor.position, s.context⟩ : Resume)], s.cursor.Holds r.position ∧
        r.position ∈ [s.cursor.position] ∧
        (s.cursor.spotAt r.position).rest.length < s.cursor.rest.length + 1 := by
      intro r hr
      obtain rfl := List.mem_singleton.mp hr
      exact ⟨hs.holds, by simp, Nat.lt_succ_self _⟩
    obtain ⟨k, hk, hsweeps⟩ := sweeps_stepAll he.lands_progress
      (by rw [Cursor.remaining_eq]; omega : _ ≤ s.cursor.remaining + 1 + patience) hs hstart
    exact ⟨k, hk, _, _, hsweeps, rfl⟩

open Element in
/-- Flags around a text: the first run reads `a` and the flag, and hands `b` back into a new view,
where the second run reads it. -/
theorem allOf_progress_flags :
    let e := ({ short := [('q', integer "q")] } : Flags).around (string "k")
    let s : State := ⟨.ofTokens "a -q 1 b" [⟨"a", 0, 1⟩, ⟨"-q", 2, 4⟩, ⟨"1", 5, 6⟩, ⟨"b", 7, 8⟩], .empty⟩
    (e.parse s).state.cursor.remaining < s.cursor.remaining ∧
    (∃ k ≤ 4, Rounds e s k ((allOf e 0).parse s)) ∧
    ((allOf e 0).parse s).state.context.all "k" = [.text "a", .text "b"] := by
  intro e s
  have he : e.BuiltWith Flags.Paced := by
    refine .flags (fun _ => .token (.string "k")) ?_ nofun (.token (.string "k"))
    simp only [List.forall_mem_cons, List.not_mem_nil, false_implies, implies_true, and_true]
    exact .token (.integer "q")
  obtain ⟨hparse, -, hrounds, -⟩ := allOf_progress he 0 (s := s) (Cursor.valid_ofTokens _ _)
  have hmoved : (e.parse s).state.cursor.position ≠ s.cursor.position := by decide +kernel
  exact ⟨(hparse _ rfl).resolve_left hmoved, hrounds, by decide +kernel⟩

end ArgGrammar
