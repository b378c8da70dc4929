import ArgGrammar.Proofs.Places

/-!
# Where a step of completion goes on

A step looks ahead with trial parses, goes back to its start between them, and leaves new views
behind wherever flags are tried. None of this can be seen afterwards.

* `Resume.Apart`: two places to go on from lie at different positions.
* `Element.Parted`: the places of every step of an element lie apart. There is one lemma for each
  constructor, and `Element.Built.parted` for all grammars.
* `step_leaves_no_trace`: the cursor is where it was and shows what it showed, and the places to go on
  from lie apart, exist, and have nothing left but what was left at the start, in the same order.
-/

namespace ArgGrammar

/-- The two lie at different positions. -/
def Resume.Apart (r r' : Resume) : Prop := r.position ≠ r'.position

def Element.Parted (e : Element) : Prop := ∀ s : State, (e.step s).resumes.Pairwise Resume.Apart

namespace Resume

variable {rs : List Resume}

theorem pairwise_addTo (h : rs.Pairwise Apart) (r : Resume) : (addTo rs r).Pairwise Apart := by
  unfold addTo
  split
  · exact h
  · next hnew =>
    have hapart : ∀ a ∈ rs, a.Apart r := by
      intro a ha hsame
      apply hnew
      rw [List.any_eq_true]
      exact ⟨a, ha, by simpa using hsame⟩
    rw [List.pairwise_append]
    refine ⟨h, List.pairwise_singleton _ _, fun a ha b hb => ?_⟩
    obtain rfl := List.mem_singleton.mp hb
    exact hapart a ha

theorem pairwise_union (h : rs.Pairwise Apart) (more : List Resume) :
    (union rs more).Pairwise Apart := by
  induction more generalizing rs with
  | nil => exact h
  | cons r more ih => exact ih (pairwise_addTo h r)

end Resume

namespace Element

variable {e : Element} {es : List Element}

theorem pairwise_speculate (parse : State → Outcome) (complete : State → List String) (s : State) :
    (speculate parse complete s).resumes.Pairwise Resume.Apart := by
  unfold speculate
  dsimp only
  split
  · exact List.pairwise_singleton _ _
  · exact List.Pairwise.nil

-- What several steps find is put together by `union`, so it lies apart whatever each step finds.
theorem pairwise_stepFrom (e : Element) (c : Cursor) (rs : List Resume) :
    (stepFrom e c rs).resumes.Pairwise Resume.Apart := by
  have hfold : ∀ (rs : List Resume) (found : Step), found.resumes.Pairwise Resume.Apart →
      (rs.foldl (fun found r => found.merge (e.step ⟨found.cursor.restore r.position, r.context⟩))
        found).resumes.Pairwise Resume.Apart := by
    intro rs
    induction rs with
    | nil => exact fun _ h => h
    | cons r rs ih => exact fun found h => ih _ (Resume.pairwise_union h _)
  exact hfold rs (.nothing c) List.Pairwise.nil

theorem pairwise_thread (es : List Element) (c : Cursor) {rs : List Resume}
    (h : rs.Pairwise Resume.Apart) : (thread es c rs).resumes.Pairwise Resume.Apart := by
  induction es generalizing c rs with
  | nil => exact h
  | cons e es ih =>
    have hhere := pairwise_stepFrom e c rs
    rw [thread]
    dsimp only
    split
    · exact hhere
    · exact ih _ hhere

theorem pairwise_stepSeq (es : List Element) (s : State) :
    (stepSeq es s).resumes.Pairwise Resume.Apart := by
  have hthread := pairwise_thread es s.cursor
    (List.pairwise_singleton Resume.Apart ⟨s.cursor.position, s.context⟩)
  exact hthread.filter _

theorem Parted.optional (h : e.Parted) (default : Option Value) (weak : Bool) :
    (optional e default weak).Parted := by
  intro s
  show (stepOptional e default weak s).resumes.Pairwise Resume.Apart
  have hskip : ∀ r : Resume, [r].Pairwise Resume.Apart := List.pairwise_singleton _
  unfold stepOptional
  dsimp only
  split
  · split
    · split
      · exact h _
      · exact hskip _
    · split
      · exact Resume.pairwise_addTo (h _) _
      · exact h _
  · exact hskip _

theorem pairwise_stepFirst (h : ∀ e ∈ es, e.Parted) (start : Cursor.Position) (context : Context)
    (c : Cursor) : (stepFirst start context es c).resumes.Pairwise Resume.Apart := by
  induction es generalizing c with
  | nil => exact List.Pairwise.nil
  | cons e es ih =>
    rw [stepFirst]
    dsimp only
    split
    · exact ih (fun e' he' => h e' (by simp [he'])) _
    · exact h e (by simp) _

theorem Built.parted {raw : Bool} (h : e.Built raw) : e.Parted := by
  induction h with
  | none => exact pairwise_speculate _ _
  | markTrue key => exact pairwise_speculate _ _
  | token h =>
    obtain ⟨key, convert, complete, rfl, -⟩ := h.eq_leaf
    exact pairwise_speculate _ _
  | literal key value words => exact pairwise_speculate _ _
  | rest key => exact pairwise_speculate _ _
  | rawRest key _ => exact pairwise_speculate _ _
  | seq _ _ => exact pairwise_stepSeq _
  | optional default weak _ ih => exact ih.optional default weak
  | firstOf _ ih => exact fun s => pairwise_stepFirst ih _ _ _
  | times n _ _ => exact pairwise_stepSeq _
  | allOf _ _ _ => exact fun s => List.Pairwise.nil
  | onlyOne _ ih => exact ih
  | @flags f child _ _ _ _ _ _ =>
    intro s
    show (f.step child s).resumes.Pairwise Resume.Apart
    rw [Flags.resumes_step]
    exact pairwise_speculate _ _ s

theorem Built.lands_sublist {raw : Bool} (h : e.Built raw) :
    e.Lands fun a b => b.rest.Sublist a.rest := by
  apply h.builtWith.lands
  · exact fun a => .refl _
  · exact fun a b c hab hbc => hbc.trans hab
  · intro e s t he hs hparse _
    have hleads := he.built.advances s hs
    rw [hparse] at hleads
    exact hleads.cursor.rest

end Element

/-- **A step leaves no trace.** After a step of completion the line, the place and the tokens in view
are those of before, and older views have stayed. The places to go on from lie apart. Each of them is
an index of a view that exists; going there gets there, and finds some of the tokens that were left at
the start, in the same order. -/
theorem step_leaves_no_trace {e : Element} (he : e.Built true) {s : State} (hs : s.cursor.Valid) :
    (e.step s).cursor.raw = s.cursor.raw ∧ s.cursor.views <+: (e.step s).cursor.views ∧
    (e.step s).cursor.position = s.cursor.position ∧
    (e.step s).cursor.tokens = s.cursor.tokens ∧
    (e.step s).resumes.Pairwise (fun r r' => r.position ≠ r'.position) ∧
    ∀ r ∈ (e.step s).resumes,
      r.position.view < (e.step s).cursor.views.length ∧
      r.position.index ≤ ((e.step s).cursor.views.getD r.position.view []).length ∧
      ((e.step s).cursor.restore r.position).position = r.position ∧
      ((e.step s).cursor.restore r.position).rest.Sublist s.cursor.rest := by
  obtain ⟨hfollows, hposition, hresumes⟩ := he.lands_sublist s hs
  have hview : (e.step s).cursor.view = s.cursor.view :=
    congrArg Cursor.Position.view hposition
  refine ⟨hfollows.raw_eq, hfollows.views, hposition,
    Cursor.tokens_eq_of_views hs hfollows.views hview, he.parted s, fun r hr => ?_⟩
  obtain ⟨hplace, hsub⟩ := hresumes r hr
  refine ⟨hplace.view_lt, hplace.index_le, hplace.position_restore, ?_⟩
  rw [hplace.rest_restore]
  exact hsub

open Element in
/-- Flags hand `x` and `y` back into a new view. What follows may be skipped as a whole, or read `x`
and be skipped in part, so there are two places to go on from, both in that view. -/
theorem step_leaves_no_trace_flags :
    let f : Flags := { short := [('v', markTrue "v")] }
    let e := seq [f.around .none,
      optional (seq [string "a", optional (string "b") none true]) none true]
    let s : State :=
      ⟨.ofTokens "x -v y" [⟨"x", 0, 1⟩, ⟨"-v", 2, 4⟩, ⟨"y", 5, 6⟩], .empty⟩
    (e.step s).resumes.map (·.position) = [⟨1, 1⟩, ⟨1, 0⟩] ∧
      (e.step s).cursor.position = ⟨0, 0⟩ ∧ (e.step s).cursor.tokens = s.cursor.tokens ∧
      ∀ r ∈ (e.step s).resumes,
        ((e.step s).cursor.restore r.position).rest.Sublist s.cursor.rest := by
  intro f e s
  have he : e.Built true := by
    refine .seq ?_
    simp only [List.forall_mem_cons, List.not_mem_nil, false_implies, implies_true, and_true]
    refine ⟨.flags ?_ nofun .none, .optional _ _ (.seq ?_)⟩ <;>
      simp only [f, List.forall_mem_cons, List.not_mem_nil, false_implies, implies_true, and_true]
    · exact .markTrue "v"
    · exact ⟨.token (.string "a"), .optional _ _ (.token (.string "b"))⟩
  obtain ⟨-, -, hposition, htokens, -, hplaces⟩ :=
    step_leaves_no_trace he (s := s) (Cursor.valid_ofTokens _ _)
  exact ⟨by decide +kernel, hposition, htokens, fun r hr => (hplaces r hr).2.2.2⟩

end ArgGrammar
