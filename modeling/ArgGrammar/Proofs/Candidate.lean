import ArgGrammar.Proofs.Uniform

/-!
# What may stand in place of the last token

* `Outcome.Finished`: all input is read, or input ended where an argument is required.
* `Offers parse vs q`: behind the values `vs`, the value `q` lets the parse finish.
* `Passes parse vs ws`: whatever the last value is, the parse finishes or gets from `vs` to `ws`.
* `StepSound`, `Element.Sound`: all candidates of an element let it finish, and it passes to all the
  places from which completion goes on.
* `Element.Reads`: an element that reads one token if it gets one. Leaves for one token and literals
  of one word are such elements.

Soundness is about any states that show the same values before the last one, so it composes: places
in the line that is completed are places in the line that is parsed later.
-/

namespace ArgGrammar

/-! ## Finishing -/

/-- All input is read, or input ended where an argument is required. -/
inductive Outcome.Finished : Outcome → Prop where
  | ok {s : State} (hs : s.cursor.Valid) (h : s.cursor.rest = []) : Finished (.ok s)
  | missing {err : ParseError} {s : State} (h : err.kind = .missingRequiredArgument) :
      Finished (.failed err s)

/-- Without input the parse finishes. -/
def Ends (parse : State → Outcome) : Prop :=
  ∀ s : State, s.cursor.Valid → s.cursor.rest = [] → (parse s).Finished

/-- Behind the values `vs`, the value `q` lets the parse finish. -/
def Offers (parse : State → Outcome) (vs : List String) (q : String) : Prop :=
  ∀ s : State, s.cursor.Valid → s.cursor.rest.map (·.value) = vs ++ [q] → (parse s).Finished

/-- Whatever the last value is, the parse finishes or leaves the values `ws` of `vs`. -/
def Passes (parse : State → Outcome) (vs ws : List String) : Prop :=
  ∀ (q : String) (s : State), s.cursor.Valid → s.cursor.rest.map (·.value) = vs ++ [q] →
    (parse s).Finished ∨
      ∃ t, parse s = .ok t ∧ t.cursor.Valid ∧ t.cursor.rest.map (·.value) = ws ++ [q]

variable {f g : State → Outcome} {vs ws xs : List String} {q : String}

theorem Outcome.Finished.andThen {o : Outcome} (h : o.Finished) (hg : Ends g) :
    (o.andThen g).Finished := by
  cases h with
  | ok hs hrest => exact hg _ hs hrest
  | missing hkind => exact .missing hkind

theorem Ends.andThen (hf : Ends f) (hg : Ends g) : Ends fun s => (f s).andThen g :=
  fun s hs hrest => (hf s hs hrest).andThen hg

theorem Offers.andThen (h : Offers f vs q) (hg : Ends g) :
    Offers (fun s => (f s).andThen g) vs q :=
  fun s hs hrest => (h s hs hrest).andThen hg

theorem Passes.offers (h : Passes f vs ws) (h' : Offers g ws q) (hg : Ends g) :
    Offers (fun s => (f s).andThen g) vs q := by
  intro s hs hrest
  rcases h q s hs hrest with hfin | ⟨t, ht, hvalid, hleft⟩
  · exact hfin.andThen hg
  · simp only [ht]
    exact h' t hvalid hleft

theorem Passes.trans (h : Passes f vs ws) (h' : Passes g ws xs) (hg : Ends g) :
    Passes (fun s => (f s).andThen g) vs xs := by
  intro q s hs hrest
  rcases h q s hs hrest with hfin | ⟨t, ht, hvalid, hleft⟩
  · exact .inl (hfin.andThen hg)
  · simp only [ht]
    exact h' q t hvalid hleft

/-- A parse that reads nothing. -/
def Idles (parse : State → Outcome) : Prop :=
  ∀ s : State, ∃ t, parse s = .ok t ∧ t.cursor = s.cursor

theorem Idles.ends (h : Idles f) : Ends f := by
  intro s hs hrest
  obtain ⟨t, ht, hcursor⟩ := h s
  rw [ht]
  exact .ok (hcursor ▸ hs) (hcursor ▸ hrest)

theorem Idles.passes (h : Idles f) (vs : List String) : Passes f vs vs := by
  intro q s hs hrest
  obtain ⟨t, ht, hcursor⟩ := h s
  exact .inr ⟨t, ht, hcursor ▸ hs, hcursor ▸ hrest⟩

theorem idles_put (key : String) (v : Value) : Idles fun s => .ok (s.put key v) :=
  fun s => ⟨s.put key v, rfl, rfl⟩

/-! ## Steps -/

/-- The values before the last token. -/
def settled (ts : List Token) : List String := ts.dropLast.map (·.value)

theorem settled_cons (t : Token) {ts : List Token} (h : ts ≠ []) :
    settled (t :: ts) = t.value :: settled ts := by
  rw [settled, List.dropLast_cons_of_ne_nil h, List.map_cons, settled]

theorem length_settled (ts : List Token) : (settled ts).length = ts.length - 1 := by
  simp [settled]

/-- What a step of completion finds is right for the parse, as far as the tokens before the last one
tell. -/
structure StepSound (parse : State → Outcome) (s : State) (found : Step) : Prop where
  cursor : found.cursor = s.cursor
  candidates : ∀ q ∈ found.candidates, Offers parse (settled s.cursor.rest) q
  view : ∀ r ∈ found.resumes, r.position.view = s.cursor.view
  index : ∀ r ∈ found.resumes,
    s.cursor.index ≤ r.position.index ∧ r.position.index < s.cursor.tokens.length
  resumes : ∀ r ∈ found.resumes,
    Passes parse (settled s.cursor.rest) (settled (s.cursor.tokens.drop r.position.index))

/-- Completing an element offers nothing that parsing it refuses. -/
structure Element.Sound (e : Element) : Prop where
  advances : Advances e.parse
  ends : Ends e.parse
  offers : ∀ s : State, s.cursor.Valid → s.cursor.rest ≠ [] →
    ∀ q ∈ e.complete s, Offers e.parse (settled s.cursor.rest) q
  step : ∀ s : State, s.cursor.Valid → s.cursor.rest ≠ [] → StepSound e.parse s (e.step s)

/-- The parse moves in the view at hand. -/
def Within (parse : State → Outcome) : Prop :=
  ∀ s : State, (parse s).state.cursor = s.cursor.moveTo (parse s).state.cursor.index

theorem Within.restore (h : Within f) {s : State} (hs : s.cursor.Valid) :
    (f s).state.cursor.restore s.cursor.position = s.cursor := by
  have hsame : (f s).state.cursor.views = s.cursor.views := by
    rw [h s]
    rfl
  have hviews : s.cursor.views <+: (f s).state.cursor.views := hsame ▸ List.prefix_rfl
  rw [Cursor.restore_position hs hviews, h s]
  rfl

theorem stepSound_offer {s : State} {candidates : List String}
    (h : ∀ q ∈ candidates, Offers f (settled s.cursor.rest) q) :
    StepSound f s (.offer candidates s.cursor) := by
  refine ⟨rfl, h, ?_, ?_, ?_⟩ <;> intro r hr <;> exact absurd hr List.not_mem_nil

theorem stepSound_resume {s : State} {p : Cursor.Position} (context : Context)
    (hview : p.view = s.cursor.view) (hle : s.cursor.index ≤ p.index)
    (hlt : p.index < s.cursor.tokens.length)
    (h : Passes f (settled s.cursor.rest) (settled (s.cursor.tokens.drop p.index))) :
    StepSound f s (.resume ⟨p, context⟩ s.cursor) := by
  refine ⟨rfl, nofun, ?_, ?_, ?_⟩ <;> intro r hr <;> obtain rfl := List.mem_singleton.mp hr
  · exact hview
  · exact ⟨hle, hlt⟩
  · exact h

theorem stepSound_stay {s : State} (hrest : s.cursor.rest ≠ []) (context : Context)
    (h : Passes f (settled s.cursor.rest) (settled s.cursor.rest)) :
    StepSound f s (.resume ⟨s.cursor.position, context⟩ s.cursor) := by
  have hlt : s.cursor.index < s.cursor.tokens.length := by
    simpa [Cursor.rest] using hrest
  exact stepSound_resume context rfl (Nat.le_refl _) hlt h

theorem stepSound_speculate (ha : Advances f) (hw : Within f) {complete : State → List String}
    {s : State} (hs : s.cursor.Valid)
    (hoffers : ∀ q ∈ complete s, Offers f (settled s.cursor.rest) q)
    (hpasses : ∀ t, f s = .ok t → t.cursor.rest ≠ [] →
      Passes f (settled s.cursor.rest) (settled t.cursor.rest)) :
    StepSound f s (Element.speculate f complete s) := by
  have hback := hw.restore hs
  have hleads := ha s hs
  have hcursor := hw s
  unfold Element.speculate
  simp only [hback]
  split
  · next hgoing =>
    obtain ⟨hok, hnext⟩ := Bool.and_eq_true_iff.mp hgoing
    cases htrial : f s with
    | failed err t => simp [htrial, Outcome.isOk] at hok
    | ok t =>
      simp only [htrial, Outcome.state] at hleads hcursor hnext
      have hrest := (Cursor.hasNext_iff _).mp hnext
      have htokens : t.cursor.tokens = s.cursor.tokens := by
        rw [hcursor]
        rfl
      have hleft : s.cursor.tokens.drop t.cursor.index = t.cursor.rest := by
        rw [← htokens]
        rfl
      have hlt : t.cursor.index < t.cursor.tokens.length := by
        simpa [Cursor.hasNext] using hnext
      have hview : t.cursor.view = s.cursor.view := by
        rw [hcursor]
        rfl
      refine stepSound_resume _ hview hleads.cursor.index_le (htokens ▸ hlt) ?_
      show Passes f _ (settled (s.cursor.tokens.drop t.cursor.index))
      rw [hleft]
      exact hpasses t htrial hrest
  · exact stepSound_offer hoffers

/-! ## Elements for one token -/

/-- A next token with the value `v` is read. -/
def ReadsValue (parse : State → Outcome) (v : String) : Prop :=
  ∀ (s : State) (t : Token) (ts : List Token), s.cursor.rest = t :: ts → t.value = v →
    ∃ u, parse s = .ok u ∧ u.cursor = s.cursor.behind

theorem ReadsValue.offers (h : ReadsValue f q) : Offers f [] q := by
  intro s hs hrest
  obtain ⟨t, ts, ht, hq, hts⟩ := List.map_eq_cons_iff.mp hrest
  obtain rfl := List.map_eq_nil_iff.mp hts
  obtain ⟨u, hu, hcursor⟩ := h s t [] ht hq
  rw [hu]
  refine .ok ?_ ?_
  · rw [hcursor]
    exact hs.behind ht
  · rw [hcursor]
    exact Cursor.rest_behind ht

theorem ReadsValue.passes {v : String} (h : ReadsValue f v) (vs : List String) :
    Passes f (v :: vs) vs := by
  intro q s hs hrest
  obtain ⟨t, ts, ht, hv, hts⟩ := List.map_eq_cons_iff.mp hrest
  obtain ⟨u, hu, hcursor⟩ := h s t ts ht hv
  refine .inr ⟨u, hu, ?_, ?_⟩
  · rw [hcursor]
    exact hs.behind ht
  · rw [hcursor, Cursor.rest_behind ht]
    exact hts

namespace Element

/-- The element reads one token if it gets one, fails if it does not accept its value, and offers
only values that it accepts. -/
structure Reads (accepts : String → Bool) (e : Element) : Prop where
  step_eq : e.step = speculate e.parse e.complete
  ends : Ends e.parse
  cursor : ∀ {s : State} {t : Token} {ts : List Token}, s.cursor.rest = t :: ts →
    (e.parse s).state.cursor = s.cursor.behind
  isOk : ∀ {s : State} {t : Token} {ts : List Token}, s.cursor.rest = t :: ts →
    (e.parse s).isOk = accepts t.value
  complete : ∀ {s : State} {t : Token} {ts : List Token}, s.cursor.rest = t :: ts →
    ∀ q ∈ e.complete s, ts = [] ∧ accepts q = true
  idle : ∀ {s : State}, s.cursor.rest = [] → (e.parse s).state.cursor = s.cursor

theorem ends_optional {e : Element} {default : Option Value} {weak : Bool} :
    Ends (optional e default weak).parse := by
  intro s hs hrest
  have hnext : ¬ s.cursor.hasNext = true := by
    rw [Cursor.hasNext_iff]
    exact fun hne => hne hrest
  simp only [optional, ofStep, parseOptional, if_neg hnext]
  refine .ok ?_ ?_ <;> rw [recordDefault_cursor]
  · exact hs
  · exact hrest

namespace Reads

variable {accepts : String → Bool} {e : Element} {s : State} {t : Token} {ts : List Token}

theorem within (h : Reads accepts e) : Within e.parse := by
  intro s
  cases hrest : s.cursor.rest with
  | nil =>
    rw [h.idle hrest]
    rfl
  | cons t ts =>
    rw [h.cursor hrest]
    rfl

theorem readsValue (h : Reads accepts e) {v : String} (hv : accepts v = true) :
    ReadsValue e.parse v := by
  rintro s t ts hrest rfl
  have hok := h.isOk hrest
  have hcursor := h.cursor hrest
  rw [hv] at hok
  cases hparse : e.parse s with
  | ok u => exact ⟨u, rfl, by rwa [hparse] at hcursor⟩
  | failed err u =>
    rw [hparse] at hok
    cases hok

theorem refused (h : Reads accepts e) (hrest : s.cursor.rest = t :: ts)
    (ht : accepts t.value = false) :
    ∃ err u, e.parse s = .failed err u ∧ u.cursor = s.cursor.behind := by
  have hok := h.isOk hrest
  have hcursor := h.cursor hrest
  rw [ht] at hok
  cases hparse : e.parse s with
  | ok u =>
    rw [hparse] at hok
    cases hok
  | failed err u => exact ⟨err, u, rfl, by rwa [hparse] at hcursor⟩

theorem sound (h : Reads accepts e) (ha : Advances e.parse) : Sound e := by
  have hoffers : ∀ s : State, s.cursor.Valid → s.cursor.rest ≠ [] →
      ∀ q ∈ e.complete s, Offers e.parse (settled s.cursor.rest) q := by
    intro s _ hrest q hq
    obtain ⟨t, ts, ht⟩ := List.exists_cons_of_ne_nil hrest
    obtain ⟨rfl, haccepts⟩ := h.complete ht q hq
    rw [ht]
    exact (h.readsValue haccepts).offers
  refine ⟨ha, h.ends, hoffers, fun s hs hrest => ?_⟩
  rw [h.step_eq]
  refine stepSound_speculate ha h.within hs (hoffers s hs hrest) fun u hu hleft => ?_
  obtain ⟨t, ts, ht⟩ := List.exists_cons_of_ne_nil hrest
  have hcursor := h.cursor ht
  have hok := h.isOk ht
  simp only [hu, Outcome.state, Outcome.isOk] at hcursor hok
  rw [hcursor, Cursor.rest_behind ht] at hleft ⊢
  rw [ht, settled_cons t hleft]
  exact (h.readsValue hok.symm).passes _

/-! ## Elements that may be skipped -/

variable {default : Option Value} {weak : Bool}

theorem readsValue_optional (h : Reads accepts e) {v : String} (hv : accepts v = true) :
    ReadsValue (optional e default weak).parse v := by
  intro s t ts hrest ht
  obtain ⟨u, hu, hcursor⟩ := h.readsValue hv s t ts hrest ht
  exact ⟨u, optional_ok (Cursor.hasNext_of_rest_cons hrest) hu, hcursor⟩

theorem optional_refused (h : Reads accepts e) (hs : s.cursor.Valid)
    (hrest : s.cursor.rest = t :: ts) (ht : accepts t.value = false)
    (hskip : weak = true ∨ ts ≠ []) :
    ∃ u, (optional e default weak).parse s = .ok u ∧ u.cursor = s.cursor := by
  obtain ⟨err, u, hu, hcursor⟩ := h.refused hrest ht
  have hbehind : u.cursor.hasNext = true ↔ ts ≠ [] := by
    rw [Cursor.hasNext_iff, hcursor, Cursor.rest_behind hrest]
  have hback := h.within.restore hs
  rw [hu] at hback
  refine ⟨recordDefault e default (u.backTo s), ?_, ?_⟩
  · rw [optional_failed (Cursor.hasNext_of_rest_cons hrest) hu]
    exact if_pos (hskip.imp_right hbehind.mpr)
  · rw [recordDefault_cursor]
    exact hback

theorem passes_optional_refused (h : Reads accepts e) {v : String} (hv : accepts v = false)
    (vs : List String) : Passes (optional e default weak).parse (v :: vs) (v :: vs) := by
  intro q s hs hrest
  obtain ⟨t, ts, ht, rfl, hts⟩ := List.map_eq_cons_iff.mp hrest
  have hne : ts ≠ [] := by
    rintro rfl
    simp at hts
  obtain ⟨u, hu, hcursor⟩ := h.optional_refused hs ht hv (.inr hne)
  exact .inr ⟨u, hu, hcursor ▸ hs, hcursor ▸ hrest⟩

theorem passes_optional_weak (h : Reads accepts e) : Passes (optional e default true).parse [] [] := by
  intro q s hs hrest
  by_cases hq : accepts q = true
  · exact .inl ((h.readsValue_optional hq).offers s hs hrest)
  · obtain ⟨t, ts, ht, rfl, -⟩ := List.map_eq_cons_iff.mp hrest
    obtain ⟨u, hu, hcursor⟩ := h.optional_refused hs ht (Bool.eq_false_iff.mpr hq) (.inl rfl)
    exact .inr ⟨u, hu, hcursor ▸ hs, hcursor ▸ hrest⟩

/-- The step before the last token: it follows the branch that parsing takes. -/
theorem stepSound_optional_before (h : Reads accepts e) (hs : s.cursor.Valid)
    (hrest : s.cursor.rest = t :: ts) (hts : ts ≠ []) :
    StepSound (optional e default weak).parse s (stepOptional e default weak s) := by
  have hback := h.within.restore hs
  have hnext := Cursor.hasNext_of_rest_cons hrest
  have hbehind : s.cursor.behind.hasNext = true := by
    rw [Cursor.hasNext_iff, Cursor.rest_behind hrest]
    exact hts
  have hsettled : settled s.cursor.rest = t.value :: settled ts := by
    rw [hrest, settled_cons t hts]
  cases haccepts : accepts t.value with
  | true =>
    obtain ⟨u, hu, hcursor⟩ := h.readsValue haccepts s t ts hrest rfl
    have hstep : stepOptional e default weak s =
        .resume ⟨s.cursor.behind.position, u.context⟩ s.cursor := by
      simp only [hu, Outcome.state, hcursor] at hback
      simp only [stepOptional, if_pos hnext, h.step_eq, speculate, hu, Outcome.state, Outcome.isOk,
        hcursor, hback, hbehind, Bool.and_self, if_true]
    have hleft : s.cursor.tokens.drop s.cursor.behind.position.index = ts := Cursor.rest_behind hrest
    have hlt : s.cursor.behind.index < s.cursor.behind.tokens.length := by
      simpa [Cursor.hasNext] using hbehind
    rw [hstep]
    refine stepSound_resume _ rfl (Nat.le_succ _) hlt ?_
    rw [hleft, hsettled]
    exact (h.readsValue_optional haccepts).passes _
  | false =>
    obtain ⟨err, u, hu, hcursor⟩ := h.refused hrest haccepts
    have hstep : stepOptional e default weak s =
        .resume ⟨s.cursor.position, (recordDefault e default s).context⟩ s.cursor := by
      simp only [hu, Outcome.state, hcursor] at hback
      simp only [stepOptional, if_pos hnext, hu, Outcome.state, Outcome.isOk, hcursor, hback,
        if_pos hbehind, Bool.false_eq_true, if_false]
    rw [hstep]
    refine stepSound_stay (by simp [hrest]) _ ?_
    rw [hsettled]
    exact h.passes_optional_refused haccepts _

/-- The step at the last token: whether parsing will read it or skip the element depends on what it
becomes, and completion goes on both ways. -/
theorem stepSound_optional_last (h : Reads accepts e) (hs : s.cursor.Valid)
    (hrest : s.cursor.rest = [t]) :
    StepSound (optional e default weak).parse s (stepOptional e default weak s) := by
  have hback := h.within.restore hs
  have hnext := Cursor.hasNext_of_rest_cons hrest
  have hbehind : (e.parse s).state.cursor.hasNext = false := by
    rw [h.cursor hrest, Cursor.hasNext_eq_false_iff]
    exact Cursor.rest_behind hrest
  have hstay := Cursor.restore_self hs
  have hsettled : settled s.cursor.rest = [] := by rw [hrest]; rfl
  have hskip := stepSound_stay (by simp [hrest]) (recordDefault e default s).context
    (hsettled ▸ h.passes_optional_weak : Passes (optional e default true).parse _ _)
  have hcandidates : ∀ q ∈ e.complete s, Offers (optional e default weak).parse
      (settled s.cursor.rest) q := by
    intro q hq
    rw [hsettled]
    exact (h.readsValue_optional (h.complete hrest q hq).2).offers
  have hoffer := stepSound_offer hcandidates
  simp only [stepOptional, if_pos hnext, h.step_eq, speculate, hbehind, hback, Bool.and_false,
    Bool.false_eq_true, if_false]
  cases weak with
  | true => exact ⟨hstay, hcandidates, hskip.view, hskip.index, hskip.resumes⟩
  | false => exact ⟨hstay, hcandidates, hoffer.view, hoffer.index, hoffer.resumes⟩

theorem sound_optional (h : Reads accepts e) (ha : Advances e.parse) (default : Option Value)
    (weak : Bool) : Sound (optional e default weak) := by
  have hstep : ∀ s : State, s.cursor.Valid → s.cursor.rest ≠ [] →
      StepSound (optional e default weak).parse s (stepOptional e default weak s) := by
    intro s hs hrest
    obtain ⟨t, ts, ht⟩ := List.exists_cons_of_ne_nil hrest
    by_cases hts : ts = []
    · subst hts
      exact h.stepSound_optional_last hs ht
    · exact h.stepSound_optional_before hs ht hts
  refine ⟨advances_parseOptional default weak ha, ends_optional, fun s hs hrest => ?_, hstep⟩
  exact (hstep s hs hrest).candidates

end Reads

end Element

end ArgGrammar
