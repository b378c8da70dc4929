import ArgGrammar.Proofs.Frame

/-!
# Candidates do not depend on what is recorded

Only `onlyOne` looks at recorded values. Without it, completing in two contexts goes through the same
places and offers the same candidates; the contexts that are carried to those places may differ.

* `Element.Unlimited`: the elements made without `onlyOne`.
* `Step.Level a b`: steps with the same candidates and the same places to go on from.
* `Element.Blind e`: parsing and completing `e` in two contexts goes through the same places.
* `Unlimited.blind`: one lemma for each constructor, put together.
-/

namespace ArgGrammar

/-- The elements made with the constructors of this library, without `onlyOne`. -/
inductive Element.Unlimited : Element → Prop where
  | none : Unlimited .none
  | markTrue (key : String) : Unlimited (.markTrue key)
  | token {e : Element} (h : TokenLeaf e) : Unlimited e
  | literal (key : String) (value : Value) (words : List String) :
      Unlimited (.literal key value words)
  | rest (key : String) : Unlimited (.rest key)
  | rawRest (key : String) : Unlimited (.rawRest key)
  | seq {es : List Element} (h : ∀ e ∈ es, Unlimited e) : Unlimited (.seq es)
  | optional {e : Element} (default : Option Value) (weak : Bool) (h : Unlimited e) :
      Unlimited (.optional e default weak)
  | firstOf {es : List Element} (h : ∀ e ∈ es, Unlimited e) : Unlimited (.firstOf es)
  | times (n : Nat) {e : Element} (h : Unlimited e) : Unlimited (.times n e)
  | allOf (patience : Nat) {e : Element} (h : Unlimited e) : Unlimited (.allOf e patience)
  | flags {f : Flags} {child : Element} (hshort : ∀ d ∈ f.short, Unlimited d.2)
      (hlong : ∀ d ∈ f.long, Unlimited d.2) (h : Unlimited child) : Unlimited (f.around child)

theorem Element.Unlimited.built {e : Element} (h : e.Unlimited) : e.Built true := by
  induction h with
  | none => exact .none
  | markTrue key => exact .markTrue key
  | token h => exact .token h
  | literal key value words => exact .literal key value words
  | rest key => exact .rest key
  | rawRest key => exact .rawRest key rfl
  | seq _ ih => exact .seq ih
  | optional default weak _ ih => exact .optional default weak ih
  | firstOf _ ih => exact .firstOf ih
  | times n _ ih => exact .times n ih
  | allOf n _ ih => exact .allOf n ih
  | flags _ _ _ hshort hlong hchild => exact .flags hshort hlong hchild

/-! ## Places and steps -/

/-- The places to go on from. -/
def Resume.places (rs : List Resume) : List Cursor.Position := rs.map (·.position)

namespace Resume

theorem places_addTo (rs : List Resume) (r : Resume) :
    places (addTo rs r) =
      if r.position ∈ places rs then places rs else places rs ++ [r.position] := by
  have hany : (rs.any (·.position = r.position)) = true ↔ r.position ∈ places rs := by
    simp [places]
  unfold addTo
  split
  · next h => rw [if_pos (hany.mp h)]
  · next h =>
    rw [if_neg (mt hany.mpr h)]
    simp [places]

theorem places_union (rs more : List Resume) :
    places (union rs more) =
      (places more).foldl (fun ps p => if p ∈ ps then ps else ps ++ [p]) (places rs) := by
  induction more generalizing rs with
  | nil => rfl
  | cons r more ih =>
    have hrest := ih (addTo rs r)
    rw [places_addTo] at hrest
    exact hrest

theorem places_filter (rs : List Resume) (keep : Cursor.Position → Bool) :
    places (rs.filter (keep ·.position)) = (places rs).filter keep := by
  rw [places, places, List.filter_map]
  rfl

theorem isEmpty_eq {rs rs' : List Resume} (h : places rs = places rs') :
    rs.isEmpty = rs'.isEmpty := by
  simpa [places] using congrArg List.isEmpty h

end Resume

open Resume (places)

/-- Steps with the same candidates, and the same places to go on from. -/
structure Step.Level (a b : Step) : Prop where
  candidates : a.candidates = b.candidates
  places : places a.resumes = places b.resumes
  cursor : a.cursor = b.cursor
  valid : a.cursor.Valid

/-- Parsing and completing go through the same places, whatever is recorded. -/
structure Element.Blind (e : Element) : Prop where
  parse : Framing false e.parse
  complete {s t : State} (h : s.Framed false [] t) : e.complete s = e.complete t
  step {s t : State} (h : s.Framed false [] t) : (e.step s).Level (e.step t)

theorem State.framed_of_valid {c : Cursor} (hc : c.Valid) (x y : Context) :
    State.Framed false [] ⟨c, x⟩ ⟨c, y⟩ :=
  ⟨hc, (Cursor.under_nil c).symm, nofun⟩

theorem State.Framed.cursor_eq {recorded : Bool} {s t : State} (h : s.Framed recorded [] t) :
    t.cursor = s.cursor := by
  rw [h.cursor, Cursor.under_nil]

variable {s t : State}

namespace Step

theorem level_nothing {c : Cursor} (hc : c.Valid) : (nothing c).Level (nothing c) :=
  ⟨rfl, rfl, rfl, hc⟩

theorem level_resume {c : Cursor} (hc : c.Valid) (p : Cursor.Position) (x y : Context) :
    (resume ⟨p, x⟩ c).Level (resume ⟨p, y⟩ c) :=
  ⟨rfl, rfl, rfl, hc⟩

theorem Level.merge {a a' b b' : Step} (ha : a.Level a') (hb : b.Level b') :
    (a.merge b).Level (a'.merge b') where
  candidates := by simp only [Step.merge, ha.candidates, hb.candidates]
  places := by simp only [Step.merge, Resume.places_union, ha.places, hb.places]
  cursor := hb.cursor
  valid := hb.valid

end Step

namespace Element

variable {e : Element} {es : List Element}

/-! ## Trials -/

theorem level_speculate {parse : State → Outcome} {complete : State → List String}
    (hparse : Framing false parse)
    (hcomplete : ∀ {s t : State}, s.Framed false [] t → complete s = complete t)
    (h : s.Framed false [] t) : (speculate parse complete s).Level (speculate parse complete t) := by
  have htrial := hparse [] s t h
  have hvalid := htrial.state.valid.restore s.cursor.position
  simp only [speculate, htrial.isOk, htrial.state.cursor_eq, h.cursor_eq]
  split
  · exact Step.level_resume hvalid _ _ _
  · exact ⟨hcomplete (State.framed_of_valid hvalid _ _), rfl, rfl, hvalid⟩

theorem blind_ofTrial (key : Option String) {parse : State → Outcome}
    {complete : State → List String} (hparse : Framing false parse)
    (hcomplete : ∀ {s t : State}, s.Framed false [] t → complete s = complete t) :
    Blind (.ofTrial key parse complete) :=
  ⟨hparse, hcomplete, level_speculate hparse hcomplete⟩

theorem blind_ofStep (key : Option String) {parse : State → Outcome} {halts : State → Bool}
    {step : State → Step} (hparse : Framing false parse)
    (hstep : ∀ {s t : State}, s.Framed false [] t → (step s).Level (step t)) :
    Blind (.ofStep key parse halts step) :=
  ⟨hparse, fun h => (hstep h).candidates, hstep⟩

theorem blind_leaf (key : String) {r : Reader}
    (hr : ∀ (before : List Token) (c : Cursor), c.Valid → c.rest ≠ [] →
      ReadFramed before (r.read c) (r.read (c.under before))) : (leaf key r).Blind := by
  refine blind_ofTrial _ (framing_leaf key hr) fun h => ?_
  rw [h.cursor_eq]

theorem blind_tokenLeaf (h : e.TokenLeaf) : e.Blind := by
  obtain ⟨key, convert, complete, rfl, -⟩ := h.eq_leaf
  exact blind_leaf key (readFramed_ofToken convert complete)

theorem blind_literal (key : String) (value : Value) (words : List String) :
    (literal key value words).Blind := by
  refine blind_ofTrial _ (framing_literal key value words) fun h => ?_
  rw [h.cursor_eq]

/-! ## One after another -/

theorem level_stepFrom (he : e.Blind) {c : Cursor} (hc : c.Valid) {rs rs' : List Resume}
    (hrs : places rs = places rs') : (stepFrom e c rs).Level (stepFrom e c rs') := by
  have hfold : ∀ (rs rs' : List Resume) (found found' : Step), places rs = places rs' →
      found.Level found' →
      (rs.foldl (fun found r => found.merge (e.step ⟨found.cursor.restore r.position, r.context⟩))
        found).Level
      (rs'.foldl (fun found r => found.merge (e.step ⟨found.cursor.restore r.position, r.context⟩))
        found') := by
    intro rs
    induction rs with
    | nil =>
      intro rs' found found' hrs hfound
      obtain rfl : rs' = [] := List.map_eq_nil_iff.mp hrs.symm
      exact hfound
    | cons r rs ih =>
      intro rs' found found' hrs hfound
      obtain ⟨r', rs', rfl, hr, hrs⟩ := List.map_eq_cons_iff.mp hrs.symm
      refine ih rs' _ _ hrs.symm (hfound.merge ?_)
      rw [← hfound.cursor, hr]
      exact he.step (State.framed_of_valid (hfound.valid.restore r.position) _ _)
  exact hfold rs rs' _ _ hrs (Step.level_nothing hc)

theorem level_thread (hes : ∀ e ∈ es, e.Blind) {c : Cursor} (hc : c.Valid) {rs rs' : List Resume}
    (hrs : places rs = places rs') : (thread es c rs).Level (thread es c rs') := by
  induction es generalizing c rs rs' with
  | nil => exact ⟨rfl, hrs, rfl, hc⟩
  | cons e es ih =>
    have hhere := level_stepFrom (hes e (by simp)) hc hrs
    have hlater := ih (fun e' he' => hes e' (by simp [he'])) hhere.valid hhere.places
    rw [thread, thread, ← Resume.isEmpty_eq hhere.places, ← hhere.cursor]
    split
    · exact hhere
    · refine ⟨?_, hlater.places, hlater.cursor, hlater.valid⟩
      dsimp only
      rw [hhere.candidates, hlater.candidates]

theorem level_stepSeq (hes : ∀ e ∈ es, e.Blind) (h : s.Framed false [] t) :
    (stepSeq es s).Level (stepSeq es t) := by
  have hrun := level_thread hes h.valid (show places [⟨s.cursor.position, s.context⟩] =
    places [⟨s.cursor.position, t.context⟩] from rfl)
  simp only [stepSeq, h.cursor_eq]
  refine ⟨by rw [hrun.candidates], ?_, by rw [hrun.cursor], hrun.valid.restore _⟩
  rw [Resume.places_filter, Resume.places_filter, hrun.places, hrun.cursor]

theorem blind_seq (hes : ∀ e ∈ es, e.Blind) : (seq es).Blind :=
  blind_ofStep _ (framing_parseSeq fun e he => (hes e he).parse) fun h => level_stepSeq hes h

theorem blind_times (n : Nat) (h : e.Blind) : (times n e).Blind := by
  have hmany : ∀ e' ∈ List.replicate n e, e'.Blind := fun e' he' =>
    List.eq_of_mem_replicate he' ▸ h
  exact blind_ofStep _ (framing_parseSeq fun e' he' => (hmany e' he').parse) fun hst =>
    level_stepSeq hmany hst

/-! ## Elements that may be skipped, and alternatives -/

theorem level_stepOptional (he : e.Blind) (default : Option Value) (weak : Bool)
    (h : s.Framed false [] t) :
    (stepOptional e default weak s).Level (stepOptional e default weak t) := by
  have htrial := he.parse [] s t h
  have hvalid := htrial.state.valid.restore s.cursor.position
  have hstep := he.step (State.framed_of_valid hvalid s.context t.context)
  simp only [stepOptional, h.cursor_eq, htrial.isOk, htrial.state.cursor_eq]
  split
  · split
    · split
      · exact hstep
      · exact Step.level_resume hvalid _ _ _
    · split
      · refine ⟨hstep.candidates, ?_, by rw [hstep.cursor], hstep.valid.restore _⟩
        rw [Resume.places_addTo, Resume.places_addTo, hstep.places]
      · exact ⟨hstep.candidates, hstep.places, by rw [hstep.cursor], hstep.valid.restore _⟩
  · exact Step.level_resume h.valid _ _ _

theorem blind_optional (he : e.Blind) (default : Option Value) (weak : Bool) :
    (optional e default weak).Blind :=
  blind_ofStep _ (framing_parseOptional default weak he.parse) fun h =>
    level_stepOptional he default weak h

theorem level_stepFirst (hes : ∀ e ∈ es, e.Blind) (start : Cursor.Position) (x y : Context)
    {c : Cursor} (hc : c.Valid) : (stepFirst start x es c).Level (stepFirst start y es c) := by
  induction es generalizing c with
  | nil => exact Step.level_nothing hc
  | cons e es ih =>
    have hfirst := (hes e (by simp)).step (State.framed_of_valid (hc.restore start) x y)
    have hothers := ih (fun e' he' => hes e' (by simp [he'])) hfirst.valid
    simp only [stepFirst, ← Resume.isEmpty_eq hfirst.places, ← hfirst.cursor]
    refine ⟨by rw [hfirst.candidates, hothers.candidates], ?_, hothers.cursor, hothers.valid⟩
    dsimp only
    split
    · exact hothers.places
    · exact hfirst.places

theorem blind_firstOf (hes : ∀ e ∈ es, e.Blind) : (firstOf es).Blind := by
  refine blind_ofStep _ (fun before s t h => framed_parseFirst h (fun e he => (hes e he).parse) rfl h)
    fun {s t} h => ?_
  have hrun := level_stepFirst hes s.cursor.position s.context t.context h.valid
  simp only [h.cursor_eq]
  exact ⟨by rw [hrun.candidates], hrun.places, by rw [hrun.cursor], hrun.valid.restore _⟩

/-! ## Repetition -/

theorem stepAll_eq (he : e.Blind) (n : Nat) (seen : List Cursor.Position) {c : Cursor}
    (hc : c.Valid) {rs rs' : List Resume} (hrs : places rs = places rs') :
    stepAll e n seen c rs = stepAll e n seen c rs' ∧ (stepAll e n seen c rs).2.Valid := by
  induction n generalizing seen c rs rs' with
  | zero => exact ⟨rfl, hc⟩
  | succ n ih =>
    have hhere := level_stepFrom he hc hrs
    have hfresh := congrArg (List.filter fun p => decide (p ∉ seen)) hhere.places
    rw [← Resume.places_filter, ← Resume.places_filter] at hfresh
    rw [stepAll, stepAll, ← Resume.isEmpty_eq hrs]
    split
    · exact ⟨rfl, hc⟩
    · obtain ⟨hlater, hvalid⟩ := ih (seen ++ ((stepFrom e c rs).resumes.filter
        (·.position ∉ seen)).map (·.position)) hhere.valid hfresh
      have hseen : ((stepFrom e c rs').resumes.filter (·.position ∉ seen)).map (·.position) =
          ((stepFrom e c rs).resumes.filter (·.position ∉ seen)).map (·.position) := hfresh.symm
      dsimp only
      rw [hseen, ← hhere.candidates, ← hhere.cursor, ← hlater]
      exact ⟨rfl, hvalid⟩

theorem blind_allOf (n : Nat) (he : e.Blind) : (allOf e n).Blind := by
  refine blind_ofStep _ (framing_allOf n he.parse) fun {s t} h => ?_
  obtain ⟨hrun, hvalid⟩ := stepAll_eq he (s.cursor.remaining + 1 + n) [s.cursor.position] h.valid
    (show places [⟨s.cursor.position, s.context⟩] = places [⟨s.cursor.position, t.context⟩] from rfl)
  simp only [h.cursor_eq, ← hrun]
  exact ⟨rfl, rfl, rfl, hvalid.restore _⟩

end Element

/-! ## Flags -/

namespace Flags

variable {f : Flags} {child : Element}

/-- Scans that both reach the last token, with the same candidates, or both go on from one place. -/
inductive Progress.Level : Progress → Progress → Prop where
  | reached (candidates : List String) : Progress.Level (.reached candidates) (.reached candidates)
  | going {s t : State} (h : s.Framed false [] t) : Progress.Level (.going s) (.going t)

theorem level_completeValue {e : Element} (he : e.Blind) (h : s.Framed false [] t) :
    (completeValue e s).Level (completeValue e t) := by
  have htrial := he.parse [] s t h
  have hoffers := he.complete (State.framed_of_valid
    (htrial.state.valid.restore s.cursor.position) s.context t.context)
  simp only [completeValue, htrial.isOk, htrial.state.cursor_eq, h.cursor_eq]
  split
  · exact .going htrial.state
  · rw [hoffers]
    exact .reached _

theorem level_skipValue (policy : UnknownFlag) (h : s.Framed false [] t) :
    (skipValue policy s).Level (skipValue policy t) := by
  unfold skipValue
  cases hrest : s.cursor.rest with
  | nil =>
    rw [Cursor.next?_of_rest_nil hrest, Cursor.next?_of_rest_nil (h.rest.trans hrest)]
    cases policy <;> exact .going h
  | cons a ts =>
    rw [Cursor.next?_of_rest_cons hrest, Cursor.next?_of_rest_cons (h.rest.trans hrest)]
    have hbehind := h.behind hrest
    have hnext : t.cursor.behind.hasNext = s.cursor.behind.hasNext := hbehind.hasNext
    cases policy with
    | acceptValue =>
      dsimp only
      rw [hnext]
      split
      · exact .going hbehind
      · exact .reached []
    | reject => exact .going h
    | ignore => exact .going h
    | acceptNonvalue => exact .going h

/-- Reads the value of a flag by its definition, or by what happens to flags without one. -/
def passValue (definition : Option Element) (policy : UnknownFlag) (s : State) : Progress :=
  match definition with
  | some e => completeValue e s
  | none => skipValue policy s

/-- How a scan for completion goes on after a flag. -/
def completeAfter (f : Flags) (child : Element) (n : Nat) (positional : List Token) :
    Progress → List String
  | .reached candidates => candidates
  | .going s => f.completeScan child n positional s

theorem completeGroup_cons (c : Char) (cs : List Char) (s : State) :
    f.completeGroup (c :: cs) s = match passValue (f.short? c) f.unknownShort s with
      | .reached candidates => .reached candidates
      | .going s' => f.completeGroup cs s' := by
  rw [completeGroup]
  rfl

theorem completeScan_of_rest_nil (n : Nat) (positional : List Token) (h : s.cursor.rest = []) :
    f.completeScan child n positional s =
      child.complete ⟨s.cursor.onTokens positional, s.context⟩ := by
  cases n with
  | zero => rfl
  | succ n => rw [completeScan, Cursor.next?_of_rest_nil h]

theorem completeScan_of_rest_cons (n : Nat) (positional : List Token) {a : Token} {ts : List Token}
    (h : s.cursor.rest = a :: ts) :
    f.completeScan child (n + 1) positional s = match FlagWord.ofText a.value with
      | .positional =>
        if !s.behind.cursor.hasNext && a.value = "--" then f.longNames ""
        else if f.anchored then child.complete s
        else f.completeScan child n (positional ++ [a]) s.behind
      | .long name none =>
        if s.behind.cursor.hasNext then
          f.completeAfter child n positional (passValue (f.long? name) f.unknownLong s.behind)
        else f.longNames name
      | .long name (some value) =>
        if s.behind.cursor.hasNext then f.completeScan child n positional s.behind
        else f.completeInline name value a s.behind
      | .short group =>
        if s.behind.cursor.hasNext then
          f.completeAfter child n positional (f.completeGroup group s.behind)
        else [] := by
  rw [completeScan, Cursor.next?_of_rest_cons h]
  rfl

theorem level_passValue {definition : Option Element} (hdef : ∀ e, definition = some e → e.Blind)
    (policy : UnknownFlag) (h : s.Framed false [] t) :
    (passValue definition policy s).Level (passValue definition policy t) := by
  cases definition with
  | some e => exact level_completeValue (hdef e rfl) h
  | none => exact level_skipValue policy h

theorem blind_short? (hshort : ∀ d ∈ f.short, d.2.Blind) (name : Char) :
    ∀ e, f.short? name = some e → e.Blind := by
  intro e he
  obtain ⟨d, hd, rfl⟩ := OrderedMap.mem_of_get? he
  exact hshort d hd

theorem blind_long? (hlong : ∀ d ∈ f.long, d.2.Blind) (name : String) :
    ∀ e, f.long? name = some e → e.Blind := by
  intro e he
  obtain ⟨d, hd, rfl⟩ := OrderedMap.mem_of_get? he
  exact hlong d hd

theorem level_completeGroup (hshort : ∀ d ∈ f.short, d.2.Blind) (group : List Char)
    (h : s.Framed false [] t) : (f.completeGroup group s).Level (f.completeGroup group t) := by
  induction group generalizing s t with
  | nil => exact .going h
  | cons c cs ih =>
    have hhere := level_passValue (blind_short? hshort c) f.unknownShort h
    rw [completeGroup_cons, completeGroup_cons]
    revert hhere
    generalize passValue (f.short? c) f.unknownShort s = p
    generalize passValue (f.short? c) f.unknownShort t = q
    intro hhere
    cases hhere with
    | reached candidates => exact .reached candidates
    | going h' => exact ih h'

theorem completeScan_eq (hshort : ∀ d ∈ f.short, d.2.Blind) (hlong : ∀ d ∈ f.long, d.2.Blind)
    (hchild : child.Blind) (n : Nat) (positional : List Token) (h : s.Framed false [] t) :
    f.completeScan child n positional s = f.completeScan child n positional t := by
  have hend : ∀ {s t : State} (ts : List Token), s.Framed false [] t →
      child.complete ⟨s.cursor.onTokens ts, s.context⟩ =
        child.complete ⟨t.cursor.onTokens ts, t.context⟩ :=
    fun ts h => hchild.complete (framed_onTokens h ts)
  induction n generalizing s t positional with
  | zero => exact hend positional h
  | succ n ih =>
    have hafter : ∀ p q : Progress, p.Level q →
        f.completeAfter child n positional p = f.completeAfter child n positional q := by
      intro p q hpq
      cases hpq with
      | reached candidates => rfl
      | going h' => exact ih positional h'
    cases hrest : s.cursor.rest with
    | nil =>
      rw [completeScan_of_rest_nil _ _ hrest, completeScan_of_rest_nil _ _ (h.rest.trans hrest)]
      exact hend positional h
    | cons a ts =>
      have hbehind := h.behind hrest
      rw [completeScan_of_rest_cons n _ hrest,
        completeScan_of_rest_cons n _ (h.rest.trans hrest), hbehind.hasNext]
      split
      · rw [ih _ hbehind, hchild.complete h]
      · rw [hafter _ _ (level_passValue (blind_long? hlong _) _ hbehind)]
      · next name value _ =>
        have hvalue : f.completeInline name value a s.behind =
            f.completeInline name value a t.behind := by
          unfold completeInline
          split
          · rfl
          · next e he =>
            rw [(blind_long? hlong _ e he).complete (framed_inline hbehind a value)]
        rw [ih _ hbehind, hvalue]
      · rw [hafter _ _ (level_completeGroup hshort _ hbehind)]

theorem blind_around (hshort : ∀ d ∈ f.short, d.2.Blind) (hlong : ∀ d ∈ f.long, d.2.Blind)
    (hchild : child.Blind) : (f.around child).Blind := by
  have hparse : Framing false (f.parse child) :=
    framing_parse (fun d hd => (hshort d hd).parse) (fun d hd => (hlong d hd).parse) hchild.parse
  have hcomplete : ∀ {s t : State}, s.Framed false [] t →
      f.complete child s = f.complete child t := by
    intro s t h
    rw [complete, complete, h.remaining]
    exact completeScan_eq hshort hlong hchild _ [] h
  refine ⟨hparse, hcomplete, fun {s t} h => ?_⟩
  have hfound := Element.level_speculate hparse hcomplete h
  show (f.step child s).Level (f.step child t)
  simp only [step, h.cursor_eq, ← Resume.isEmpty_eq hfound.places]
  split
  · exact ⟨by rw [hfound.candidates], hfound.places, hfound.cursor, hfound.valid⟩
  · exact hfound

end Flags

theorem Element.Unlimited.blind {e : Element} (h : e.Unlimited) : e.Blind := by
  induction h with
  | none => exact blind_ofTrial _ framing_ok fun _ => rfl
  | markTrue key => exact blind_ofTrial _ (framing_put key _) fun _ => rfl
  | token h => exact blind_tokenLeaf h
  | literal key value words => exact blind_literal key value words
  | rest key => exact blind_leaf key readFramed_joined
  | rawRest key => exact blind_leaf key fun before c hc _ => readFramed_rawJoined before c hc
  | seq _ ih => exact blind_seq ih
  | optional default weak _ ih => exact blind_optional ih default weak
  | firstOf _ ih => exact blind_firstOf ih
  | times n _ ih => exact blind_times n ih
  | allOf n _ ih => exact blind_allOf n ih
  | flags _ _ _ hshort hlong hchild => exact Flags.blind_around hshort hlong hchild

end ArgGrammar
