import ArgGrammar.Proofs.Commitment
import ArgGrammar.Proofs.Rounds

/-!
# Candidates of an element that may be skipped

Completing an element that may be skipped depends on where an attempt at it fails. With input left,
the element is skipped and its candidates are lost. This does no harm as long as a step of the
element, too, finds nothing then, because the token that does not fit stands before the last one. It
does harm where something inside the element is skipped itself after an attempt that reached the last
token: that attempt has candidates, though parsing goes back and fails with input left.

* `Element.Linear`: leaves, literals, sequences, repetitions and what may be skipped, nested to any
  depth.
* `Element.Firm e s`: parsing `e` from `s`, nothing is skipped after an attempt that reads several
  tokens up to the end.
* `Moves`: how far such a parse gets; `Linear.moves`.
* `Tracks`: a step of completion goes the way of the parse up to the last token; `Firm.tracks`.
* `Element.optional_keeps_candidates`: no candidate of a firm element is lost when it may be skipped,
  and an attempt that is not firm loses all of them in some grammar around it.
-/

namespace ArgGrammar

variable {s t : State} {err : ParseError}

/-! ## How far a parse gets -/

theorem Cursor.eq_moveTo {c d : Cursor} {i : Nat} (h : d = c.moveTo i) : d = c.moveTo d.index := by
  subst h
  rfl

theorem Cursor.restore_position_moveTo (c : Cursor) (i : Nat) :
    (c.moveTo i).restore c.position = c.moveTo (min c.index c.tokens.length) := by
  by_cases hview : c.view < c.views.length <;> simp [restore, moveTo, position, hview, tokens]

/-- The parse moves on in the view at hand, and a failure with input left is one at a token that was
read. -/
structure Moves (parse : State → Outcome) : Prop where
  advances : Advances parse
  within : Within parse
  reads : ∀ {s err t}, s.cursor.Valid → parse s = .failed err t → t.cursor.rest ≠ [] →
    t.cursor.rest.length < s.cursor.rest.length

variable {f g : State → Outcome}

theorem Moves.moveTo (h : Moves f) (hok : f s = .ok t) :
    t.cursor = s.cursor.moveTo t.cursor.index := by
  have hwithin := h.within s
  rwa [hok] at hwithin

theorem Moves.length_le (h : Moves f) (hs : s.cursor.Valid) (hok : f s = .ok t) :
    t.cursor.rest.length ≤ s.cursor.rest.length :=
  (h.advances.leads hs hok).cursor.rest.length_le

theorem Moves.backTo (h : Moves f) (hs : s.cursor.Valid) : (f s).state.backTo s = s := by
  have hcontext := State.context_backTo (h.advances s hs)
  have hcursor := h.within.restore hs
  obtain ⟨cursor, context⟩ := s
  exact congrArg₂ State.mk hcursor hcontext

theorem Moves.andThen (hf : Moves f) (hg : Moves g) : Moves fun s => (f s).andThen g where
  advances s hs := leads_andThen (hf.advances s hs) hg.advances
  within s := by
    have hfirst := hf.within s
    dsimp only
    cases hok : f s with
    | failed err t => rwa [hok] at hfirst
    | ok t =>
      have hsecond := hg.within t
      rw [hf.moveTo hok] at hsecond
      exact hsecond
  reads {s err u} hs hfail hleft := by
    cases hok : f s with
    | failed err' t =>
      simp only [hok, Outcome.andThen] at hfail
      obtain ⟨rfl, rfl⟩ := Outcome.failed.inj hfail
      exact hf.reads hs hok hleft
    | ok t =>
      simp only [hok, Outcome.andThen] at hfail
      have hvalid := (hf.advances.leads hs hok).cursor.valid
      exact Nat.lt_of_lt_of_le (hg.reads hvalid hfail hleft) (hf.length_le hs hok)

theorem Moves.of_ok (ha : Advances f) (h : ∀ s, (∃ t i, f s = .ok t ∧ t.cursor = s.cursor.moveTo i) ∨
    s.cursor.rest = [] ∧ ∃ err, f s = .failed err s) : Moves f where
  advances := ha
  within s := by
    rcases h s with ⟨t, i, ht, hcursor⟩ | ⟨-, err, hfail⟩
    · rw [ht]
      exact Cursor.eq_moveTo hcursor
    · rw [hfail]
      rfl
  reads {s err t} _ hfail hleft := by
    rcases h s with ⟨t', i, ht, -⟩ | ⟨hrest, err', hend⟩
    · rw [ht] at hfail
      cases hfail
    · rw [hend] at hfail
      cases hfail
      exact absurd hrest hleft

theorem Moves.of_idles (ha : Advances f) (h : Idles f) : Moves f :=
  .of_ok ha fun s => by
    obtain ⟨t, ht, hcursor⟩ := h s
    exact .inl ⟨t, s.cursor.index, ht, hcursor⟩

namespace Element

variable {e : Element} {es : List Element}

/-! ## Grammars -/

/-- The elements that read one value or nothing. -/
inductive Leaf : Element → Prop where
  | none : Leaf .none
  | markTrue (key : String) : Leaf (.markTrue key)
  | token {e : Element} (h : TokenLeaf e) : Leaf e
  | rest (key : String) : Leaf (.rest key)
  | rawRest (key : String) : Leaf (.rawRest key)

/-- Leaves, literals, sequences, repetitions and elements that may be skipped. -/
inductive Linear : Element → Prop where
  | leaf {e : Element} (h : Leaf e) : Linear e
  | literal (key : String) (value : Value) (words : List String) :
      Linear (.literal key value words)
  | seq {es : List Element} (h : ∀ e ∈ es, Linear e) : Linear (.seq es)
  | times (n : Nat) {e : Element} (h : Linear e) : Linear (.times n e)
  | optional {e : Element} (default : Option Value) (weak : Bool) (h : Linear e) :
      Linear (.optional e default weak)

/-- Parsing the elements one after another from the first state comes to an element in the second
state. -/
inductive ComesTo : List Element → State → Element → State → Prop where
  | here {e : Element} {es : List Element} {s : State} : ComesTo (e :: es) s e s
  | later {d e : Element} {es : List Element} {s t u : State} (hd : d.parse s = .ok t)
      (h : ComesTo es t e u) : ComesTo (d :: es) s e u

/-- Parsing the element from the state, nothing is skipped after an attempt that reads several
tokens up to the end. -/
inductive Firm : Element → State → Prop where
  | leaf {e : Element} {s : State} (h : Leaf e) : Firm e s
  | literal (key : String) (value : Value) (words : List String) {s : State} :
      Firm (.literal key value words) s
  | seq {es : List Element} {s : State} (hes : ∀ e ∈ es, Linear e)
      (h : ∀ e t, ComesTo es s e t → Firm e t) : Firm (.seq es) s
  | times (n : Nat) {e : Element} {s : State} (he : Linear e)
      (h : ∀ e' t, ComesTo (List.replicate n e) s e' t → Firm e' t) : Firm (.times n e) s
  | optional {e : Element} {s : State} (default : Option Value) (weak : Bool) (he : Linear e)
      (h : Firm e s) (hlast : weak = true → ∀ err t, e.parse s = .failed err t →
        t.cursor.rest = [] → s.cursor.rest.length ≤ 1) : Firm (.optional e default weak) s

theorem Firm.linear (h : Firm e s) : Linear e := by
  cases h with
  | leaf h => exact .leaf h
  | literal key value words => exact .literal key value words
  | seq hes _ => exact .seq hes
  | times n he _ => exact .times n he
  | optional default weak he _ _ => exact .optional default weak he

/-! ## The elements move in one view -/

theorem Reads.moves {accepts : String → Bool} (h : Reads accepts e) (ha : Advances e.parse) :
    Moves e.parse where
  advances := ha
  within := h.within
  reads {s err t} _ hfail hleft := by
    cases hrest : s.cursor.rest with
    | nil =>
      have hcursor := h.idle hrest
      rw [hfail] at hcursor
      exact absurd (hcursor ▸ hrest) hleft
    | cons a as =>
      have hcursor := h.cursor hrest
      rw [hfail] at hcursor
      change t.cursor = _ at hcursor
      rw [hcursor, Cursor.rest_behind hrest]
      simp

theorem moves_rest (key : String) : Moves (rest key).parse := by
  refine .of_ok (advances_leaf key follows_joined) fun s => ?_
  cases hrest : s.cursor.rest with
  | nil => exact .inr ⟨rfl, _, parse_leaf_of_rest_nil hrest⟩
  | cons a as =>
    have hnext := Cursor.hasNext_of_rest_cons hrest
    simp only [rest, leaf, ofTrial, if_pos hnext, Reader.joined, Cursor.next,
      Cursor.next?_of_rest_cons hrest]
    exact .inl ⟨_, s.cursor.tokens.length, rfl, rfl⟩

theorem moves_rawRest (key : String) : Moves (rawRest key).parse := by
  refine .of_ok (advances_leaf key fun c hc _ => .toEnd hc) fun s => ?_
  cases hrest : s.cursor.rest with
  | nil => exact .inr ⟨rfl, _, parse_leaf_of_rest_nil hrest⟩
  | cons a as =>
    simp only [rawRest, leaf, ofTrial, if_pos (Cursor.hasNext_of_rest_cons hrest), Reader.rawJoined]
    exact .inl ⟨_, s.cursor.tokens.length, rfl, rfl⟩

theorem Leaf.moves (h : Leaf e) : Moves e.parse := by
  cases h with
  | none => exact .of_idles advances_none idle_none.idles
  | markTrue key => exact .of_idles (advances_markTrue key) (idle_markTrue key).idles
  | token h =>
    obtain ⟨accepts, hreads⟩ := h.reads
    exact hreads.moves h.advances
  | rest key => exact moves_rest key
  | rawRest key => exact moves_rawRest key

theorem moves_parseWords (words : List String) : Moves (Literal.parseWords words) where
  advances := advances_parseWords words
  within := within_parseWords words
  reads {s err t} hs hfail hleft := by
    induction words generalizing s with
    | nil => cases hfail
    | cons word words ih =>
      cases hrest : s.cursor.rest with
      | nil =>
        simp only [Literal.parseWords, Cursor.next?_of_rest_nil hrest] at hfail
        cases hfail
        exact absurd hrest hleft
      | cons a as =>
        have hbehind : s.cursor.behind.rest = as := Cursor.rest_behind hrest
        by_cases ha : Text.lower a.value = Text.lower word
        · rw [parseWords_of_rest_cons hrest ha] at hfail
          have hlater := ih (hs.behind hrest) hfail
          rw [State.behind, hbehind] at hlater
          exact Nat.lt_succ_of_lt hlater
        · simp only [Literal.parseWords, Cursor.next?_of_rest_cons hrest, if_neg ha] at hfail
          cases hfail
          simp [hbehind]

theorem moves_parseSeq (h : ∀ e ∈ es, Moves e.parse) : Moves (parseSeq es) := by
  induction es with
  | nil => exact .of_idles (fun s hs => .refl hs) fun s => ⟨s, rfl, rfl⟩
  | cons e es ih => exact (h e (by simp)).andThen (ih fun e' he' => h e' (by simp [he']))

theorem parseOptional_failed {default : Option Value} {weak : Bool}
    (h : parseOptional e default weak s = .failed err t) :
    e.parse s = .failed err t ∧ weak = false ∧ t.cursor.rest = [] := by
  unfold parseOptional at h
  split at h
  · split at h
    · cases h
    · next err' t' heq =>
      split at h
      · cases h
      · next hkept =>
        cases h
        rw [Bool.or_eq_true, not_or, Bool.not_eq_true, Bool.not_eq_true,
          Cursor.hasNext_eq_false_iff] at hkept
        exact ⟨heq, hkept⟩
  · cases h

theorem moves_parseOptional (default : Option Value) (weak : Bool) (h : Moves e.parse) :
    Moves (parseOptional e default weak) where
  advances := advances_parseOptional default weak h.advances
  within s := by
    have hattempt := h.within s
    unfold parseOptional
    split
    · split
      · next t heq => rwa [heq] at hattempt
      · next err t heq =>
        rw [heq] at hattempt
        split
        · -- going back stays in the view, wherever in it the attempt has stopped
          refine Cursor.eq_moveTo (i := min s.cursor.index s.cursor.tokens.length) ?_
          show (recordDefault e default (t.backTo s)).cursor = _
          rw [recordDefault_cursor, ← Cursor.restore_position_moveTo s.cursor t.cursor.index]
          exact congrArg (Cursor.restore · s.cursor.position) hattempt
        · exact hattempt
    · exact Cursor.eq_moveTo (recordDefault_cursor e default s)
  reads {s err t} _ hfail hleft := absurd (parseOptional_failed hfail).2.2 hleft

theorem Linear.moves (h : Linear e) : Moves e.parse := by
  induction h with
  | leaf h => exact h.moves
  | literal key value words =>
    exact (moves_parseWords words).andThen
      (.of_idles (fun _ hs => State.leads_put hs key value) (idles_put key value))
  | seq _ ih => exact moves_parseSeq ih
  | times n _ ih => exact moves_parseSeq fun e he => List.eq_of_mem_replicate he ▸ ih
  | optional default weak _ ih => exact moves_parseOptional default weak ih

/-! ## Steps go the way of the parse -/

/-- A step of completion goes the way of the parse up to the last token: where parsing stops before
it, a step finds nothing, and where parsing passes, a step passes to the same place. -/
structure Tracks (e : Element) (s : State) : Prop where
  refused : ∀ {err t}, e.parse s = .failed err t → t.cursor.rest ≠ [] →
    e.step s = .nothing s.cursor
  passed : ∀ {t}, e.parse s = .ok t → 2 ≤ t.cursor.rest.length →
    e.step s = .resume ⟨t.cursor.position, t.context⟩ s.cursor

theorem hasNext_of_two_le {c : Cursor} (h : 2 ≤ c.rest.length) : c.hasNext = true := by
  rw [Cursor.hasNext_iff]
  rintro hnil
  simp [hnil] at h

theorem tracks_ofTrial {key : Option String} {parse : State → Outcome}
    {complete : State → List String} (hm : Moves parse) (hs : s.cursor.Valid)
    (h : ∀ err t, parse s = .failed err t → t.cursor.rest ≠ [] → complete s = []) :
    Tracks (ofTrial key parse complete) s := by
  have hback := hm.within.restore hs
  refine ⟨fun {err t} hfail hleft => ?_, fun {t} hok htwo => ?_⟩
  · change parse s = _ at hfail
    show speculate parse complete s = _
    rw [hfail] at hback
    simp only [speculate, hfail, hback, Outcome.isOk, Bool.false_and, Bool.false_eq_true, if_false]
    exact congrArg (Step.offer · s.cursor) (h err t hfail hleft)
  · change parse s = _ at hok
    show speculate parse complete s = _
    rw [hok] at hback
    change t.cursor.restore s.cursor.position = s.cursor at hback
    simp only [speculate, hok, Outcome.state, Outcome.isOk, hback, hasNext_of_two_le htwo,
      Bool.and_self, if_true]

theorem complete_leaf_of_rest_cons {key : String} {r : Reader} {a : Token} {as : List Token}
    (h : s.cursor.rest = a :: as) (has : as ≠ []) : (leaf key r).complete s = [] := by
  have hbehind : s.cursor.behind.hasNext = true := by
    rw [Cursor.hasNext_iff, Cursor.rest_behind h]
    exact has
  simp only [leaf, ofTrial, Cursor.next?_of_rest_cons h, hbehind, if_true]

theorem tracks_leaf {key : String} {r : Reader} (hm : Moves (leaf key r).parse)
    (hs : s.cursor.Valid) : Tracks (leaf key r) s := by
  refine tracks_ofTrial hm hs fun err t hfail hleft => ?_
  have hlt := hm.reads hs hfail hleft
  have hpos := List.length_pos_iff.mpr hleft
  obtain ⟨a, as, hrest⟩ : ∃ a as, s.cursor.rest = a :: as :=
    List.exists_cons_of_ne_nil (List.length_pos_iff.mp (by omega))
  have has : as ≠ [] := by
    rintro rfl
    rw [hrest, List.length_singleton] at hlt
    omega
  show (leaf key r).complete s = []
  exact complete_leaf_of_rest_cons hrest has

theorem Leaf.tracks (h : Leaf e) (hs : s.cursor.Valid) : Tracks e s := by
  have hm := h.moves
  cases h with
  | none => exact tracks_ofTrial hm hs fun _ _ _ _ => rfl
  | markTrue key => exact tracks_ofTrial hm hs fun _ _ _ _ => rfl
  | token h =>
    obtain ⟨key, convert, complete, rfl, -⟩ := h.eq_leaf
    exact tracks_leaf hm hs
  | rest key => exact tracks_leaf hm hs
  | rawRest key => exact tracks_leaf hm hs

theorem completeWords_of_failed {words : List String} (hs : s.cursor.Valid)
    (hfail : Literal.parseWords words s = .failed err t) (hleft : t.cursor.rest ≠ []) :
    Literal.completeWords words s.cursor = [] := by
  induction words generalizing s with
  | nil => rfl
  | cons word words ih =>
    cases hrest : s.cursor.rest with
    | nil => simp only [Literal.completeWords, Cursor.next?_of_rest_nil hrest]
    | cons a as =>
      have hbehind : s.cursor.behind.rest = as := Cursor.rest_behind hrest
      simp only [Literal.completeWords, Cursor.next?_of_rest_cons hrest]
      by_cases ha : Text.lower a.value = Text.lower word
      · rw [parseWords_of_rest_cons hrest ha] at hfail
        simp only [if_pos ha]
        split
        · exact ih (hs.behind hrest) hfail
        · next hlast =>
          -- the word is the last one, so the failure behind it cannot leave input
          rw [Cursor.hasNext_iff, Classical.not_not] at hlast
          have hlt := (moves_parseWords words).reads (hs.behind hrest) hfail hleft
          simp [State.behind, hlast] at hlt
      · simp only [Literal.parseWords, Cursor.next?_of_rest_cons hrest, if_neg ha] at hfail
        cases hfail
        have hnext := (Cursor.hasNext_iff _).mpr hleft
        simp only [hnext, if_true, if_neg ha]

theorem tracks_literal (key : String) (value : Value) (words : List String)
    (hs : s.cursor.Valid) : Tracks (literal key value words) s := by
  have hm := (Linear.literal key value words).moves
  refine tracks_ofTrial hm hs fun err t hfail hleft => ?_
  cases hwords : Literal.parseWords words s with
  | ok u => simp only [hwords, Outcome.andThen, reduceCtorEq] at hfail
  | failed err' u =>
    simp only [hwords, Outcome.andThen] at hfail
    obtain ⟨rfl, rfl⟩ := Outcome.failed.inj hfail
    exact completeWords_of_failed hs hwords hleft

/-! ### One after another -/

theorem stepFrom_one (e : Element) {c : Cursor} {s : State}
    (h : c.restore s.cursor.position = s.cursor) :
    stepFrom e c [⟨s.cursor.position, s.context⟩] = (Step.nothing c).merge (e.step s) := by
  simp only [stepFrom, List.foldl_cons, List.foldl_nil, Step.nothing, h]

theorem stepFrom_nothing {c : Cursor} (h : c.restore s.cursor.position = s.cursor)
    (hstep : e.step s = .nothing s.cursor) :
    stepFrom e c [⟨s.cursor.position, s.context⟩] = .nothing s.cursor := by
  rw [stepFrom_one e h, hstep]
  rfl

theorem stepFrom_resume {c : Cursor} {r : Resume} (h : c.restore s.cursor.position = s.cursor)
    (hstep : e.step s = .resume r s.cursor) :
    stepFrom e c [⟨s.cursor.position, s.context⟩] = .resume r s.cursor := by
  rw [stepFrom_one e h, hstep]
  rfl

theorem thread_cons_nothing {c : Cursor} {rs : List Resume} (d : Cursor)
    (h : stepFrom e c rs = .nothing d) : thread (e :: es) c rs = .nothing d := by
  rw [thread, h]
  rfl

theorem thread_cons_resume {c d : Cursor} {rs : List Resume} {r : Resume}
    (h : stepFrom e c rs = .resume r d) : thread (e :: es) c rs = thread es d [r] := by
  rw [thread, h]
  rfl

/-- Threading steps through elements goes the way of the parse, if the step of each element does
where parsing comes to it. The steps may start at any index of the view. -/
theorem thread_tracks (hm : ∀ e ∈ es, Moves e.parse)
    (h : ∀ e t, ComesTo es s e t → t.cursor.Valid → Tracks e t) (hs : s.cursor.Valid) (i : Nat) :
    (∀ {err t}, parseSeq es s = .failed err t → t.cursor.rest ≠ [] →
      ∃ j, thread es (s.cursor.moveTo i) [⟨s.cursor.position, s.context⟩] =
        .nothing (s.cursor.moveTo j)) ∧
    ∀ {t}, parseSeq es s = .ok t → 2 ≤ t.cursor.rest.length →
      ∃ j, thread es (s.cursor.moveTo i) [⟨s.cursor.position, s.context⟩] =
        .resume ⟨t.cursor.position, t.context⟩ (s.cursor.moveTo j) := by
  induction es generalizing s i with
  | nil =>
    refine ⟨nofun, fun hok _ => ⟨i, ?_⟩⟩
    cases hok
    rfl
  | cons e es ih =>
    have htracks := h e s .here hs
    have hback : (s.cursor.moveTo i).restore s.cursor.position = s.cursor :=
      Cursor.restore_moveTo hs i rfl hs.index_le
    have hlater : Moves (parseSeq es) := moves_parseSeq fun e' he' => hm e' (by simp [he'])
    cases hparse : e.parse s with
    | failed err' t' =>
      refine ⟨fun {err t} hfail hleft => ⟨s.cursor.index, ?_⟩, fun {t} hok _ => ?_⟩
      · simp only [parseSeq, hparse, Outcome.andThen] at hfail
        obtain ⟨rfl, rfl⟩ := Outcome.failed.inj hfail
        exact thread_cons_nothing _ (stepFrom_nothing hback (htracks.refused hparse hleft))
      · simp only [parseSeq, hparse, Outcome.andThen, reduceCtorEq] at hok
    | ok u =>
      have hu := ((hm e (by simp)).advances.leads hs hparse).cursor.valid
      have hplace := (hm e (by simp)).moveTo hparse
      obtain ⟨hrefused, hpassed⟩ := ih (fun e' he' => hm e' (by simp [he']))
        (fun e' t hcomes => h e' t (.later hparse hcomes)) hu s.cursor.index
      -- the steps behind the first element start where it started, seen from the place behind it
      have hstart : u.cursor.moveTo s.cursor.index = s.cursor := by
        rw [hplace]
        rfl
      have hview : ∀ j, u.cursor.moveTo j = s.cursor.moveTo j := by
        intro j
        rw [hplace]
        rfl
      rw [hstart] at hrefused hpassed
      simp only [hview] at hrefused hpassed
      have hstep : 2 ≤ u.cursor.rest.length →
          thread (e :: es) (s.cursor.moveTo i) [⟨s.cursor.position, s.context⟩] =
            thread es s.cursor [⟨u.cursor.position, u.context⟩] := fun htwo =>
        thread_cons_resume (stepFrom_resume hback (htracks.passed hparse htwo))
      refine ⟨fun {err t} hfail hleft => ?_, fun {t} hok htwo => ?_⟩
      · simp only [parseSeq, hparse, Outcome.andThen] at hfail
        have hlt := hlater.reads hu hfail hleft
        have hpos := List.length_pos_iff.mpr hleft
        rw [hstep (by omega)]
        exact hrefused hfail hleft
      · simp only [parseSeq, hparse, Outcome.andThen] at hok
        rw [hstep (Nat.le_trans htwo (hlater.length_le hu hok))]
        exact hpassed hok htwo

theorem tracks_stepSeq (key : Option String) (hm : ∀ e ∈ es, Moves e.parse)
    (h : ∀ e t, ComesTo es s e t → t.cursor.Valid → Tracks e t) (hs : s.cursor.Valid) :
    Tracks (ofStep key (parseSeq es) (haltsSeq es) (stepSeq es)) s := by
  obtain ⟨hrefused, hpassed⟩ := thread_tracks hm h hs s.cursor.index
  have hself : s.cursor.moveTo s.cursor.index = s.cursor := rfl
  have hback : ∀ j, (s.cursor.moveTo j).restore s.cursor.position = s.cursor := fun j =>
    Cursor.restore_moveTo hs j rfl hs.index_le
  rw [hself] at hrefused hpassed
  refine ⟨fun {err t} hfail hleft => ?_, fun {t} hok htwo => ?_⟩
  · obtain ⟨j, hj⟩ := hrefused hfail hleft
    show stepSeq es s = _
    simp only [stepSeq, hj, Step.nothing, hback, List.filter_nil]
    rfl
  · obtain ⟨j, hj⟩ := hpassed hok htwo
    have hplace := (moves_parseSeq hm).moveTo hok
    have hnext : s.cursor.hasNextAt t.cursor.position = true := by
      have hmore := hasNext_of_two_le htwo
      rw [hplace] at hmore
      rw [hplace]
      exact hmore
    show stepSeq es s = _
    simp only [stepSeq, hj, Step.resume, hback, List.filter_cons, List.filter_nil, hnext, if_true]
    rfl

/-! ### What may be skipped -/

section

variable {default : Option Value} {weak : Bool}

theorem stepOptional_of_ok (hm : Moves e.parse) (hs : s.cursor.Valid) (hok : e.parse s = .ok t)
    (hleft : t.cursor.rest ≠ []) : stepOptional e default weak s = e.step s := by
  have hback := hm.within.restore hs
  have hnext := (Cursor.hasNext_iff _).mpr (hm.advances.rest_ne_nil hs hok hleft)
  have hmore := (Cursor.hasNext_iff _).mpr hleft
  simp only [hok, Outcome.state] at hback
  simp only [stepOptional, if_pos hnext, hok, Outcome.state, Outcome.isOk, if_pos hmore, if_true,
    hback]

theorem stepOptional_of_failed (hm : Moves e.parse) (hs : s.cursor.Valid)
    (hfail : e.parse s = .failed err t) (hleft : t.cursor.rest ≠ []) :
    stepOptional e default weak s =
      .resume ⟨s.cursor.position, (recordDefault e default s).context⟩ s.cursor := by
  have hback := hm.within.restore hs
  have hrest : s.cursor.rest ≠ [] :=
    List.length_pos_iff.mp (Nat.zero_lt_of_lt (hm.reads hs hfail hleft))
  have hnext := (Cursor.hasNext_iff _).mpr hrest
  have hmore := (Cursor.hasNext_iff _).mpr hleft
  simp only [hfail, Outcome.state] at hback
  simp only [stepOptional, if_pos hnext, hfail, Outcome.state, Outcome.isOk, if_pos hmore,
    Bool.false_eq_true, if_false, hback]

theorem candidates_stepOptional_of_end (hm : Moves e.parse) (hs : s.cursor.Valid)
    (hrest : s.cursor.rest ≠ []) (hend : (e.parse s).state.cursor.rest = []) :
    (stepOptional e default weak s).candidates = (e.step s).candidates := by
  have hback := hm.within.restore hs
  have hnext := (Cursor.hasNext_iff _).mpr hrest
  have hmore := (Cursor.hasNext_eq_false_iff _).mpr hend
  simp only [stepOptional, if_pos hnext, hmore, Bool.false_eq_true, if_false, hback]
  split <;> rfl

theorem tracks_optional (hm : Moves e.parse) (h : Tracks e s) (hs : s.cursor.Valid)
    (hlast : weak = true → ∀ err t, e.parse s = .failed err t → t.cursor.rest = [] →
      s.cursor.rest.length ≤ 1) : Tracks (optional e default weak) s where
  refused hfail hleft := absurd (parseOptional_failed hfail).2.2 hleft
  passed {t} hok htwo := by
    change parseOptional e default weak s = _ at hok
    show stepOptional e default weak s = _
    have hrest : s.cursor.rest ≠ [] := by
      have hle := (moves_parseOptional default weak hm).length_le hs hok
      exact List.length_pos_iff.mp (by omega)
    simp only [parseOptional, if_pos ((Cursor.hasNext_iff _).mpr hrest)] at hok
    cases hparse : e.parse s with
    | ok u =>
      simp only [hparse, Outcome.ok.injEq] at hok
      subst hok
      rw [stepOptional_of_ok hm hs hparse (List.length_pos_iff.mp (by omega))]
      exact h.passed hparse htwo
    | failed err u =>
      have hstate := hm.backTo hs
      simp only [hparse, Outcome.state] at hstate
      simp only [hparse, hstate] at hok
      split at hok
      · next hskip =>
        obtain rfl := Outcome.ok.inj hok
        rw [recordDefault_cursor] at htwo ⊢
        have hleft : u.cursor.rest ≠ [] := by
          intro hend
          have hone : weak = true → s.cursor.rest.length ≤ 1 := fun hweak =>
            hlast hweak err u hparse hend
          simp only [(Cursor.hasNext_eq_false_iff _).mpr hend, Bool.or_false] at hskip
          have := hone hskip
          omega
        exact stepOptional_of_failed hm hs hparse hleft
      · cases hok

end

theorem Firm.tracks (h : Firm e s) (hs : s.cursor.Valid) : Tracks e s := by
  induction h with
  | leaf h => exact h.tracks hs
  | literal key value words => exact tracks_literal key value words hs
  | seq hes _ ih => exact tracks_stepSeq .none (fun e he => (hes e he).moves) ih hs
  | times n he _ ih =>
    exact tracks_stepSeq _ (fun e he' => List.eq_of_mem_replicate he' ▸ he.moves) ih hs
  | optional default weak he _ hlast ih => exact tracks_optional he.moves (ih hs) hs hlast

/-! ## Candidates -/

theorem mem_distinct {texts : List String} {q : String} (h : q ∈ texts) : q ∈ distinct texts := by
  have hfold : ∀ (seen texts : List String), q ∈ seen ∨ q ∈ texts →
      q ∈ texts.foldl (fun seen t => if t ∈ seen then seen else seen ++ [t]) seen := by
    intro seen texts
    induction texts generalizing seen with
    | nil => simp
    | cons t texts ih =>
      intro hq
      refine ih _ ?_
      dsimp only
      split
      · next hseen =>
        rcases hq with hq | hq
        · exact .inl hq
        · rcases List.mem_cons.mp hq with rfl | hq
          · exact .inl hseen
          · exact .inr hq
      · simpa [or_assoc] using hq
  exact hfold [] texts (.inr h)

theorem mem_stepSeq_of_mem_step (hs : s.cursor.Valid) {q : String}
    (hq : q ∈ (e.step s).candidates) : q ∈ (stepSeq (e :: es) s).candidates := by
  refine mem_distinct ?_
  have hhere : q ∈ (stepFrom e s.cursor [⟨s.cursor.position, s.context⟩]).candidates := by
    rw [stepFrom_one e (Cursor.restore_self hs)]
    exact List.mem_append_right _ hq
  rw [thread]
  split
  · exact hhere
  · exact List.mem_append_left _ hhere

theorem parse_choices_nil {key : String} {a : Token} {as : List Token}
    (h : s.cursor.rest = a :: as) : (choices key []).parse s =
      .failed (s.cursor.behind.errorHere (.notAChoice [])) s.behind := by
  have hnext := Cursor.hasNext_of_rest_cons h
  simp only [choices, leaf, ofTrial, Reader.choice, Reader.ofToken, if_pos hnext, Cursor.next,
    Cursor.next?_of_rest_cons h]
  rfl

/-- A weak attempt that has failed at the end is skipped, and an element behind it that fits nothing
fails with input left. So all that the attempt has found is lost when the two together may be
skipped. -/
theorem candidates_lost (he : Linear e) (hs : s.cursor.Valid) (hfail : e.parse s = .failed err t)
    (hend : t.cursor.rest = []) (htwo : 2 ≤ s.cursor.rest.length) (key : String)
    (inner default : Option Value) (weak : Bool) :
    let around := seq [optional e inner true, choices key []]
    (∀ q ∈ (e.step s).candidates, q ∈ (around.step s).candidates) ∧
      ((optional around default weak).step s).candidates = [] := by
  intro around
  have hrest : s.cursor.rest ≠ [] := List.length_pos_iff.mp (by omega)
  refine ⟨fun q hq => mem_stepSeq_of_mem_step hs ?_, ?_⟩
  · show q ∈ (stepOptional e inner true s).candidates
    rw [candidates_stepOptional_of_end he.moves hs hrest (by rw [hfail]; exact hend)]
    exact hq
  · have haround : Linear around := by
      refine .seq fun d hd => ?_
      rcases List.mem_pair.mp hd with rfl | rfl
      · exact .optional inner true he
      · exact .leaf (.token (.choices key []))
    have hskip : (optional e inner true).parse s = .ok (recordDefault e inner s) := by
      have hstate := he.moves.backTo hs
      simp only [hfail, Outcome.state] at hstate
      rw [optional_failed ((Cursor.hasNext_iff _).mpr hrest) hfail, hstate, if_pos (.inl rfl)]
    obtain ⟨a, as, ha⟩ := List.exists_cons_of_ne_nil hrest
    have hmiss : ∃ err, around.parse s = .failed err (recordDefault e inner s).behind := by
      have hback : (recordDefault e inner s).cursor.rest = a :: as := by
        rw [recordDefault_cursor, ha]
      show ∃ err, parseSeq _ s = _
      simp only [parseSeq, hskip, parse_choices_nil hback, Outcome.andThen]
      exact ⟨_, rfl⟩
    obtain ⟨err, hmiss⟩ := hmiss
    have hleft : (recordDefault e inner s).behind.cursor.rest ≠ [] := by
      rw [State.behind, recordDefault_cursor, Cursor.rest_behind ha]
      rintro rfl
      simp [ha] at htwo
    show (stepOptional around default weak s).candidates = []
    rw [stepOptional_of_failed haround.moves hs hmiss hleft]
    rfl

/-- **What an element offers when it may be skipped.** If parsing the element skips nothing inside it
after an attempt that reads several tokens up to the end, the candidates are those of the element
itself. The condition is needed: an attempt that reads several tokens up to the end and fails is part
of an element that offers the same, and loses all of it when it may be skipped. -/
theorem optional_keeps_candidates {e : Element} {s : State} (hs : s.cursor.Valid)
    (hrest : s.cursor.rest ≠ []) (default : Option Value) (weak : Bool) :
    (e.Firm s → ((optional e default weak).step s).candidates = (e.step s).candidates) ∧
    (e.Linear → 2 ≤ s.cursor.rest.length → ∀ err t, e.parse s = .failed err t → t.cursor.rest = [] →
      ∀ key inner, let around := seq [optional e inner true, choices key []]
        (∀ q ∈ (e.step s).candidates, q ∈ (around.step s).candidates) ∧
          ((optional around default weak).step s).candidates = []) := by
  refine ⟨fun hfirm => ?_, fun he htwo err t hfail hend key inner =>
    candidates_lost he hs hfail hend htwo key inner default weak⟩
  have hm := hfirm.linear.moves
  show (stepOptional e default weak s).candidates = _
  by_cases hend : (e.parse s).state.cursor.rest = []
  · exact candidates_stepOptional_of_end hm hs hrest hend
  · cases hparse : e.parse s with
    | ok t =>
      rw [hparse] at hend
      rw [stepOptional_of_ok hm hs hparse hend]
    | failed err t =>
      rw [hparse] at hend
      rw [stepOptional_of_failed hm hs hparse hend, (hfirm.tracks hs).refused hparse hend]
      rfl

/-- Behind `foo`, the word `x` may become `xyz`, which is skipped if it does not, or `xylo`. Both are
offered when all of it may be skipped, and lost in the element around it. -/
theorem optional_keeps_candidates_xy :
    let e := seq [string "a", optional (choices "b" [("xyz", .int 1)]) .none true,
      choices "c" [("xylo", .int 2)]]
    let s : State := ⟨.ofTokens "foo x" [⟨"foo", 0, 3⟩, ⟨"x", 4, 5⟩], .empty⟩
    let around := seq [optional e .none true, choices "d" []]
    ∀ weak, ((optional e .none weak).step s).candidates = ["xyz", "xylo"] ∧
      "xylo" ∈ (around.step s).candidates ∧
      ((optional around .none weak).step s).candidates = [] := by
  intro e s around weak
  have hs : s.cursor.Valid := Cursor.valid_ofTokens _ _
  have hfirm : e.Firm s := by
    have ha := TokenLeaf.string "a"
    have hb := TokenLeaf.choices "b" [("xyz", .int 1)]
    have hc := TokenLeaf.choices "c" [("xylo", .int 2)]
    refine .seq ?_ fun d t hcomes => ?_
    · simp only [List.forall_mem_cons, List.not_mem_nil, false_implies, implies_true, and_true]
      exact ⟨.leaf (.token ha), .optional .none true (.leaf (.token hb)), .leaf (.token hc)⟩
    · cases hcomes with
      | here => exact .leaf (.token ha)
      | later hfoo hcomes =>
        cases hcomes with
        | here =>
          refine .optional .none true (.leaf (.token hb)) (.leaf (.token hb)) fun _ _ _ _ _ => ?_
          have hbehind : t = ((string "a").parse s).state := by
            rw [hfoo]
            rfl
          subst hbehind
          decide +kernel
        | later _ hcomes =>
          cases hcomes with
          | here => exact .leaf (.token hc)
          | later _ hcomes => cases hcomes
  have hstep : (e.step s).candidates = ["xyz", "xylo"] := by decide +kernel
  have hend : (e.parse s).isOk = false ∧ (e.parse s).state.cursor.rest = [] := by decide +kernel
  cases hparse : e.parse s with
  | ok t => simp [hparse, Outcome.isOk] at hend
  | failed err t =>
    rw [hparse] at hend
    have hrest : s.cursor.rest ≠ [] := by decide +kernel
    obtain ⟨hkept, hlost⟩ := optional_keeps_candidates hs hrest .none weak
    obtain ⟨hinner, hnone⟩ :=
      hlost hfirm.linear (by decide +kernel) err t hparse hend.2 "d" .none
    exact ⟨(hkept hfirm).trans hstep, hinner "xylo" (by simp [hstep]), hnone⟩

/-- The inner attempt reads `foo` and `x` up to the end and is skipped; the word behind it does not
fit `foo`. So `xyz` is lost when all of it may be skipped, though a line that goes on with `xyz bar`
parses. -/
theorem optional_hides_candidates :
    let e := seq [optional (seq [string "a", choices "c" [("xyz", .int 1)]]) .none true,
      literal "w" (.bool true) ["bar"]]
    let s : State := ⟨.ofTokens "foo x" [⟨"foo", 0, 3⟩, ⟨"x", 4, 5⟩], .empty⟩
    e.Linear ∧ (e.step s).candidates = ["xyz"] ∧
      ∀ weak, ((optional e .none weak).step s).candidates = [] ∧
        Parser.parse ⟨optional e .none weak, .lenientQuoted⟩ "foo xyz bar" =
          .ok ⟨[("a", [.text "foo"]), ("c", [.int 1]), ("w", [.bool true])]⟩ := by
  intro e s
  refine ⟨.seq ?_, by decide +kernel, fun weak => ⟨?_, ?_⟩⟩
  · have hinner : ∀ d ∈ [string "a", choices "c" [("xyz", .int 1)]], Linear d := by
      simp only [List.forall_mem_cons, List.not_mem_nil, false_implies, implies_true, and_true]
      exact ⟨.leaf (.token (.string "a")), .leaf (.token (.choices "c" _))⟩
    simp only [List.forall_mem_cons, List.not_mem_nil, false_implies, implies_true, and_true]
    exact ⟨.optional .none true (.seq hinner), .literal "w" _ _⟩
  · cases weak <;> decide +kernel
  · cases weak <;> decide +kernel

end Element

end ArgGrammar
