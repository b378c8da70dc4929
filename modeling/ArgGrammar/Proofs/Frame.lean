import ArgGrammar.Proofs.Grammar

/-!
# What a parse does not look at

Two things have no part in what a grammar reads: the tokens behind the place where it starts and,
where `onlyOne` does not count them, the values that are recorded.

* `Cursor.under before c`: the cursor `c` with the tokens `before` in front of all its views.
* `State.Framed recorded before s t`: the state `t` is `s` under the tokens `before`; with `recorded`,
  the same values are recorded in both.
* `Framing recorded parse`: framed states lead to framed outcomes.
* `Built.framing`: every grammar keeps frames that hold the same values. There is one lemma for each
  constructor; all but the one for `onlyOne` are also about states that hold other values.

The two runs go in step: whatever the one adds to its views or goes back to, the other does under the
same tokens. So their places correspond one by one, which is not so for runs that are merely alike.
-/

namespace ArgGrammar

namespace Cursor

variable {c d : Cursor} {before : List Token}

/-- The cursor with tokens in front of all its views. -/
def under (before : List Token) (c : Cursor) : Cursor :=
  { c with views := c.views.map (before ++ ·), index := before.length + c.index }

@[simp] theorem under_nil (c : Cursor) : c.under [] = c := by
  simp [under]

theorem getD_views_under {v : Nat} (hv : v < c.views.length) :
    (c.under before).views.getD v [] = before ++ c.views.getD v [] := by
  simp [under, List.getD_eq_getElem?_getD, hv]

theorem tokens_under (hc : c.Valid) : (c.under before).tokens = before ++ c.tokens :=
  getD_views_under hc.view_lt

theorem valid_under (hc : c.Valid) : (c.under before).Valid := by
  refine ⟨by simpa [under] using hc.view_lt, ?_⟩
  rw [tokens_under hc, List.length_append]
  exact Nat.add_le_add_left hc.index_le _

@[simp] theorem rest_under (hc : c.Valid) : (c.under before).rest = c.rest := by
  rw [rest, tokens_under hc]
  exact List.drop_length_add_append c.index

theorem hasNext_under (hc : c.Valid) : (c.under before).hasNext = c.hasNext := by
  rw [Bool.eq_iff_iff, hasNext_iff, hasNext_iff, rest_under hc]

theorem remaining_under (hc : c.Valid) : (c.under before).remaining = c.remaining := by
  rw [remaining_eq, remaining_eq, rest_under hc]

theorem rawRest_under (hc : c.Valid) : (c.under before).rawRest = c.rawRest := by
  have hnext : (c.under before).tokens[(c.under before).index]? = c.tokens[c.index]? := by
    rw [tokens_under hc]
    show (before ++ c.tokens)[before.length + c.index]? = c.tokens[c.index]?
    rw [List.getElem?_append_right (Nat.le_add_right _ _), Nat.add_sub_cancel_left]
  simp only [rawRest, rawPosition, hnext]
  rfl

theorem toEnd_under (hc : c.Valid) :
    ({ c.under before with index := (c.under before).tokens.length } : Cursor) =
      ({ c with index := c.tokens.length } : Cursor).under before := by
  rw [tokens_under hc, List.length_append]
  rfl

theorem position_under_inj :
    (c.under before).position = (d.under before).position ↔ c.position = d.position := by
  simp [position, under]

theorem restore_under (hd : d.Valid) (p : Cursor) :
    (d.under before).restore (p.under before).position = (d.restore p.position).under before := by
  -- the views are as many as before, and each is longer by the same tokens
  have hviews : (d.under before).views.length = d.views.length := by simp [under]
  have hlen : ∀ v < d.views.length, ((d.under before).views.getD v []).length =
      before.length + (d.views.getD v []).length := by
    intro v hv
    rw [getD_views_under hv, List.length_append]
  by_cases hview : p.view < d.views.length
  · have hview' : (p.under before).position.view < (d.under before).views.length := by
      rw [hviews]
      exact hview
    have hmin := Nat.add_min_add_left before.length p.index (d.views.getD p.view []).length
    rw [← hlen p.view hview] at hmin
    simp only [restore, if_pos hview', if_pos (show p.position.view < _ from hview)]
    exact congrArg (fun i => (⟨d.raw, _, p.view, i⟩ : Cursor)) hmin
  · have hview' : ¬ (p.under before).position.view < (d.under before).views.length := by
      rw [hviews]
      exact hview
    have hmin := Nat.add_min_add_left before.length p.index d.tokens.length
    rw [tokens, ← hlen d.view hd.view_lt] at hmin
    simp only [restore, if_neg hview', if_neg (show ¬ p.position.view < _ from hview)]
    exact congrArg (fun i => (⟨d.raw, _, d.view, i⟩ : Cursor)) hmin

theorem splice_under (hd : d.Valid) (p : Cursor) (ts : List Token) :
    (d.under before).splice (p.under before).position ts =
      (d.splice p.position ts).under before := by
  have hmin := Nat.add_min_add_left before.length p.index d.tokens.length
  have hviews : (d.under before).views.length = d.views.length := by simp [under]
  have hkeep : min (before.length + p.index) (d.under before).tokens.length =
      before.length + min p.index d.tokens.length := by
    rw [tokens_under hd, List.length_append, hmin]
  have htake : (d.under before).tokens.take (before.length + min p.index d.tokens.length) =
      before ++ d.tokens.take (min p.index d.tokens.length) := by
    rw [tokens_under hd, List.take_length_add_append]
  simp only [splice, position, under] at *
  rw [hkeep, htake, hviews]
  simp

end Cursor

/-! ## States and outcomes -/

/-- The state `t` is `s` under the tokens `before`; with `recorded` both hold the same values. -/
structure State.Framed (recorded : Bool) (before : List Token) (s t : State) : Prop where
  valid : s.cursor.Valid
  cursor : t.cursor = s.cursor.under before
  context : recorded = true → t.context = s.context

/-- Two successes or two failures for the same reason, in framed states. -/
inductive Outcome.Framed (recorded : Bool) (before : List Token) : Outcome → Outcome → Prop where
  | ok {s t : State} (h : s.Framed recorded before t) : Outcome.Framed recorded before (.ok s) (.ok t)
  | failed {e e' : ParseError} {s t : State} (hcomplaint : e.complaint = e'.complaint)
      (h : s.Framed recorded before t) : Outcome.Framed recorded before (.failed e s) (.failed e' t)

/-- Framed states lead to framed outcomes. -/
def Framing (recorded : Bool) (parse : State → Outcome) : Prop :=
  ∀ (before : List Token) (s t : State), s.Framed recorded before t →
    (parse s).Framed recorded before (parse t)

variable {recorded : Bool} {before : List Token} {s t : State} {o p : Outcome}

namespace State.Framed

theorem refl (recorded : Bool) {s : State} (hs : s.cursor.Valid) : s.Framed recorded [] s :=
  ⟨hs, (Cursor.under_nil s.cursor).symm, fun _ => rfl⟩

theorem rest (h : s.Framed recorded before t) : t.cursor.rest = s.cursor.rest := by
  rw [h.cursor, Cursor.rest_under h.valid]

theorem hasNext (h : s.Framed recorded before t) : t.cursor.hasNext = s.cursor.hasNext := by
  rw [h.cursor, Cursor.hasNext_under h.valid]

theorem hasNext_of_rest (h : s.Framed recorded before t) (hleft : s.cursor.rest ≠ []) :
    t.cursor.hasNext = true := by
  rw [Cursor.hasNext_iff, h.rest]
  exact hleft

theorem remaining (h : s.Framed recorded before t) : t.cursor.remaining = s.cursor.remaining := by
  rw [h.cursor, Cursor.remaining_under h.valid]

theorem put (h : s.Framed recorded before t) (key : String) (v : Value) :
    (s.put key v).Framed recorded before (t.put key v) :=
  ⟨h.valid, h.cursor, fun hr => by simp only [State.put, h.context hr]⟩

theorem behind (h : s.Framed recorded before t) {a : Token} {ts : List Token}
    (hrest : s.cursor.rest = a :: ts) : s.behind.Framed recorded before t.behind := by
  refine ⟨h.valid.behind hrest, ?_, h.context⟩
  show t.cursor.behind = _
  rw [h.cursor]
  rfl

theorem restore (h : s.Framed recorded before t) {s' t' : State}
    (h' : s'.Framed recorded before t') :
    t'.cursor.restore t.cursor.position = (s'.cursor.restore s.cursor.position).under before := by
  rw [h.cursor, h'.cursor, Cursor.restore_under h'.valid]

theorem backTo (h : s.Framed recorded before t) {s' t' : State}
    (h' : s'.Framed recorded before t') : (s'.backTo s).Framed recorded before (t'.backTo t) :=
  ⟨h'.valid.restore _, h.restore h', fun hr => by
    simp only [State.backTo, h.context hr, h'.context hr]⟩

theorem position_iff (h : s.Framed recorded before t) {s' t' : State}
    (h' : s'.Framed recorded before t') :
    t'.cursor.position = t.cursor.position ↔ s'.cursor.position = s.cursor.position := by
  rw [h.cursor, h'.cursor]
  exact Cursor.position_under_inj

end State.Framed

theorem Outcome.Framed.state (h : o.Framed recorded before p) :
    o.state.Framed recorded before p.state := by
  cases h with
  | ok h => exact h
  | failed _ h => exact h

theorem Outcome.Framed.isOk (h : o.Framed recorded before p) : p.isOk = o.isOk := by
  cases h <;> rfl

theorem Outcome.Framed.andThen {f : State → Outcome} (h : o.Framed recorded before p)
    (hf : Framing recorded f) : (o.andThen f).Framed recorded before (p.andThen f) := by
  cases h with
  | ok h => exact hf _ _ _ h
  | failed hcomplaint h => exact .failed hcomplaint h

theorem framing_ok : Framing recorded .ok := fun _ _ _ h => .ok h

theorem framing_put (key : String) (v : Value) : Framing recorded fun s => .ok (s.put key v) :=
  fun _ _ _ h => .ok (h.put key v)

namespace Element

/-! ## Leaves -/

/-- Two readings under the tokens `before`: the same value or the same complaint. -/
inductive ReadFramed (before : List Token) :
    Except ParseError Value × Cursor → Except ParseError Value × Cursor → Prop where
  | ok (v : Value) {c : Cursor} (hc : c.Valid) : ReadFramed before (.ok v, c) (.ok v, c.under before)
  | error {e e' : ParseError} {c : Cursor} (hcomplaint : e.complaint = e'.complaint) (hc : c.Valid) :
      ReadFramed before (.error e, c) (.error e', c.under before)

theorem framing_leaf (key : String) {r : Reader}
    (hr : ∀ (before : List Token) (c : Cursor), c.Valid → c.rest ≠ [] →
      ReadFramed before (r.read c) (r.read (c.under before))) :
    Framing recorded (leaf key r).parse := by
  intro before s t h
  simp only [leaf, ofTrial]
  rw [h.hasNext]
  by_cases hnext : s.cursor.hasNext = true
  · have hread := hr before s.cursor h.valid ((Cursor.hasNext_iff _).mp hnext)
    rw [if_pos hnext, if_pos hnext, h.cursor]
    revert hread
    generalize r.read s.cursor = a
    generalize r.read (s.cursor.under before) = b
    intro hread
    cases hread with
    | @ok v c hc =>
      have hread : State.Framed recorded before ⟨c, s.context⟩ ⟨c.under before, t.context⟩ :=
        ⟨hc, rfl, h.context⟩
      exact .ok (hread.put key v)
    | error hcomplaint hc => exact .failed hcomplaint ⟨hc, rfl, h.context⟩
  · rw [if_neg hnext, if_neg hnext]
    exact .failed rfl h

theorem readFramed_ofToken (convert : String → Except Complaint Value)
    (complete : String → List String) (before : List Token) (c : Cursor) (hc : c.Valid)
    (hrest : c.rest ≠ []) :
    ReadFramed before ((Reader.ofToken convert complete).read c)
      ((Reader.ofToken convert complete).read (c.under before)) := by
  obtain ⟨a, ts, ha⟩ := List.exists_cons_of_ne_nil hrest
  have hunder : (c.under before).rest = a :: ts := (Cursor.rest_under hc).trans ha
  simp only [Reader.ofToken, Cursor.next, Cursor.next?_of_rest_cons ha,
    Cursor.next?_of_rest_cons hunder]
  cases convert a.value with
  | ok v => exact .ok v (hc.behind ha)
  | error complaint => exact .error rfl (hc.behind ha)

theorem readFramed_joined (before : List Token) (c : Cursor) (hc : c.Valid) (hrest : c.rest ≠ []) :
    ReadFramed before (Reader.joined.read c) (Reader.joined.read (c.under before)) := by
  obtain ⟨a, ts, ha⟩ := List.exists_cons_of_ne_nil hrest
  have hunder : (c.under before).rest = a :: ts := (Cursor.rest_under hc).trans ha
  simp only [Reader.joined, Cursor.next, Cursor.next?_of_rest_cons ha,
    Cursor.next?_of_rest_cons hunder, Cursor.rest_under hc, Cursor.toEnd_under hc]
  exact .ok _ (Cursor.Follows.toEnd hc).valid

theorem readFramed_rawJoined (before : List Token) (c : Cursor) (hc : c.Valid) :
    ReadFramed before (Reader.rawJoined.read c) (Reader.rawJoined.read (c.under before)) := by
  simp only [Reader.rawJoined, Cursor.rawRest_under hc, Cursor.toEnd_under hc]
  exact .ok _ (Cursor.Follows.toEnd hc).valid

theorem framing_tokenLeaf {e : Element} (h : e.TokenLeaf) : Framing recorded e.parse := by
  obtain ⟨key, convert, complete, rfl, -⟩ := h.eq_leaf
  exact framing_leaf key (readFramed_ofToken convert complete)

theorem framing_parseWords (words : List String) : Framing recorded (Literal.parseWords words) := by
  induction words with
  | nil => exact framing_ok
  | cons word words ih =>
    intro before s t h
    rw [Literal.parseWords, Literal.parseWords]
    cases hrest : s.cursor.rest with
    | nil =>
      rw [Cursor.next?_of_rest_nil hrest, Cursor.next?_of_rest_nil (h.rest.trans hrest)]
      exact .failed rfl h
    | cons a ts =>
      rw [Cursor.next?_of_rest_cons hrest, Cursor.next?_of_rest_cons (h.rest.trans hrest)]
      dsimp only
      split
      · exact ih _ _ _ (h.behind hrest)
      · exact .failed rfl (h.behind hrest)

theorem framing_literal (key : String) (value : Value) (words : List String) :
    Framing recorded (literal key value words).parse := fun before s t h =>
  (framing_parseWords words before s t h).andThen (framing_put key value)

/-! ## Combinators -/

theorem framing_parseSeq {es : List Element} (h : ∀ e ∈ es, Framing recorded e.parse) :
    Framing recorded (parseSeq es) := by
  induction es with
  | nil => exact framing_ok
  | cons e es ih =>
    intro before s t hst
    exact (h e (by simp) before s t hst).andThen (ih fun e' he' => h e' (by simp [he']))

theorem framed_recordDefault (h : s.Framed recorded before t) (e : Element)
    (default : Option Value) :
    (recordDefault e default s).Framed recorded before (recordDefault e default t) := by
  unfold recordDefault
  split
  · exact h.put _ _
  · exact h

theorem framing_parseOptional {e : Element} (default : Option Value) (weak : Bool)
    (h : Framing recorded e.parse) : Framing recorded (parseOptional e default weak) := by
  intro before s t hst
  have he := h before s t hst
  simp only [parseOptional]
  rw [hst.hasNext]
  split
  · revert he
    generalize e.parse s = o
    generalize e.parse t = p
    intro he
    cases he with
    | ok h' => exact .ok h'
    | failed hcomplaint h' =>
      dsimp only
      rw [h'.hasNext]
      split
      · exact .ok (framed_recordDefault (hst.backTo h') e default)
      · exact .failed hcomplaint h'
  · exact .ok (framed_recordDefault hst e default)

theorem framed_parseFirst {start start' : State} (hstart : start.Framed recorded before start')
    {es : List Element} (h : ∀ e ∈ es, Framing recorded e.parse) {last last' : ParseError}
    (hcomplaint : last.complaint = last'.complaint) (hst : s.Framed recorded before t) :
    (parseFirst start es last s).Framed recorded before (parseFirst start' es last' t) := by
  induction es generalizing last last' s t with
  | nil => exact .failed hcomplaint hst
  | cons e es ih =>
    have he := h e (by simp) before s t hst
    rw [parseFirst, parseFirst]
    revert he
    generalize e.parse s = o
    generalize e.parse t = p
    intro he
    cases he with
    | ok h' => exact .ok h'
    | failed hcomplaint' h' =>
      exact ih (fun e' he' => h e' (by simp [he'])) hcomplaint' (hstart.backTo h')

theorem framing_parseAll {e : Element} (h : Framing recorded e.parse) (n : Nat) :
    Framing recorded (parseAll e n) := by
  induction n with
  | zero => exact framing_ok
  | succ n ih =>
    intro before s t hst
    have he := h before s t hst
    rw [parseAll, parseAll, hst.hasNext]
    split
    · revert he
      generalize e.parse s = o
      generalize e.parse t = p
      intro he
      cases he with
      | ok h' =>
        -- both places are new or neither is
        simp only [hst.position_iff h']
        split
        · exact .ok h'
        · exact ih _ _ _ h'
      | failed hcomplaint h' => exact .failed hcomplaint h'
    · exact .ok hst

theorem framing_allOf (n : Nat) {e : Element} (h : Framing recorded e.parse) :
    Framing recorded (allOf e n).parse := by
  intro before s t hst
  simp only [allOf, ofStep]
  rw [hst.remaining]
  exact framing_parseAll h _ before s t hst

theorem framing_onlyOne {e : Element} (h : Framing true e.parse) :
    Framing true (onlyOne e).parse := by
  intro before s t hst
  refine (h before s t hst).andThen fun before s' t' h' => ?_
  rw [h'.context rfl]
  split
  · split
    · exact .failed rfl h'
    · exact .ok h'
  · exact .ok h'

end Element

/-! ## Flags -/

namespace Flags

variable {f : Flags}

theorem framed_onCursor {s' t' : State} (h : o.Framed recorded [] p)
    (hst : s'.Framed recorded before t') :
    (onCursor s'.cursor o).Framed recorded before (onCursor t'.cursor p) := by
  cases h with
  | ok h => exact .ok ⟨hst.valid, hst.cursor, h.context⟩
  | failed hcomplaint h => exact .failed hcomplaint ⟨hst.valid, hst.cursor, h.context⟩

theorem framed_onTokens (h : s.Framed recorded before t) (ts : List Token) :
    State.Framed recorded [] ⟨s.cursor.onTokens ts, s.context⟩ ⟨t.cursor.onTokens ts, t.context⟩ := by
  refine ⟨Cursor.valid_ofTokens _ _, ?_, h.context⟩
  rw [Cursor.under_nil, h.cursor]
  rfl

theorem framed_inline (h : s.Framed recorded before t) (a : Token) (value : String) :
    State.Framed recorded [] ⟨inlineCursor s.cursor a value, s.context⟩
      ⟨inlineCursor t.cursor a value, t.context⟩ := by
  refine ⟨Cursor.valid_ofTokens _ _, ?_, h.context⟩
  rw [Cursor.under_nil, h.cursor]
  rfl

theorem framing_parseLong (hlong : ∀ d ∈ f.long, Framing recorded d.2.parse) (name : String)
    (inline : Option String) (a : Token) : Framing recorded (f.parseLong name inline a) := by
  intro before s t h
  unfold parseLong
  split
  · next e he =>
    obtain ⟨d, hd, rfl⟩ := OrderedMap.mem_of_get? he
    exact hlong d hd before s t h
  · next e value he =>
    obtain ⟨d, hd, rfl⟩ := OrderedMap.mem_of_get? he
    exact framed_onCursor (hlong d hd _ _ _ (framed_inline h a value)) h
  · split
    · exact .failed rfl h
    · exact .ok h
    · exact .ok (h.put _ _)
    · exact .ok (h.put _ _)
    · exact .ok (h.put _ _)
    · exact Element.framing_tokenLeaf (.string name) before s t h

theorem framing_parseShort (hshort : ∀ d ∈ f.short, Framing recorded d.2.parse) (name : Char) :
    Framing recorded (f.parseShort name) := by
  intro before s t h
  unfold parseShort
  split
  · next e he =>
    obtain ⟨d, hd, rfl⟩ := OrderedMap.mem_of_get? he
    exact hshort d hd before s t h
  · split
    · exact .failed rfl h
    · exact .ok h
    · exact .ok (h.put _ _)
    · exact Element.framing_tokenLeaf (.string _) before s t h

theorem framing_parseGroup (hshort : ∀ d ∈ f.short, Framing recorded d.2.parse)
    (group : List Char) : Framing recorded (f.parseGroup group) := by
  induction group with
  | nil => exact framing_ok
  | cons c cs ih => exact fun before s t h => (framing_parseShort hshort c before s t h).andThen ih

theorem framed_scan (hshort : ∀ d ∈ f.short, Framing recorded d.2.parse)
    (hlong : ∀ d ∈ f.long, Framing recorded d.2.parse) (n : Nat) (h : s.Framed recorded before t) :
    (f.scan n s).1.Framed recorded before (f.scan n t).1 ∧ (f.scan n t).2 = (f.scan n s).2 := by
  induction n generalizing s t with
  | zero => exact ⟨.ok h, rfl⟩
  | succ n ih =>
    cases hrest : s.cursor.rest with
    | nil =>
      rw [scan_of_rest_nil _ hrest, scan_of_rest_nil _ (h.rest.trans hrest)]
      exact ⟨.ok h, rfl⟩
    | cons a ts =>
      have hbehind := h.behind hrest
      have hafter : ∀ o p : Outcome, o.Framed recorded before p →
          (f.scanAfter n o).1.Framed recorded before (f.scanAfter n p).1 ∧
            (f.scanAfter n p).2 = (f.scanAfter n o).2 := by
        intro o p hop
        cases hop with
        | ok h' => exact ih h'
        | failed hcomplaint h' => exact ⟨.failed hcomplaint h', rfl⟩
      rw [scan_of_rest_cons n hrest, scan_of_rest_cons n (h.rest.trans hrest)]
      split
      · split
        · exact ⟨.ok h, rfl⟩
        · exact ⟨(ih hbehind).1, congrArg (a :: ·) (ih hbehind).2⟩
      · exact hafter _ _ (framing_parseLong hlong _ _ _ _ _ _ hbehind)
      · exact hafter _ _ (framing_parseGroup hshort _ _ _ _ hbehind)

theorem framing_parse (hshort : ∀ d ∈ f.short, Framing recorded d.2.parse)
    (hlong : ∀ d ∈ f.long, Framing recorded d.2.parse) {child : Element}
    (hchild : Framing recorded child.parse) : Framing recorded (f.parse child) := by
  intro before s t h
  obtain ⟨hscan, htokens⟩ := framed_scan hshort hlong s.cursor.remaining h
  unfold parse
  rw [h.remaining]
  revert hscan htokens
  rcases f.scan s.cursor.remaining s with ⟨o, ts⟩
  rcases f.scan s.cursor.remaining t with ⟨p, us⟩
  intro hscan htokens
  obtain rfl : us = ts := htokens
  dsimp only at hscan ⊢
  cases hscan with
  | failed hcomplaint h' => exact .failed hcomplaint h'
  | @ok s' t' h' =>
    dsimp only [Outcome.andThen]
    split
    · exact hchild _ _ _ h'
    · -- the child sees the same cursor twice, and what it leaves is spliced in under `before`
      have hinner := hchild _ _ _ (framed_onTokens h' us)
      have hback : State.Framed recorded before
          ⟨if (child.parse ⟨s'.cursor.onTokens us, s'.context⟩).state.cursor.hasNext then
            s'.cursor.splice s.cursor.position
              (child.parse ⟨s'.cursor.onTokens us, s'.context⟩).state.cursor.rest
            else s'.cursor, s'.context⟩
          ⟨if (child.parse ⟨t'.cursor.onTokens us, t'.context⟩).state.cursor.hasNext then
            t'.cursor.splice t.cursor.position
              (child.parse ⟨t'.cursor.onTokens us, t'.context⟩).state.cursor.rest
            else t'.cursor, t'.context⟩ := by
        rw [hinner.state.hasNext, hinner.state.rest]
        split
        · refine ⟨Cursor.valid_splice _ _ _, ?_, h'.context⟩
          rw [h.cursor, h'.cursor, Cursor.splice_under h'.valid]
        · exact h'
      exact framed_onCursor hinner hback

end Flags

/-! ## All grammars -/

/-- Whether the same values are recorded or not, tokens behind the place do not matter. -/
theorem Element.Built.framing {raw : Bool} {e : Element} (h : e.Built raw) :
    Framing true e.parse := by
  induction h with
  | none => exact framing_ok
  | markTrue key => exact framing_put key _
  | token h => exact framing_tokenLeaf h
  | literal key value words => exact framing_literal key value words
  | rest key => exact framing_leaf key readFramed_joined
  | rawRest key _ => exact framing_leaf key fun before c hc _ => readFramed_rawJoined before c hc
  | seq _ ih => exact framing_parseSeq ih
  | optional default weak _ ih => exact framing_parseOptional default weak ih
  | firstOf _ ih => exact fun before s t h => framed_parseFirst h ih rfl h
  | times n _ ih => exact framing_parseSeq fun e he => List.eq_of_mem_replicate he ▸ ih
  | allOf n _ ih => exact framing_allOf n ih
  | onlyOne _ ih => exact framing_onlyOne ih
  | flags _ _ _ hshort hlong hchild => exact Flags.framing_parse hshort hlong hchild

end ArgGrammar
