import ArgGrammar.Proofs.Alike

/-!
# Every grammar does the same on cursors that are alike

One lemma for each constructor: made of uniform parts, it is uniform (`uniform_leaf`,
`uniform_literal`, `uniform_parseSeq`, `uniform_parseOptional`, `uniform_firstOf`,
`uniform_parseAll`, `uniform_onlyOne`, `Flags.uniform_parse`). `Built.uniform` puts them together.

The elements that go back (`parseOptional`, `parseFirst`) do so on both sides or on neither, since
the failures agree; the place where they go on is then alike by `State.Alike.backTo`.
-/

namespace ArgGrammar

variable {exact : Bool}

namespace Element

/-! ## Leaves -/

/-- Two readings of cursors that are alike: the same value or the same complaint, and both cursors
have moved. -/
inductive ReadAlike (exact : Bool) (c d : Cursor) :
    Except ParseError Value × Cursor → Except ParseError Value × Cursor → Prop where
  | ok (v : Value) {c' d' : Cursor} (h : c'.Alike exact d') (hc : c.index < c'.index)
      (hd : d.index < d'.index) : ReadAlike exact c d (.ok v, c') (.ok v, d')
  | error {e e' : ParseError} {c' d' : Cursor} (hcomplaint : e.complaint = e'.complaint)
      (herror : exact = true → e = e') (h : c'.Alike exact d') (hc : c.index < c'.index)
      (hd : d.index < d'.index) : ReadAlike exact c d (.error e, c') (.error e', d')

theorem uniform_leaf (key : String) {r : Reader}
    (hfollows : ∀ c : Cursor, c.Valid → c.rest ≠ [] → c.Follows (r.read c).2)
    (hread : ∀ c d : Cursor, c.Alike exact d → c.rest ≠ [] → ReadAlike exact c d (r.read c) (r.read d)) :
    Uniform exact (leaf key r).parse := by
  refine .of (advances_leaf key hfollows) fun s t h => ?_
  simp only [leaf, ofTrial]
  rw [← h.cursor.hasNext]
  by_cases hnext : s.cursor.hasNext = true
  · rw [if_pos hnext, if_pos hnext]
    have hs := (Cursor.hasNext_iff _).mp hnext
    have ht : t.cursor.rest ≠ [] := (Cursor.hasNext_iff _).mp (h.cursor.hasNext ▸ hnext)
    have hvs := (hfollows s.cursor h.validLeft hs).valid
    have hvt := (hfollows t.cursor h.validRight ht).valid
    have hst := hread s.cursor t.cursor h.cursor hs
    revert hst hvs hvt
    generalize r.read s.cursor = a
    generalize r.read t.cursor = b
    intro hvs hvt hst
    cases hst with
    | ok v hcursor hc hd =>
      have hput : State.Alike exact ⟨_, s.context⟩ ⟨_, t.context⟩ := ⟨hvs, hvt, hcursor, h.context⟩
      refine ⟨.ok (hput.put key v), ?_⟩
      simp only [Outcome.Stays, Outcome.state, State.put, Cursor.position, Cursor.Position.mk.injEq]
      omega
    | error hcomplaint herror hcursor hc hd =>
      refine ⟨.failed hcomplaint herror ⟨hvs, hvt, hcursor, h.context⟩, ?_⟩
      simp only [Outcome.Stays, Outcome.state, Cursor.position, Cursor.Position.mk.injEq]
      omega
  · rw [if_neg hnext, if_neg hnext]
    have hend := Matches.failedAtEnd h .notEnough
    exact ⟨hend.alike, hend.stays⟩

theorem readAlike_ofToken (convert : String → Except Complaint Value)
    (complete : String → List String) (c d : Cursor) (h : c.Alike exact d) (hrest : c.rest ≠ []) :
    ReadAlike exact c d ((Reader.ofToken convert complete).read c)
      ((Reader.ofToken convert complete).read d) := by
  obtain ⟨hnil, -⟩ | ⟨t, ts, u, us, ht, hu, hvalue, -, hnext⟩ := h.cases
  · exact absurd hnil hrest
  · simp only [Reader.ofToken, Cursor.next, Cursor.next?_of_rest_cons ht,
      Cursor.next?_of_rest_cons hu, hvalue]
    cases convert u.value with
    | ok v => exact .ok v hnext (Nat.lt_succ_self _) (Nat.lt_succ_self _)
    | error complaint =>
      exact .error rfl (hnext.errorHere complaint) hnext (Nat.lt_succ_self _) (Nat.lt_succ_self _)

theorem readAlike_joined (c d : Cursor) (h : c.Alike exact d) (hrest : c.rest ≠ []) :
    ReadAlike exact c d (Reader.joined.read c) (Reader.joined.read d) := by
  obtain ⟨hnil, -⟩ | ⟨t, ts, u, us, ht, hu, -, -, -⟩ := h.cases
  · exact absurd hnil hrest
  · simp only [Reader.joined, Cursor.next, Cursor.next?_of_rest_cons ht,
      Cursor.next?_of_rest_cons hu, h.values]
    exact .ok _ h.toEnd (Cursor.index_lt_of_rest_cons ht) (Cursor.index_lt_of_rest_cons hu)

theorem readAlike_rawJoined (c d : Cursor) (h : c.Alike true d) (hrest : c.rest ≠ []) :
    ReadAlike true c d (Reader.rawJoined.read c) (Reader.rawJoined.read d) := by
  obtain ⟨hnil, -⟩ | ⟨t, ts, u, us, ht, hu, -, -, -⟩ := h.cases
  · exact absurd hnil hrest
  · obtain ⟨hraw, htokens, hindex⟩ := h.same rfl
    have hvalue : c.rawRest = d.rawRest := by
      simp only [Cursor.rawRest, Cursor.rawPosition, hraw, htokens, hindex]
    simp only [Reader.rawJoined, hvalue]
    exact .ok _ h.toEnd (Cursor.index_lt_of_rest_cons ht) (Cursor.index_lt_of_rest_cons hu)

theorem uniform_parseWords (words : List String) : Uniform exact (Literal.parseWords words) := by
  induction words with
  | nil => exact fun s t h => .okRefl h
  | cons word words ih =>
    intro s t h
    rw [Literal.parseWords, Literal.parseWords]
    obtain ⟨hs, ht⟩ | ⟨a, ts, b, us, ha, hb, hvalue, -, hnext⟩ := h.cursor.cases
    · rw [Cursor.next?_of_rest_nil hs, Cursor.next?_of_rest_nil ht]
      exact .failedAtEnd h .notEnough
    · have hread := Matches.behind h ha hb hnext
      rw [Cursor.next?_of_rest_cons ha, Cursor.next?_of_rest_cons hb]
      dsimp only
      rw [hvalue]
      cases hread.alike with
      | ok hst =>
        split
        · exact hread.trans h.validLeft h.validRight (ih _ _ hst)
        · exact hread.trans h.validLeft h.validRight (.failedHere hst _)

theorem uniform_literal (key : String) (value : Value) (words : List String) :
    Uniform exact (literal key value words).parse := fun s t h =>
  (uniform_parseWords words s t h).andThen h.validLeft h.validRight fun _ _ h' => .okPut h' key value

/-! ## Combinators -/

theorem uniform_parseSeq {es : List Element} (h : ∀ e ∈ es, Uniform exact e.parse) :
    Uniform exact (parseSeq es) := by
  induction es with
  | nil => exact fun s t hst => .okRefl hst
  | cons e es ih =>
    intro s t hst
    exact (h e (by simp) s t hst).andThen hst.validLeft hst.validRight
      (ih fun e' he' => h e' (by simp [he']))

theorem recordDefault_cursor (e : Element) (default : Option Value) (s : State) :
    (recordDefault e default s).cursor = s.cursor := by
  unfold recordDefault
  split <;> rfl

theorem alike_recordDefault {s t : State} (h : s.Alike exact t) (e : Element)
    (default : Option Value) : (recordDefault e default s).Alike exact (recordDefault e default t) := by
  unfold recordDefault
  split
  · exact h.put _ _
  · exact h

theorem uniform_parseOptional {e : Element} (default : Option Value) (weak : Bool)
    (h : Uniform exact e.parse) : Uniform exact (parseOptional e default weak) := by
  refine .of (advances_parseOptional default weak h.advances) fun s t hst => ?_
  have he := h s t hst
  simp only [parseOptional]
  rw [← hst.cursor.hasNext]
  split
  · revert he
    generalize e.parse s = o
    generalize e.parse t = p
    intro he
    have hstays := he.stays
    cases he.alike with
    | ok h' => exact ⟨.ok h', hstays⟩
    | @failed err err' s' t' hcomplaint herror h' =>
      simp only [← h'.cursor.hasNext]
      split
      · have hback := hst.backTo he.leadsLeft he.leadsRight
        refine ⟨.ok (alike_recordDefault hback e default), ?_⟩
        simp only [Outcome.Stays, Outcome.state, recordDefault_cursor]
        exact iff_of_true (State.position_backTo hst.validLeft he.leadsLeft)
          (State.position_backTo hst.validRight he.leadsRight)
      · exact ⟨.failed hcomplaint herror h', hstays⟩
  · refine ⟨.ok (alike_recordDefault hst e default), ?_⟩
    simp [Outcome.Stays, Outcome.state, recordDefault_cursor]

/-- The attempts of an alternation all start at the place where it started. -/
theorem matches_parseFirst {start start' : State} (hstart : start.Alike exact start')
    {es : List Element} (h : ∀ e ∈ es, Uniform exact e.parse) {last last' : ParseError}
    (hcomplaint : last.complaint = last'.complaint) (herror : exact = true → last = last')
    {s t : State} (hst : s.Alike exact t) (hs : start.Leads s) (ht : start'.Leads t)
    (hsame : s.cursor.position = start.cursor.position)
    (hsame' : t.cursor.position = start'.cursor.position) :
    Matches exact start start' (parseFirst start es last s) (parseFirst start' es last' t) := by
  induction es generalizing last last' s t with
  | nil => exact ⟨hs, ht, .failed hcomplaint herror hst, iff_of_true hsame hsame'⟩
  | cons e es ih =>
    have hsOk : Matches exact start start' (.ok s) (.ok t) :=
      ⟨hs, ht, .ok hst, iff_of_true hsame hsame'⟩
    have he := hsOk.trans hstart.validLeft hstart.validRight (h e (by simp) s t hst)
    rw [parseFirst, parseFirst]
    revert he
    generalize e.parse s = o
    generalize e.parse t = p
    intro he
    have halike := he.alike
    cases halike with
    | ok h' => exact he
    | failed hcomplaint' herror' h' =>
      exact ih (fun e' he' => h e' (by simp [he'])) hcomplaint' herror'
        (hstart.backTo he.leadsLeft he.leadsRight)
        (State.leads_backTo hstart.validLeft he.leadsLeft)
        (State.leads_backTo hstart.validRight he.leadsRight)
        (State.position_backTo hstart.validLeft he.leadsLeft)
        (State.position_backTo hstart.validRight he.leadsRight)

theorem uniform_firstOf {es : List Element} (h : ∀ e ∈ es, Uniform exact e.parse) :
    Uniform exact (firstOf es).parse := by
  intro s t hst
  have hnone : (s.cursor.errorHere .noAlternatives).complaint =
      (t.cursor.errorHere .noAlternatives).complaint := rfl
  exact matches_parseFirst hst h hnone (hst.cursor.errorHere .noAlternatives) hst
    (.refl hst.validLeft) (.refl hst.validRight) rfl rfl

theorem uniform_parseAll {e : Element} (h : Uniform exact e.parse) (n : Nat) :
    Uniform exact (parseAll e n) := by
  induction n with
  | zero => exact fun s t hst => .okRefl hst
  | succ n ih =>
    intro s t hst
    have he := h s t hst
    rw [parseAll, parseAll, ← hst.cursor.hasNext]
    split
    · revert he
      generalize e.parse s = o
      generalize e.parse t = p
      intro he
      have halike := he.alike
      cases halike with
      | @ok s' t' h' =>
        have hstays : s'.cursor.position = s.cursor.position ↔
            t'.cursor.position = t.cursor.position := he.stays
        dsimp only
        by_cases hsame : s'.cursor.position = s.cursor.position
        · rw [if_pos hsame, if_pos (hstays.mp hsame)]
          exact he
        · rw [if_neg hsame, if_neg (mt hstays.mpr hsame)]
          exact he.trans hst.validLeft hst.validRight (ih s' t' h')
      | failed _ _ _ => exact he
    · exact .okRefl hst

theorem uniform_onlyOne {e : Element} (h : Uniform exact e.parse) :
    Uniform exact (onlyOne e).parse := by
  intro s t hst
  refine (h s t hst).andThen hst.validLeft hst.validRight fun s' t' h' => ?_
  rw [h'.context]
  split
  · split
    · exact .failedHere h' _
    · exact .okRefl h'
  · exact .okRefl h'

end Element

/-! ## Flags -/

namespace Flags

variable {f : Flags}

theorem tokensAlike_inline {s t : State} (h : s.Alike exact t) {a b : Token}
    (hab : exact = true → a = b) (value : String) :
    (inlineCursor s.cursor a value).Alike exact (inlineCursor t.cursor b value) := by
  refine Cursor.alike_ofTokens ⟨rfl, fun he => ?_⟩ fun he => (h.cursor.same he).1
  rw [hab he, (h.cursor.same he).1]

theorem matches_onCursor {s t : State} {o p : Outcome} {c d : Cursor} (h : o.Alike exact p)
    (hs : s.context.Extends o.state.context) (ht : t.context.Extends p.state.context)
    (hc : s.cursor.Follows c) (hd : t.cursor.Follows d) (hcd : c.Alike exact d)
    (hstays : c.position = s.cursor.position ↔ d.position = t.cursor.position) :
    Matches exact s t (onCursor c o) (onCursor d p) := by
  refine ⟨leads_onCursor hc hs, leads_onCursor hd ht, ?_, ?_⟩
  · cases h with
    | ok h' => exact .ok ⟨hc.valid, hd.valid, hcd, h'.context⟩
    | failed hcomplaint herror h' =>
      exact .failed hcomplaint herror ⟨hc.valid, hd.valid, hcd, h'.context⟩
  · cases h <;> exact hstays

theorem uniform_string (name : String) : Uniform exact (Element.string name).parse :=
  Element.uniform_leaf name (Element.follows_ofToken _ _) (Element.readAlike_ofToken _ _)

theorem matches_parseLong (hlong : ∀ d ∈ f.long, Uniform exact d.2.parse) (name : String)
    (inline : Option String) {a b : Token} (hab : exact = true → a = b) {s t : State}
    (h : s.Alike exact t) :
    Matches exact s t (f.parseLong name inline a s) (f.parseLong name inline b t) := by
  unfold parseLong
  split
  · next e he =>
    obtain ⟨d, hd, rfl⟩ := OrderedMap.mem_of_get? he
    exact hlong d hd s t h
  · next e value he =>
    obtain ⟨d, hd, rfl⟩ := OrderedMap.mem_of_get? he
    have hvalue := hlong d hd ⟨inlineCursor s.cursor a value, s.context⟩
      ⟨inlineCursor t.cursor b value, t.context⟩ ⟨Cursor.valid_ofTokens _ _,
        Cursor.valid_ofTokens _ _, tokensAlike_inline h hab value, h.context⟩
    exact matches_onCursor hvalue.alike hvalue.leadsLeft.context hvalue.leadsRight.context
      (.refl h.validLeft) (.refl h.validRight) h.cursor (iff_of_true rfl rfl)
  · split
    · exact .failedHere h _
    · exact .okRefl h
    · exact .okPut h _ _
    · exact .okPut h _ _
    · exact .okPut h _ _
    · exact uniform_string name s t h

theorem uniform_parseShort (hshort : ∀ d ∈ f.short, Uniform exact d.2.parse) (name : Char) :
    Uniform exact (f.parseShort name) := by
  intro s t h
  unfold parseShort
  split
  · next e he =>
    obtain ⟨d, hd, rfl⟩ := OrderedMap.mem_of_get? he
    exact hshort d hd s t h
  · split
    · exact .failedHere h _
    · exact .okRefl h
    · exact .okPut h _ _
    · exact uniform_string _ s t h

theorem uniform_parseGroup (hshort : ∀ d ∈ f.short, Uniform exact d.2.parse) (group : List Char) :
    Uniform exact (f.parseGroup group) := by
  induction group with
  | nil => exact fun s t h => .okRefl h
  | cons c cs ih =>
    exact fun s t h =>
      (uniform_parseShort hshort c s t h).andThen h.validLeft h.validRight ih

theorem matches_scan (hshort : ∀ d ∈ f.short, Uniform exact d.2.parse)
    (hlong : ∀ d ∈ f.long, Uniform exact d.2.parse) (n : Nat) {s t : State} (h : s.Alike exact t) :
    Matches exact s t (f.scan n s).1 (f.scan n t).1 ∧
      TokensAlike exact (f.scan n s).2 (f.scan n t).2 := by
  induction n generalizing s t with
  | zero => exact ⟨.okRefl h, rfl, fun _ => rfl⟩
  | succ n ih =>
    obtain ⟨hs, ht⟩ | ⟨a, ts, b, us, ha, hb, hvalue, hab, hnext⟩ := h.cursor.cases
    · rw [scan_of_rest_nil _ hs, scan_of_rest_nil _ ht]
      exact ⟨.okRefl h, rfl, fun _ => rfl⟩
    · have hread := Matches.behind h ha hb hnext
      have hbehind : s.behind.Alike exact t.behind :=
        ⟨h.validLeft.behind ha, h.validRight.behind hb, hnext, h.context⟩
      have hafter : ∀ o p : Outcome, Matches exact s.behind t.behind o p →
          Matches exact s t (f.scanAfter n o).1 (f.scanAfter n p).1 ∧
            TokensAlike exact (f.scanAfter n o).2 (f.scanAfter n p).2 := by
        intro o p hop
        have hall := hread.trans h.validLeft h.validRight hop
        have halike := hop.alike
        cases halike with
        | ok h' => exact ⟨hall.trans h.validLeft h.validRight (ih h').1, (ih h').2⟩
        | failed _ _ _ => exact ⟨hall, rfl, fun _ => rfl⟩
      rw [scan_of_rest_cons n ha, scan_of_rest_cons n hb, hvalue]
      split
      · split
        · exact ⟨.okRefl h, rfl, fun _ => rfl⟩
        · obtain ⟨hlater, htokens, hsame⟩ := ih hbehind
          refine ⟨hread.trans h.validLeft h.validRight hlater, ?_, fun he => ?_⟩
          · simp only [List.map_cons, hvalue, htokens]
          · rw [hab he, hsame he]
      · exact hafter _ _ (matches_parseLong hlong _ _ hab hbehind)
      · exact hafter _ _ (uniform_parseGroup hshort _ _ _ hbehind)

theorem uniform_parse (hshort : ∀ d ∈ f.short, Uniform exact d.2.parse)
    (hlong : ∀ d ∈ f.long, Uniform exact d.2.parse) {child : Element}
    (hchild : Uniform exact child.parse) : Uniform exact (f.parse child) := by
  intro s t h
  have hshort' := fun d hd => (hshort d hd).advances
  have hlong' := fun d hd => (hlong d hd).advances
  obtain ⟨hscan, htokens⟩ := matches_scan hshort hlong s.cursor.remaining h
  have hsub := (leads_scan hshort' hlong' s.cursor.remaining s h.validLeft).2
  have hsub' := (leads_scan hshort' hlong' s.cursor.remaining t h.validRight).2
  unfold parse
  rw [← h.cursor.remaining]
  revert hscan htokens hsub hsub'
  generalize f.scan s.cursor.remaining s = a
  generalize f.scan s.cursor.remaining t = b
  obtain ⟨o, ts⟩ := a
  obtain ⟨p, us⟩ := b
  intro hscan htokens hsub hsub'
  dsimp only at hscan htokens hsub hsub' ⊢
  have halike := hscan.alike
  cases halike with
  | failed _ _ _ => exact hscan
  | @ok s' t' h' =>
    dsimp only [Outcome.andThen]
    split
    · exact hscan.trans h.validLeft h.validRight (hchild s' t' h')
    · -- the child reads the positional tokens, and what it leaves is spliced in
      have hinner := hchild ⟨s'.cursor.onTokens ts, s'.context⟩ ⟨t'.cursor.onTokens us, t'.context⟩
        ⟨Cursor.valid_ofTokens _ _, Cursor.valid_ofTokens _ _,
          Cursor.alike_ofTokens htokens fun he => (h'.cursor.same he).1, h'.context⟩
      have hleft : (child.parse ⟨s'.cursor.onTokens ts, s'.context⟩).state.cursor.Alike exact
          (child.parse ⟨t'.cursor.onTokens us, t'.context⟩).state.cursor := hinner.alike.cursor
      refine matches_onCursor hinner.alike (hscan.leadsLeft.context.trans hinner.leadsLeft.context)
        (hscan.leadsRight.context.trans hinner.leadsRight.context)
        (follows_handBack hscan.leadsLeft hsub hinner.leadsLeft.cursor)
        (follows_handBack hscan.leadsRight hsub' hinner.leadsRight.cursor) ?_ ?_
      · rw [← hleft.hasNext]
        split
        · exact h.cursor.splice h'.cursor hleft.tokensAlike_rest
        · exact h'.cursor
      · rw [← hleft.hasNext]
        split
        · -- a spliced view is new, so its number is not the one of the start
          have hlt := h.validLeft.view_lt
          have hlt' := h.validRight.view_lt
          have hle := hscan.leadsLeft.cursor.views.length_le
          have hle' := hscan.leadsRight.cursor.views.length_le
          simp only [Outcome.state] at hle hle'
          simp only [Cursor.position, Cursor.splice, Cursor.Position.mk.injEq]
          omega
        · exact hscan.stays

end Flags

/-! ## All grammars -/

theorem Element.Built.uniform {exact : Bool} {e : Element} (h : Built exact e) :
    Uniform exact e.parse := by
  induction h with
  | none => exact fun s t h => .okRefl h
  | markTrue key => exact fun s t h => .okPut h key _
  | token h =>
    obtain ⟨key, convert, complete, rfl, -⟩ := h.eq_leaf
    exact uniform_leaf key (follows_ofToken convert complete) (readAlike_ofToken convert complete)
  | literal key value words => exact uniform_literal key value words
  | rest key => exact uniform_leaf key follows_joined readAlike_joined
  | rawRest key h =>
    subst h
    exact uniform_leaf key (fun c hc _ => .toEnd hc) readAlike_rawJoined
  | seq _ ih => exact uniform_parseSeq ih
  | optional default weak _ ih => exact uniform_parseOptional default weak ih
  | firstOf _ ih => exact uniform_firstOf ih
  | times n _ ih => exact uniform_parseSeq fun e he => (List.eq_of_mem_replicate he) ▸ ih
  | allOf n _ ih =>
    intro s t h
    have hall := uniform_parseAll ih (s.cursor.remaining + 1 + n) s t h
    simp only [Element.allOf, ofStep, ← h.cursor.remaining]
    exact hall
  | onlyOne _ ih => exact uniform_onlyOne ih
  | flags _ _ _ hshort hlong hchild => exact Flags.uniform_parse hshort hlong hchild

end ArgGrammar
