import ArgGrammar.Proofs.Grammar

/-!
# Two runs over the same tokens

A simulation between two runs of one grammar, on cursors with different histories.

* `Cursor.Alike exact c d`: the tokens left at `c` and at `d` have the same values. With `exact` the
  two cursors are moreover at the same index of the same tokens of the same line; only the views
  that are out of sight may differ.
* `Outcome.Alike exact o p`: both outcomes are a success or both are a failure for the same reason
  (with `exact`, the same error), with equal contexts and cursors that are again alike.
* `Uniform exact parse`: from states that are alike, `parse` gives outcomes that are alike, and it
  comes to rest where it started on both sides or on neither. The last part is what repetition
  compares.
* `Built.uniform`: every grammar is uniform; those that record the rest of the line as it was
  written, for `exact` runs.

Places themselves are never compared between the two runs: their numbers depend on the history. Each
run compares its own places with its own, and `Cursor.Follows` says what it finds.
-/

namespace ArgGrammar

/-! ## States and outcomes that are alike -/

/-- Lists of tokens with the same values; with `exact`, the same list. -/
def TokensAlike (exact : Bool) (ts us : List Token) : Prop :=
  ts.map (·.value) = us.map (·.value) ∧ (exact = true → ts = us)

/-- Cursors with the same values left to read; with `exact`, at the same index of the same tokens. -/
structure Cursor.Alike (exact : Bool) (c d : Cursor) : Prop where
  values : c.rest.map (·.value) = d.rest.map (·.value)
  same : exact = true → c.raw = d.raw ∧ c.tokens = d.tokens ∧ c.index = d.index

/-- Valid states with equal contexts and cursors that are alike. -/
structure State.Alike (exact : Bool) (s t : State) : Prop where
  validLeft : s.cursor.Valid
  validRight : t.cursor.Valid
  cursor : s.cursor.Alike exact t.cursor
  context : s.context = t.context

/-- Two successes or two failures for the same reason, in states that are alike. -/
inductive Outcome.Alike (exact : Bool) : Outcome → Outcome → Prop where
  | ok {s t : State} (h : s.Alike exact t) : Outcome.Alike exact (.ok s) (.ok t)
  | failed {e e' : ParseError} {s t : State} (hcomplaint : e.complaint = e'.complaint)
      (herror : exact = true → e = e') (h : s.Alike exact t) :
      Outcome.Alike exact (.failed e s) (.failed e' t)

/-- The outcome is at the place where the parse started. -/
def Outcome.Stays (s : State) (o : Outcome) : Prop := o.state.cursor.position = s.cursor.position

/-- What two runs from `s` and from `t` have in common. -/
structure Matches (exact : Bool) (s t : State) (o p : Outcome) : Prop where
  leadsLeft : s.Leads o.state
  leadsRight : t.Leads p.state
  alike : o.Alike exact p
  stays : o.Stays s ↔ p.Stays t

/-- From states that are alike, the parse does the same. -/
def Uniform (exact : Bool) (parse : State → Outcome) : Prop :=
  ∀ s t : State, s.Alike exact t → Matches exact s t (parse s) (parse t)

namespace Cursor

variable {exact : Bool} {c d c' d' : Cursor}

theorem Alike.refl (exact : Bool) (c : Cursor) : c.Alike exact c :=
  ⟨rfl, fun _ => ⟨rfl, rfl, rfl⟩⟩

theorem alike_ofTokens {raw raw' : String} {ts us : List Token} (h : TokensAlike exact ts us)
    (hraw : exact = true → raw = raw') : (ofTokens raw ts).Alike exact (ofTokens raw' us) where
  values := by simpa using h.1
  same he := ⟨hraw he, h.2 he, rfl⟩

theorem Alike.cases (h : c.Alike exact d) :
    (c.rest = [] ∧ d.rest = []) ∨
      ∃ t ts u us, c.rest = t :: ts ∧ d.rest = u :: us ∧ t.value = u.value ∧
        (exact = true → t = u) ∧
        c.behind.Alike exact d.behind := by
  have hvalues := h.values
  cases hc : c.rest with
  | nil =>
    rw [hc] at hvalues
    exact .inl ⟨rfl, List.map_eq_nil_iff.mp hvalues.symm⟩
  | cons t ts =>
    cases hd : d.rest with
    | nil => simp [hc, hd] at hvalues
    | cons u us =>
      simp only [hc, hd, List.map_cons, List.cons.injEq] at hvalues
      refine .inr ⟨t, ts, u, us, rfl, rfl, hvalues.1, fun he => ?_, ?_, fun he => ?_⟩
      · obtain ⟨-, htokens, hindex⟩ := h.same he
        have hrest : c.rest = d.rest := by rw [rest, rest, htokens, hindex]
        rw [hc, hd] at hrest
        exact (List.cons.inj hrest).1
      · rw [rest_behind hc, rest_behind hd]
        exact hvalues.2
      · obtain ⟨hraw, htokens, hindex⟩ := h.same he
        exact ⟨hraw, htokens, congrArg (· + 1) hindex⟩

theorem Alike.rest_length (h : c.Alike exact d) : c.rest.length = d.rest.length := by
  simpa using congrArg List.length h.values

theorem Alike.remaining (h : c.Alike exact d) : c.remaining = d.remaining := by
  rw [remaining_eq, remaining_eq, h.rest_length]

theorem Alike.hasNext (h : c.Alike exact d) : c.hasNext = d.hasNext := by
  rw [Bool.eq_iff_iff, hasNext_iff, hasNext_iff, ← List.length_pos_iff, ← List.length_pos_iff,
    h.rest_length]

theorem Alike.tokensAlike_rest (h : c.Alike exact d) : TokensAlike exact c.rest d.rest := by
  refine ⟨h.values, fun he => ?_⟩
  obtain ⟨-, htokens, hindex⟩ := h.same he
  rw [rest, rest, htokens, hindex]

theorem Alike.errorHere (h : c.Alike exact d) (complaint : Complaint) (he : exact = true) :
    c.errorHere complaint = d.errorHere complaint := by
  obtain ⟨hraw, htokens, hindex⟩ := h.same he
  simp only [Cursor.errorHere, errorPosition, hraw, htokens, hindex]

theorem Alike.errorAtEnd (h : c.Alike exact d) (complaint : Complaint) (he : exact = true) :
    c.errorAtEnd complaint = d.errorAtEnd complaint := by
  simp only [Cursor.errorAtEnd, (h.same he).1]

theorem rest_toEnd (c : Cursor) : ({ c with index := c.tokens.length } : Cursor).rest = [] :=
  List.drop_length

theorem Alike.toEnd (h : c.Alike exact d) :
    Cursor.Alike exact { c with index := c.tokens.length } { d with index := d.tokens.length } := by
  refine ⟨by rw [rest_toEnd, rest_toEnd], fun he => ?_⟩
  obtain ⟨hraw, htokens, -⟩ := h.same he
  exact ⟨hraw, htokens, congrArg List.length htokens⟩

theorem Alike.restore (hc : c.Valid) (hd : d.Valid) (h : c.Alike exact d) (hcc : c.Follows c')
    (hdd : d.Follows d') : (c'.restore c.position).Alike exact (d'.restore d.position) := by
  have htc := tokens_restore_position hc hcc.views
  have htd := tokens_restore_position hd hdd.views
  rw [restore_position hc hcc.views] at htc ⊢
  rw [restore_position hd hdd.views] at htd ⊢
  refine ⟨?_, fun he => ?_⟩
  · rw [rest, rest, htc, htd]
    exact h.values
  · obtain ⟨hraw, htokens, hindex⟩ := h.same he
    exact ⟨by rw [hcc.raw_eq, hdd.raw_eq, hraw], by rw [htc, htd, htokens], hindex⟩

theorem Alike.splice (h : c.Alike exact d) (h' : c'.Alike exact d') {ts us : List Token}
    (hts : TokensAlike exact ts us) :
    (c'.splice c.position ts).Alike exact (d'.splice d.position us) := by
  refine ⟨by rw [rest_splice, rest_splice]; exact hts.1, fun he => ?_⟩
  obtain ⟨-, -, hindex⟩ := h.same he
  obtain ⟨hraw, htokens, -⟩ := h'.same he
  have hpos : c.position.index = d.position.index := hindex
  refine ⟨hraw, ?_, ?_⟩
  · rw [tokens_splice, tokens_splice, htokens, hpos, hts.2 he]
  · simp only [Cursor.splice, htokens, hpos]

end Cursor

/-! ## Composing runs -/

variable {exact : Bool} {s t : State} {o p : Outcome}

theorem State.Alike.refl (exact : Bool) {s : State} (hs : s.cursor.Valid) : s.Alike exact s :=
  ⟨hs, hs, .refl _ _, rfl⟩

theorem State.Alike.put (h : s.Alike exact t) (key : String) (v : Value) :
    (s.put key v).Alike exact (t.put key v) :=
  ⟨h.validLeft, h.validRight, h.cursor, by simp only [State.put, h.context]⟩

theorem State.Alike.backTo (h : s.Alike exact t) {s' t' : State} (hs : s.Leads s')
    (ht : t.Leads t') : (s'.backTo s).Alike exact (t'.backTo t) where
  validLeft := (State.leads_backTo h.validLeft hs).cursor.valid
  validRight := (State.leads_backTo h.validRight ht).cursor.valid
  cursor := h.cursor.restore h.validLeft h.validRight hs.cursor ht.cursor
  context := by rw [State.context_backTo hs, State.context_backTo ht, h.context]

theorem Outcome.Alike.cursor (h : o.Alike exact p) :
    o.state.cursor.Alike exact p.state.cursor := by
  cases h with
  | ok h' => exact h'.cursor
  | failed _ _ h' => exact h'.cursor

theorem Uniform.advances {parse : State → Outcome} (h : Uniform exact parse) : Advances parse :=
  fun s hs => (h s s (.refl exact hs)).leadsLeft

theorem Uniform.of {parse : State → Outcome} (ha : Advances parse)
    (h : ∀ s t : State, s.Alike exact t →
      (parse s).Alike exact (parse t) ∧ ((parse s).Stays s ↔ (parse t).Stays t)) :
    Uniform exact parse := fun s t hst =>
  ⟨ha s hst.validLeft, ha t hst.validRight, (h s t hst).1, (h s t hst).2⟩

theorem Matches.okRefl (h : s.Alike exact t) : Matches exact s t (.ok s) (.ok t) :=
  ⟨.refl h.validLeft, .refl h.validRight, .ok h, by simp [Outcome.Stays, Outcome.state]⟩

theorem Matches.okPut (h : s.Alike exact t) (key : String) (v : Value) :
    Matches exact s t (.ok (s.put key v)) (.ok (t.put key v)) :=
  ⟨State.leads_put h.validLeft key v, State.leads_put h.validRight key v, .ok (h.put key v),
    by simp [Outcome.Stays, Outcome.state, State.put]⟩

theorem Matches.failedHere (h : s.Alike exact t) (complaint : Complaint) :
    Matches exact s t (.failed (s.cursor.errorHere complaint) s)
      (.failed (t.cursor.errorHere complaint) t) :=
  ⟨.refl h.validLeft, .refl h.validRight, .failed rfl (h.cursor.errorHere complaint) h,
    by simp [Outcome.Stays, Outcome.state]⟩

theorem Matches.failedAtEnd (h : s.Alike exact t) (complaint : Complaint) :
    Matches exact s t (.failed (s.cursor.errorAtEnd complaint) s)
      (.failed (t.cursor.errorAtEnd complaint) t) :=
  ⟨.refl h.validLeft, .refl h.validRight, .failed rfl (h.cursor.errorAtEnd complaint) h,
    by simp [Outcome.Stays, Outcome.state]⟩

theorem stays_trans {s s' : State} {o : Outcome} (hs : s.cursor.Valid) (h : s.Leads s')
    (ho : s'.Leads o.state) : o.Stays s ↔ (Outcome.ok s').Stays s ∧ o.Stays s' := by
  constructor
  · intro hstay
    have hfirst : s'.cursor.position = s.cursor.position :=
      h.cursor.position_eq hs ho.cursor hstay
    exact ⟨hfirst, hstay.trans hfirst.symm⟩
  · rintro ⟨hfirst, hstay⟩
    exact hstay.trans hfirst

theorem Matches.trans {s' t' : State} (hs : s.cursor.Valid) (ht : t.cursor.Valid)
    (h : Matches exact s t (.ok s') (.ok t')) (h' : Matches exact s' t' o p) :
    Matches exact s t o p where
  leadsLeft := h.leadsLeft.trans h'.leadsLeft
  leadsRight := h.leadsRight.trans h'.leadsRight
  alike := h'.alike
  stays := by
    have hleft : o.Stays s ↔ (Outcome.ok s').Stays s ∧ o.Stays s' :=
      stays_trans hs h.leadsLeft h'.leadsLeft
    have hright : p.Stays t ↔ (Outcome.ok t').Stays t ∧ p.Stays t' :=
      stays_trans ht h.leadsRight h'.leadsRight
    rw [hleft, hright, h.stays, h'.stays]

theorem Matches.andThen {f : State → Outcome} (hs : s.cursor.Valid) (ht : t.cursor.Valid)
    (h : Matches exact s t o p) (hf : Uniform exact f) :
    Matches exact s t (o.andThen f) (p.andThen f) := by
  have halike := h.alike
  cases halike with
  | ok hst => exact h.trans hs ht (hf _ _ hst)
  | failed _ _ _ => exact h

theorem Matches.behind (h : s.Alike exact t) {a b : Token} {ts us : List Token}
    (ha : s.cursor.rest = a :: ts) (hb : t.cursor.rest = b :: us)
    (hcursor : s.cursor.behind.Alike exact t.cursor.behind) :
    Matches exact s t (.ok s.behind) (.ok t.behind) where
  leadsLeft := State.leads_behind h.validLeft ha
  leadsRight := State.leads_behind h.validRight hb
  alike := .ok ⟨h.validLeft.behind ha, h.validRight.behind hb, hcursor, h.context⟩
  stays := by simp [Outcome.Stays, Outcome.state, Cursor.position, State.behind, Cursor.behind]

end ArgGrammar
