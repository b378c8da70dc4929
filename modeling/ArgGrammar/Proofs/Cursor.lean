import ArgGrammar.Cursor

/-!
# The places that a cursor goes through

* `Cursor.Valid`: the view exists and the index lies in it. This holds of a cursor over the tokens of
  a line, and reading, going to any place and replacing what is left keep it.
* `Cursor.Follows c d`: all that a parse can do to a cursor `c`. Views are only added, the place
  either moves forward in its view or goes to a view that is new, the tokens behind `c` stay, and
  what is left at `d` is left at `c`, in the same order.
* `restore_position`: going back to a place after any of this gives the tokens and the index of
  that moment.

`Follows` is the step lemma of everything below: each element is shown to follow from where it
started, and then restoring, comparing and splicing places need no look at what ran in between.
-/

namespace ArgGrammar.Cursor

/-- The view exists, and the index lies in it. -/
structure Valid (c : Cursor) : Prop where
  view_lt : c.view < c.views.length
  index_le : c.index ≤ c.tokens.length

/-! ## Reading -/

theorem valid_ofTokens (raw : String) (ts : List Token) : (ofTokens raw ts).Valid :=
  ⟨by simp [ofTokens], by simp [ofTokens]⟩

@[simp] theorem rest_ofTokens (raw : String) (ts : List Token) : (ofTokens raw ts).rest = ts := by
  simp [rest, ofTokens, tokens]

theorem remaining_eq (c : Cursor) : c.remaining = c.rest.length := by
  simp [remaining, rest]

theorem hasNext_iff (c : Cursor) : c.hasNext = true ↔ c.rest ≠ [] := by
  simp [hasNext, rest]

theorem hasNext_eq_false_iff (c : Cursor) : c.hasNext = false ↔ c.rest = [] := by
  simp [hasNext, rest]

theorem hasNext_of_rest_cons {c : Cursor} {t : Token} {ts : List Token} (h : c.rest = t :: ts) :
    c.hasNext = true := by
  rw [hasNext_iff, h]
  exact List.cons_ne_nil t ts

/-- The cursor behind the next token. -/
def behind (c : Cursor) : Cursor := { c with index := c.index + 1 }

theorem rest_behind {c : Cursor} {t : Token} {ts : List Token} (h : c.rest = t :: ts) :
    c.behind.rest = ts := by
  show c.tokens.drop (c.index + 1) = ts
  rw [← List.tail_drop]
  exact congrArg List.tail h

theorem next?_of_rest_nil {c : Cursor} (h : c.rest = []) : c.next? = none := by
  have hlen : c.tokens.length ≤ c.index := List.drop_eq_nil_iff.mp h
  simp [next?, hlen]

theorem next?_of_rest_cons {c : Cursor} {t : Token} {ts : List Token} (h : c.rest = t :: ts) :
    c.next? = some (t, c.behind) := by
  have hget : c.tokens[c.index]? = some t := by
    rw [← List.head?_drop]
    exact congrArg List.head? h
  simp [next?, hget, behind]

theorem index_lt_of_rest_cons {c : Cursor} {t : Token} {ts : List Token} (h : c.rest = t :: ts) :
    c.index < c.tokens.length := by
  simpa [hasNext] using hasNext_of_rest_cons h

theorem Valid.behind {c : Cursor} (hc : c.Valid) {t : Token} {ts : List Token}
    (h : c.rest = t :: ts) : c.behind.Valid :=
  ⟨hc.view_lt, index_lt_of_rest_cons h⟩

/-! ## Views -/

theorem tokens_eq_of_views {c d : Cursor} (hc : c.Valid) (hviews : c.views <+: d.views)
    (hview : d.view = c.view) : d.tokens = c.tokens := by
  obtain ⟨more, hmore⟩ := hviews
  simp only [tokens, hview, ← hmore, List.getD_eq_getElem?_getD]
  rw [List.getElem?_append_left hc.view_lt]

theorem restore_position {c d : Cursor} (hc : c.Valid) (hviews : c.views <+: d.views) :
    d.restore c.position = { d with view := c.view, index := c.index } := by
  have hlt : c.position.view < d.views.length := Nat.lt_of_lt_of_le hc.view_lt hviews.length_le
  have htokens : ({ d with view := c.position.view } : Cursor).tokens = c.tokens :=
    tokens_eq_of_views hc hviews rfl
  have hmin : min c.position.index c.tokens.length = c.index := Nat.min_eq_left hc.index_le
  simp only [restore, if_pos hlt, htokens, hmin]
  rfl

theorem tokens_restore_position {c d : Cursor} (hc : c.Valid) (hviews : c.views <+: d.views) :
    (d.restore c.position).tokens = c.tokens := by
  rw [restore_position hc hviews]
  exact tokens_eq_of_views hc hviews rfl

theorem restore_self {c : Cursor} (hc : c.Valid) : c.restore c.position = c :=
  restore_position hc List.prefix_rfl

/-- The cursor at another index of its view. -/
def moveTo (c : Cursor) (i : Nat) : Cursor := { c with index := i }

theorem rest_moveTo (c : Cursor) (i : Nat) : (c.moveTo i).rest = c.tokens.drop i := rfl

theorem Valid.moveTo {c : Cursor} (hc : c.Valid) {i : Nat} (hi : i ≤ c.tokens.length) :
    (c.moveTo i).Valid := ⟨hc.view_lt, hi⟩

theorem restore_moveTo {c : Cursor} (hc : c.Valid) (j : Nat) {p : Position}
    (hview : p.view = c.view) (hindex : p.index ≤ c.tokens.length) :
    (c.moveTo j).restore p = c.moveTo p.index := by
  have hplace : p = (c.moveTo p.index).position := by
    rw [position, moveTo, ← hview]
  have hviews : (c.moveTo p.index).views <+: (c.moveTo j).views := List.prefix_rfl
  calc (c.moveTo j).restore p
      = (c.moveTo j).restore (c.moveTo p.index).position := by rw [← hplace]
    _ = c.moveTo p.index := restore_position (hc.moveTo hindex) hviews

theorem Valid.restore {c : Cursor} (hc : c.Valid) (p : Position) : (c.restore p).Valid := by
  rw [Cursor.restore]
  refine ⟨?_, Nat.min_le_right _ _⟩
  split
  · next hview => exact hview
  · exact hc.view_lt

theorem tokens_splice (c : Cursor) (p : Position) (ts : List Token) :
    (c.splice p ts).tokens = c.tokens.take (min p.index c.tokens.length) ++ ts := by
  simp [Cursor.splice, tokens]

theorem rest_splice (c : Cursor) (p : Position) (ts : List Token) : (c.splice p ts).rest = ts := by
  rw [rest, tokens_splice]
  show (c.tokens.take (min p.index c.tokens.length) ++ ts).drop (min p.index c.tokens.length) = ts
  have hlen : (c.tokens.take (min p.index c.tokens.length)).length = min p.index c.tokens.length := by
    simp
  rw [List.drop_append_of_le_length (Nat.le_of_eq hlen.symm),
    List.drop_eq_nil_of_le (Nat.le_of_eq hlen), List.nil_append]

theorem valid_splice (c : Cursor) (p : Position) (ts : List Token) : (c.splice p ts).Valid := by
  refine ⟨by simp [Cursor.splice], ?_⟩
  rw [tokens_splice, List.length_append, List.length_take]
  show min p.index c.tokens.length ≤ _
  omega

/-! ## What a parse does to a cursor -/

/-- The cursor `d` can be reached from `c` by parsing. -/
structure Follows (c d : Cursor) : Prop where
  raw_eq : d.raw = c.raw
  views : c.views <+: d.views
  valid : d.Valid
  place : d.view = c.view ∨ c.views.length ≤ d.view
  index_le : c.index ≤ d.index
  before : d.tokens.take c.index = c.tokens.take c.index
  rest : d.rest.Sublist c.rest

/-- The cursor `d` is over the line of `c`, and has its views and maybe more. -/
structure Grown (c d : Cursor) : Prop where
  raw_eq : d.raw = c.raw
  views : c.views <+: d.views
  valid : d.Valid

theorem Grown.refl {c : Cursor} (hc : c.Valid) : c.Grown c := ⟨rfl, List.prefix_rfl, hc⟩

theorem Grown.trans {c d e : Cursor} (hcd : c.Grown d) (hde : d.Grown e) : c.Grown e :=
  ⟨hde.raw_eq.trans hcd.raw_eq, hcd.views.trans hde.views, hde.valid⟩

theorem Grown.back {c d : Cursor} (hc : c.Valid) (h : c.Grown d) :
    c.Follows (d.restore c.position) := by
  have htokens := tokens_restore_position hc h.views
  rw [restore_position hc h.views] at htokens ⊢
  exact ⟨h.raw_eq, h.views, ⟨Nat.lt_of_lt_of_le hc.view_lt h.views.length_le, htokens ▸ hc.index_le⟩,
    .inl rfl, Nat.le_refl _, by rw [htokens], by rw [Cursor.rest, htokens]; exact .refl _⟩

namespace Follows

theorem refl {c : Cursor} (hc : c.Valid) : c.Follows c :=
  ⟨rfl, List.prefix_rfl, hc, .inl rfl, Nat.le_refl _, rfl, .refl _⟩

theorem trans {c d e : Cursor} (hcd : c.Follows d) (hde : d.Follows e) : c.Follows e where
  raw_eq := hde.raw_eq.trans hcd.raw_eq
  views := hcd.views.trans hde.views
  valid := hde.valid
  place := by
    have hle := hcd.views.length_le
    rcases hde.place with h | h
    · rw [h]; exact hcd.place
    · exact .inr (by omega)
  index_le := Nat.le_trans hcd.index_le hde.index_le
  before := by
    have h := congrArg (List.take c.index) hde.before
    simp only [List.take_take, Nat.min_eq_left hcd.index_le] at h
    exact h.trans hcd.before
  rest := hde.rest.trans hcd.rest

theorem ofIndex {c : Cursor} (hc : c.Valid) {i : Nat} (hlow : c.index ≤ i)
    (hhigh : i ≤ c.tokens.length) : c.Follows { c with index := i } where
  raw_eq := rfl
  views := List.prefix_rfl
  valid := ⟨hc.view_lt, hhigh⟩
  place := .inl rfl
  index_le := hlow
  before := rfl
  rest := List.drop_sublist_drop_left c.tokens hlow

theorem behind {c : Cursor} (hc : c.Valid) {t : Token} {ts : List Token} (h : c.rest = t :: ts) :
    c.Follows c.behind :=
  ofIndex hc (Nat.le_succ _) (index_lt_of_rest_cons h)

theorem toEnd {c : Cursor} (hc : c.Valid) : c.Follows { c with index := c.tokens.length } :=
  ofIndex hc hc.index_le (Nat.le_refl _)

theorem grown {c d : Cursor} (h : c.Follows d) : c.Grown d := ⟨h.raw_eq, h.views, h.valid⟩

theorem back {c d : Cursor} (hc : c.Valid) (h : c.Follows d) :
    c.Follows (d.restore c.position) :=
  h.grown.back hc

theorem index_splice {c d : Cursor} (h : c.Follows d) (ts : List Token) :
    (d.splice c.position ts).index = c.index :=
  Nat.min_eq_left (Nat.le_trans h.index_le h.valid.index_le)

theorem tokens_splice {c d : Cursor} (h : c.Follows d) (ts : List Token) :
    (d.splice c.position ts).tokens = c.tokens.take c.index ++ ts := by
  have hkeep : min c.index d.tokens.length = c.index := h.index_splice ts
  rw [Cursor.tokens_splice, ← h.before]
  exact congrArg (fun n => d.tokens.take n ++ ts) hkeep

theorem splice {c d : Cursor} (h : c.Follows d) {ts : List Token} (hts : ts.Sublist c.rest) :
    c.Follows (d.splice c.position ts) := by
  have hlen : (c.tokens.take c.index).length = c.index := by
    rw [← h.before, List.length_take]
    exact h.index_splice ts
  refine ⟨h.raw_eq, h.views.trans (List.prefix_append _ _), valid_splice d c.position ts,
    .inr h.views.length_le, Nat.le_of_eq (h.index_splice ts).symm, ?_, ?_⟩
  · rw [h.tokens_splice, List.take_append_of_le_length (Nat.le_of_eq hlen.symm), List.take_take,
      Nat.min_self]
  · rw [rest_splice]
    exact hts

theorem position_eq {c d e : Cursor} (hc : c.Valid) (hcd : c.Follows d) (hde : d.Follows e)
    (h : e.position = c.position) : d.position = c.position := by
  obtain ⟨hview, hindex⟩ : e.view = c.view ∧ e.index = c.index := by
    simpa [position] using h
  have hlt := hc.view_lt
  have hle := hcd.views.length_le
  have hcd' := hcd.index_le
  have hde' := hde.index_le
  have hsame : d.view = c.view := by
    rcases hcd.place with h1 | h1
    · exact h1
    · rcases hde.place with h2 | h2 <;> omega
  simp only [position, hsame, Position.mk.injEq, true_and]
  omega

theorem rest_eq {c d : Cursor} (hc : c.Valid) (h : c.Follows d) (hpos : d.position = c.position) :
    d.rest = c.rest := by
  obtain ⟨hview, hindex⟩ : d.view = c.view ∧ d.index = c.index := by
    simpa [position] using hpos
  rw [Cursor.rest, Cursor.rest, tokens_eq_of_views hc h.views hview, hindex]

end Follows

end ArgGrammar.Cursor
