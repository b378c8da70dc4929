import ArgGrammar.Proofs.Cursor

/-!
# Runs of a cursor

Whatever is asked of a cursor, in whatever order and with whatever places, it stays at an index of a
view that exists, and a place it went through can be gone back to.

* `Cursor.Move`, `Cursor.perform`, `Cursor.run`: what can be asked of a cursor, one step and a run.
* `Cursor.Valid.perform`, `Cursor.views_perform`: what one step keeps; `Cursor.Valid.run` and
  `Cursor.views_run` say it of a run.
* `Cursor.WithCopy`: a cursor that holds a copy of the tokens in view and reads the copy.
  `Cursor.perform_withCopy` says that the copy is never out of date.
* `Cursor.run_keeps_places`: what holds along every run.
-/

namespace ArgGrammar.Cursor

/-- What can be asked of a cursor. The places and the tokens are arbitrary: they may come from
another cursor. -/
inductive Move where
  /-- Reads the next token, or its value. -/
  | next
  /-- Reads the next token if there is one. -/
  | nextIfPresent
  | peek
  | previous
  | restore (p : Position)
  | splice (p : Position) (rest : List Token)
  deriving DecidableEq, Repr

/-- The cursor after a move. One that fails leaves the cursor where it is. -/
def perform (c : Cursor) : Move → Cursor
  | .next => match c.next with
    | .ok (_, d) => d
    | .error _ => c
  | .nextIfPresent => match c.next? with
    | some (_, d) => d
    | none => c
  | .peek => c
  | .previous => match c.previous with
    | .ok (_, d) => d
    | .error _ => c
  | .restore p => c.restore p
  | .splice p rest => c.splice p rest

/-- The cursor after one move after the other. -/
def run (c : Cursor) (moves : List Move) : Cursor := moves.foldl perform c

/-! ## One step -/

theorem perform_next (c : Cursor) : c.perform .next = c.perform .nextIfPresent := by
  simp only [perform, next]
  cases c.next? <;> rfl

theorem nextIfPresent_cases (c : Cursor) :
    (c.rest = [] ∧ c.perform .nextIfPresent = c) ∨
      ∃ t ts, c.rest = t :: ts ∧ c.perform .nextIfPresent = c.behind := by
  cases hrest : c.rest with
  | nil => exact .inl ⟨rfl, by simp only [perform, next?_of_rest_nil hrest]⟩
  | cons t ts => exact .inr ⟨t, ts, rfl, by simp only [perform, next?_of_rest_cons hrest]⟩

theorem Valid.previous {c : Cursor} (hc : c.Valid) (h : 0 < c.index) :
    ∃ t, c.tokens[c.index - 1]? = some t ∧
      c.previous = .ok (t.value, { c with index := c.index - 1 }) := by
  have hindex := hc.index_le
  have hlt : c.index - 1 < c.tokens.length := by omega
  refine ⟨c.tokens[c.index - 1], List.getElem?_eq_getElem hlt, ?_⟩
  rw [Cursor.previous, if_pos h, List.getElem?_eq_getElem hlt]

theorem previous_cases {c : Cursor} (hc : c.Valid) :
    (c.index = 0 ∧ c.perform .previous = c) ∨
      (0 < c.index ∧ c.perform .previous = { c with index := c.index - 1 }) := by
  rcases Nat.eq_zero_or_pos c.index with h | h
  · have hnot : ¬ 0 < c.index := by omega
    refine .inl ⟨h, ?_⟩
    simp only [perform, Cursor.previous, if_neg hnot]
  · obtain ⟨t, -, hprevious⟩ := hc.previous h
    exact .inr ⟨h, by simp only [perform, hprevious]⟩

theorem Valid.perform {c : Cursor} (hc : c.Valid) (m : Move) : (c.perform m).Valid := by
  have hnext : (c.perform .nextIfPresent).Valid := by
    rcases c.nextIfPresent_cases with ⟨-, h⟩ | ⟨t, ts, hrest, h⟩
    · rwa [h]
    · rw [h]
      exact hc.behind hrest
  cases m with
  | next =>
    rw [perform_next]
    exact hnext
  | nextIfPresent => exact hnext
  | peek => exact hc
  | previous =>
    have hindex := hc.index_le
    rcases previous_cases hc with ⟨-, h⟩ | ⟨-, h⟩
    · rwa [h]
    · rw [h]
      exact hc.moveTo (by omega)
  | restore p => exact hc.restore p
  | splice p rest => exact valid_splice c p rest

theorem views_perform {c : Cursor} (hc : c.Valid) (m : Move) :
    c.views <+: (c.perform m).views ∧ (c.perform m).raw = c.raw := by
  have hnext : (c.perform .nextIfPresent).views = c.views ∧
      (c.perform .nextIfPresent).raw = c.raw := by
    rcases c.nextIfPresent_cases with ⟨-, h⟩ | ⟨t, ts, -, h⟩ <;> rw [h] <;> exact ⟨rfl, rfl⟩
  cases m with
  | next =>
    rw [perform_next, hnext.1]
    exact ⟨List.prefix_rfl, hnext.2⟩
  | nextIfPresent =>
    rw [hnext.1]
    exact ⟨List.prefix_rfl, hnext.2⟩
  | peek => exact ⟨List.prefix_rfl, rfl⟩
  | previous =>
    rcases previous_cases hc with ⟨-, h⟩ | ⟨-, h⟩ <;> rw [h] <;> exact ⟨List.prefix_rfl, rfl⟩
  | restore p =>
    simp only [Cursor.perform, Cursor.restore]
    split <;> exact ⟨List.prefix_rfl, rfl⟩
  | splice p rest => exact ⟨List.prefix_append _ _, rfl⟩

/-! ## A run -/

theorem Valid.run {c : Cursor} (hc : c.Valid) (moves : List Move) : (c.run moves).Valid := by
  induction moves generalizing c with
  | nil => exact hc
  | cons m moves ih => exact ih (hc.perform m)

theorem views_run {c : Cursor} (hc : c.Valid) (moves : List Move) :
    c.views <+: (c.run moves).views ∧ (c.run moves).raw = c.raw := by
  induction moves generalizing c with
  | nil => exact ⟨List.prefix_rfl, rfl⟩
  | cons m moves ih =>
    obtain ⟨hviews, hraw⟩ := views_perform hc m
    obtain ⟨hviews', hraw'⟩ := ih (hc.perform m)
    exact ⟨hviews.trans hviews', hraw'.trans hraw⟩

/-! ## A copy of the view -/

/-- A cursor with a copy of the tokens in view. It reads the copy, and replaces it when it goes to
another view. -/
structure WithCopy extends Cursor where
  /-- The copy. -/
  shown : List Token
  deriving DecidableEq, Repr

/-- A cursor with a fresh copy. -/
def withCopy (c : Cursor) : WithCopy := ⟨c, c.tokens⟩

namespace WithCopy

/-- Goes to a view and copies it. The view at hand is not copied again, and one that does not exist
changes nothing. -/
def look (k : WithCopy) (view : Nat) : WithCopy :=
  if view = k.view then k
  else match k.views[view]? with
    | some ts => { k with view, shown := ts }
    | none => k

def perform (k : WithCopy) : Move → WithCopy
  | .next | .nextIfPresent =>
    if k.index < k.shown.length then { k with index := k.index + 1 } else k
  | .peek => k
  | .previous => if 0 < k.index then { k with index := k.index - 1 } else k
  | .restore p => { k.look p.view with index := min p.index (k.look p.view).shown.length }
  | .splice p rest =>
    let keep := min p.index k.shown.length
    { k with
      views := k.views ++ [k.shown.take keep ++ rest]
      view := k.views.length
      shown := k.shown.take keep ++ rest
      index := keep }

def run (k : WithCopy) (moves : List Move) : WithCopy := moves.foldl perform k

end WithCopy

theorem getElem?_views {c : Cursor} {v : Nat} (h : v < c.views.length) :
    c.views[v]? = some (c.views.getD v []) := by
  rw [List.getElem?_eq_getElem h, List.getD_eq_getElem?_getD, List.getElem?_eq_getElem h]
  rfl

theorem look_withCopy {c : Cursor} (hc : c.Valid) (v : Nat) :
    c.withCopy.look v = (if v < c.views.length then { c with view := v } else c).withCopy := by
  -- the view at hand is not copied again, which shows only if the copy were out of date
  by_cases hsame : v = c.view
  · have hlook : c.withCopy.look v = c.withCopy := if_pos hsame
    subst hsame
    rw [hlook, if_pos hc.view_lt]
  · have hlook : c.withCopy.look v = match c.views[v]? with
        | some ts => { c.withCopy with view := v, shown := ts }
        | none => c.withCopy := if_neg hsame
    by_cases hlt : v < c.views.length
    · rw [hlook, getElem?_views hlt, if_pos hlt]
      rfl
    · rw [hlook, List.getElem?_eq_none (by omega), if_neg hlt]

/-- The copy is never out of date. -/
theorem perform_withCopy {c : Cursor} (hc : c.Valid) (m : Move) :
    c.withCopy.perform m = (c.perform m).withCopy := by
  have hnext : (if c.index < c.tokens.length then
      ({ c.withCopy with index := c.index + 1 } : WithCopy) else c.withCopy) =
      (c.perform .nextIfPresent).withCopy := by
    rcases c.nextIfPresent_cases with ⟨hrest, h⟩ | ⟨t, ts, hrest, h⟩
    · have hlen : c.tokens.length ≤ c.index := List.drop_eq_nil_iff.mp hrest
      rw [h, if_neg (by omega)]
    · rw [h, if_pos (index_lt_of_rest_cons hrest)]
      rfl
  cases m with
  | next =>
    rw [perform_next]
    exact hnext
  | nextIfPresent => exact hnext
  | peek => rfl
  | previous =>
    rcases previous_cases hc with ⟨hindex, h⟩ | ⟨hindex, h⟩
    · rw [h]
      exact if_neg (Nat.not_lt.mpr (Nat.le_of_eq hindex))
    · rw [h]
      exact if_pos hindex
  | restore p =>
    rw [WithCopy.perform, look_withCopy hc]
    rfl
  | splice p rest =>
    have hshown : (c.splice p rest).withCopy = ⟨c.splice p rest, _⟩ :=
      congrArg (WithCopy.mk (c.splice p rest)) (tokens_splice c p rest)
    exact hshown.symm

theorem run_withCopy {c : Cursor} (hc : c.Valid) (moves : List Move) :
    c.withCopy.run moves = (c.run moves).withCopy := by
  induction moves generalizing c with
  | nil => rfl
  | cons m moves ih =>
    show (c.withCopy.perform m).run moves = _
    rw [perform_withCopy hc m]
    exact ih (hc.perform m)

/-! ## Going back -/

theorem previous_of_next {c d : Cursor} {t : Token} (h : c.next = .ok (t, d)) :
    d.previous = .ok (t.value, c) := by
  cases hget : c.tokens[c.index]? with
  | none => simp [next, next?, hget] at h
  | some u =>
    obtain ⟨rfl, rfl⟩ : u = t ∧ { c with index := c.index + 1 } = d := by
      simpa [next, next?, hget] using h
    have htokens : ({ c with index := c.index + 1 } : Cursor).tokens = c.tokens := rfl
    simp [Cursor.previous, htokens, hget]

/-- **A cursor keeps its places.** After any moves of a cursor over the tokens of a line, the view
that is read exists, it is what the cursor shows, and the index lies in it; so stepping back and
reporting an error find their token. A cursor that reads a copy of its view is in the same place and
shows the same. After any further moves the views of now are still there, and going back to the
place of now shows the tokens, the index, the next value, the tokens that are left and the byte
offset of now. Stepping back over a token that was just read undoes the reading. -/
theorem run_keeps_places (raw : String) (ts : List Token) (moves later : List Move) :
    let c := (ofTokens raw ts).run moves
    let d := c.run later
    (c.view < c.views.length ∧ c.views[c.view]? = some c.tokens ∧ c.index ≤ c.tokens.length ∧
      c.remaining + c.index = c.tokens.length ∧
      (0 < c.index → ∃ t, c.tokens[c.index - 1]? = some t ∧ c.errorPosition = t.start ∧
        c.previous = .ok (t.value, { c with index := c.index - 1 }))) ∧
    (ofTokens raw ts).withCopy.run moves = ⟨c, c.tokens⟩ ∧
    c.views <+: d.views ∧
    ((d.restore c.position).tokens = c.tokens ∧ (d.restore c.position).index = c.index ∧
      (d.restore c.position).peek = c.peek ∧ (d.restore c.position).rest = c.rest ∧
      (d.restore c.position).rawPosition = c.rawPosition) ∧
    ∀ t e, c.next = .ok (t, e) → e.previous = .ok (t.value, c) := by
  intro c d
  have hc : c.Valid := (valid_ofTokens raw ts).run moves
  obtain ⟨hviews, hraw⟩ := views_run hc later
  -- what is read at a place depends on the view, the index and the line, and all three are back
  have htokens : (d.restore c.position).tokens = c.tokens := tokens_restore_position hc hviews
  have hback : d.restore c.position = { d with view := c.view, index := c.index } :=
    restore_position hc hviews
  have hindex : (d.restore c.position).index = c.index := by rw [hback]
  have hline : (d.restore c.position).raw = c.raw := by rw [hback]; exact hraw
  refine ⟨⟨hc.view_lt, ?_, hc.index_le, ?_, fun hpos => ?_⟩,
    run_withCopy (valid_ofTokens raw ts) moves, hviews, ⟨htokens, hindex, ?_, ?_, ?_⟩,
    fun t e h => previous_of_next h⟩
  · exact getElem?_views hc.view_lt
  · have := hc.index_le
    rw [remaining]
    omega
  · obtain ⟨t, hget, hprevious⟩ := hc.previous hpos
    exact ⟨t, hget, by simp only [errorPosition, hget], hprevious⟩
  · simp only [peek, next?, htokens, hindex, errorAtEnd, hline]
    cases c.tokens[c.index]? <;> rfl
  · rw [rest, rest, htokens, hindex]
  · simp only [rawPosition, htokens, hindex, hline]

/-- A place in the second of three views, gone back to from the first one. -/
theorem run_keeps_places_spliced :
    let c := (ofTokens "a b" [⟨"a", 0, 1⟩, ⟨"b", 2, 3⟩]).run [.next, .splice ⟨0, 1⟩ [⟨"z", 2, 3⟩]]
    let d := c.run [.next, .splice ⟨7, 9⟩ [], .restore ⟨0, 9⟩, .previous, .restore ⟨5, 1⟩]
    (d.restore c.position).rest = [⟨"z", 2, 3⟩] ∧ c.errorPosition = 0 ∧
      ∃ e, c.next = .ok (⟨"z", 2, 3⟩, e) ∧ e.previous = .ok ("z", c) := by
  intro c d
  obtain ⟨⟨-, -, -, -, hlast⟩, -, -, ⟨-, -, -, hrest, -⟩, hundo⟩ :=
    run_keeps_places "a b" [⟨"a", 0, 1⟩, ⟨"b", 2, 3⟩] [.next, .splice ⟨0, 1⟩ [⟨"z", 2, 3⟩]]
      [.next, .splice ⟨7, 9⟩ [], .restore ⟨0, 9⟩, .previous, .restore ⟨5, 1⟩]
  obtain ⟨t, ht, herror, -⟩ := hlast (by decide)
  obtain rfl : (⟨"a", 0, 1⟩ : Token) = t := Option.some.inj ht
  exact ⟨hrest, herror, { c with index := 2 }, rfl, hundo ⟨"z", 2, 3⟩ _ rfl⟩

end ArgGrammar.Cursor
