import ArgGrammar.Proofs.Context

/-!
# Going back to a mark

A mark is a list of lengths: it has one for each key that there was, and tells how many values were
under it, by the place of the key and not by its name. It goes stale when the context goes back to an
older mark: then other keys may come to stand at its places, with other values. A stale mark still cuts
off nothing of what was there before all of this.

* `Context.Edit`, `Context.Marked`, `Marked.perform`, `Marked.run`: writing, taking marks and going back
  to them, one step and a run.
* `Marked.Keeps c`: the context at hand continues `c`, and so did each context that was marked.
* `Marked.Keeps.perform`, `Marked.Keeps.run`: every step keeps that, hence every run.
* `rollback_run`: whatever is done, going back to the first mark gives the context that was marked.
-/

namespace ArgGrammar.Context

/-- What is done with a context of which marks are taken. Marks are counted from the first one. -/
inductive Edit where
  /-- Appends a value under a key. -/
  | put (key : String) (v : Value)
  /-- Takes a mark. -/
  | mark
  /-- Goes back to the mark with a number. -/
  | rollback (n : Nat)
  deriving DecidableEq, Repr

/-- A context with the marks that were taken of it, the first one first. -/
structure Marked where
  /-- The context. -/
  context : Context
  /-- The marks. -/
  marks : List Mark
  deriving DecidableEq, Repr

namespace Marked

/-- A context of which one mark was just taken. -/
def start (c : Context) : Marked := ⟨c, [c.mark]⟩

/-- The effect of an edit. A number without a mark has none. -/
def perform (s : Marked) : Edit → Marked
  | .put key v => { s with context := s.context.put key v }
  | .mark => { s with marks := s.marks ++ [s.context.mark] }
  | .rollback n => match s.marks[n]? with
    | some m => { s with context := s.context.rollback m }
    | none => s

/-- The effect of one edit after the other. -/
def run (s : Marked) (edits : List Edit) : Marked := edits.foldl perform s

end Marked

/-! ## Stale marks -/

theorem grows_zipWith_take {c d new : List (String × List Value)} (hd : Grows c d)
    (hnew : Grows c new) :
    Grows c (new.zipWith (fun e n => (e.1, e.2.take n)) (d.map (·.2.length))) := by
  induction hd generalizing new with
  | nil d => exact .nil _
  | cons hvalues _ ih =>
    cases hnew with
    | cons hvalues' hrest' =>
      rw [List.map_cons, List.zipWith_cons_cons]
      exact .cons (List.prefix_take_iff.mpr ⟨hvalues', hvalues.length_le⟩) (ih hrest')

/-- The context at hand continues `c`, and every mark was taken of a context that continues `c`. -/
structure Marked.Keeps (c : Context) (s : Marked) : Prop where
  context : Grows c.entries s.context.entries
  marks : ∀ m ∈ s.marks, ∃ d : Context, Grows c.entries d.entries ∧ d.mark = m

namespace Marked

variable {c : Context} {s : Marked}

theorem keeps_start (c : Context) : (start c).Keeps c where
  context := .refl c.entries
  marks _ hm := ⟨c, .refl c.entries, (List.mem_singleton.mp hm).symm⟩

theorem Keeps.perform (h : s.Keeps c) (e : Edit) : (s.perform e).Keeps c := by
  cases e with
  | put key v => exact ⟨h.context.trans (grows_putEntry key v s.context.entries), h.marks⟩
  | mark =>
    refine ⟨h.context, fun m hm => ?_⟩
    rcases List.mem_append.mp hm with hold | hnew
    · exact h.marks m hold
    · exact ⟨s.context, h.context, (List.mem_singleton.mp hnew).symm⟩
  | rollback n =>
    rw [Marked.perform]
    split
    · next m hm =>
      obtain ⟨d, hd, rfl⟩ := h.marks m (List.mem_of_getElem? hm)
      exact ⟨grows_zipWith_take hd h.context, h.marks⟩
    · exact h

theorem Keeps.run (h : s.Keeps c) (edits : List Edit) : (s.run edits).Keeps c := by
  induction edits generalizing s with
  | nil => exact h
  | cons e edits ih => exact ih (h.perform e)

end Marked

/-- **Going back to a mark restores the context exactly.** Whatever is written after the mark was taken,
whatever other marks are taken, and however often the context goes back to any of them, also to one
that went stale: all keys and values of then stay in front, and going back to the mark gives the
context of then. -/
theorem rollback_run (c : Context) (edits : List Edit) :
    let d := ((Marked.start c).run edits).context
    c.keys <+: d.keys ∧ (∀ key, c.all key <+: d.all key) ∧ d.rollback c.mark = c := by
  intro d
  have hd : Grows c.entries d.entries := ((Marked.keeps_start c).run edits).context
  exact ⟨hd.keys_prefix, hd.lookup_prefix, rollback_of_grows hd⟩

/-- The second mark goes stale: it counts one value under `a` and two under `b`, and `z` and `b` stand
at the next places when it is used. -/
example :
    let c : Context := ⟨[("a", [.int 1])]⟩
    let s := (Marked.start c).run
      [.put "b" (.int 2), .put "b" (.int 3), .mark, .rollback 0, .put "z" (.int 4), .put "b" (.int 5),
        .put "a" (.int 6), .rollback 1]
    s.context = ⟨[("a", [.int 1]), ("z", [.int 4])]⟩ ∧ s.context.rollback c.mark = c := by
  decide

end ArgGrammar.Context
