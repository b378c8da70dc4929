import ArgGrammar.Context

/-!
# Contexts only grow

* `Context.Extends c d`: the context `d` is `c` after some values were written.
* `Context.Grows`: how the entries of such contexts compare. The keys of `c` stand in front of `d`, in
  the same order, and every one of them has its values of `c` in front of those of `d`.
* `Extends.keys_prefix`, `Extends.all_prefix`, `Extends.hasAny`: what that means for the queries on a
  context.
* `rollback_of_extends`: going back to a mark undoes whatever was written after it was taken.
-/

namespace ArgGrammar.Context

/-- The entries `new` continue the entries `old`. -/
inductive Grows : List (String × List Value) → List (String × List Value) → Prop where
  | nil (new : List (String × List Value)) : Grows [] new
  | cons {key : String} {vs ws : List Value} {old new : List (String × List Value)}
      (hvalues : vs <+: ws) (hrest : Grows old new) : Grows ((key, vs) :: old) ((key, ws) :: new)

theorem Grows.refl (es : List (String × List Value)) : Grows es es := by
  induction es with
  | nil => exact .nil []
  | cons e es ih => exact .cons List.prefix_rfl ih

theorem Grows.trans {a b c : List (String × List Value)} (hab : Grows a b) (hbc : Grows b c) :
    Grows a c := by
  induction hab generalizing c with
  | nil new => exact .nil c
  | cons hvalues _ ih =>
    cases hbc with
    | cons hvalues' hrest' => exact .cons (hvalues.trans hvalues') (ih hrest')

theorem grows_putEntry (key : String) (v : Value) (es : List (String × List Value)) :
    Grows es (putEntry key v es) := by
  induction es with
  | nil => exact .nil _
  | cons e es ih =>
    obtain ⟨k, vs⟩ := e
    rw [putEntry]
    split
    · exact .cons (List.prefix_append vs [v]) (.refl es)
    · exact .cons List.prefix_rfl ih

theorem zipWith_take_of_grows {old new : List (String × List Value)} (h : Grows old new) :
    new.zipWith (fun e n => (e.1, e.2.take n)) (old.map (·.2.length)) = old := by
  induction h with
  | nil new => simp
  | cons hvalues _ ih =>
    rw [List.map_cons, List.zipWith_cons_cons, ih]
    simp only [← List.prefix_iff_eq_take.mp hvalues]

theorem Grows.keys_prefix {old new : List (String × List Value)} (h : Grows old new) :
    old.map Prod.fst <+: new.map Prod.fst := by
  induction h with
  | nil new => exact List.nil_prefix
  | cons _ _ ih => exact List.cons_prefix_cons.mpr ⟨rfl, ih⟩

theorem Grows.lookup_prefix {old new : List (String × List Value)} (h : Grows old new)
    (key : String) : (old.lookup key).getD [] <+: (new.lookup key).getD [] := by
  induction h with
  | nil new => exact List.nil_prefix
  | @cons k vs ws old new hvalues _ ih =>
    by_cases hk : key = k
    · simpa [List.lookup_cons, hk] using hvalues
    · simpa [List.lookup_cons, beq_eq_false_iff_ne.mpr hk] using ih

/-! ## Writing -/

/-- The context `d` is `c` after some values were written. -/
inductive Extends (c : Context) : Context → Prop where
  | unchanged : Extends c c
  | put {d : Context} (h : Extends c d) (key : String) (v : Value) : Extends c (d.put key v)

theorem Extends.refl (c : Context) : c.Extends c := .unchanged

theorem Extends.trans {a b c : Context} (hab : a.Extends b) (hbc : b.Extends c) : a.Extends c := by
  induction hbc with
  | unchanged => exact hab
  | put _ key v ih => exact ih.put key v

theorem extends_put (c : Context) (key : String) (v : Value) : c.Extends (c.put key v) :=
  .put .unchanged key v

theorem Extends.grows {c d : Context} (h : c.Extends d) : Grows c.entries d.entries := by
  induction h with
  | unchanged => exact .refl _
  | @put d _ key v ih => exact ih.trans (grows_putEntry key v d.entries)

theorem Extends.keys_prefix {c d : Context} (h : c.Extends d) : c.keys <+: d.keys :=
  h.grows.keys_prefix

theorem Extends.all_prefix {c d : Context} (h : c.Extends d) (key : String) :
    c.all key <+: d.all key := h.grows.lookup_prefix key

theorem rollback_of_grows {c d : Context} (h : Grows c.entries d.entries) :
    d.rollback c.mark = c := by
  obtain ⟨entries⟩ := c
  simp only [rollback, mark, Context.mk.injEq]
  exact zipWith_take_of_grows h

theorem rollback_of_extends {c d : Context} (h : c.Extends d) : d.rollback c.mark = c :=
  rollback_of_grows h.grows

/-! ## Keys with values -/

theorem mem_keys_put {c : Context} {key k : String} {v : Value} (h : k ∈ (c.put key v).keys) :
    k ∈ c.keys ∨ k = key := by
  obtain ⟨entries⟩ := c
  simp only [keys, put] at h ⊢
  induction entries with
  | nil => exact .inr (by simpa [putEntry] using h)
  | cons e entries ih =>
    obtain ⟨k', vs⟩ := e
    rw [putEntry] at h
    split at h
    · exact .inl h
    · rcases List.mem_cons.mp h with rfl | hmem
      · exact .inl (by simp)
      · exact (ih hmem).imp_left fun hin => List.mem_cons_of_mem _ hin

theorem hasAny_put_self (c : Context) (key : String) (v : Value) :
    (c.put key v).hasAny key = true := by
  obtain ⟨entries⟩ := c
  simp only [hasAny, all, put]
  induction entries with
  | nil => simp [putEntry]
  | cons e entries ih =>
    obtain ⟨k, vs⟩ := e
    rw [putEntry]
    split
    · next hk => simp [hk]
    · next hk => simpa [List.lookup_cons, beq_eq_false_iff_ne.mpr (Ne.symm hk)] using ih

theorem Extends.hasAny_of_hasAny {c d : Context} (h : c.Extends d) {key : String}
    (hkey : c.hasAny key = true) : d.hasAny key = true := by
  have hne : c.all key ≠ [] := by simpa [Context.hasAny] using hkey
  simpa [Context.hasAny] using (h.all_prefix key).ne_nil hne

theorem Extends.hasAny {c d : Context} (h : c.Extends d)
    (hc : ∀ key ∈ c.keys, c.hasAny key = true) : ∀ key ∈ d.keys, d.hasAny key = true := by
  induction h with
  | unchanged => exact hc
  | @put d _ key v ih =>
    intro k hk
    rcases mem_keys_put hk with hold | rfl
    · exact (extends_put d key v).hasAny_of_hasAny (ih k hold)
    · exact hasAny_put_self d k v

end ArgGrammar.Context
