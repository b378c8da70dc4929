import ArgGrammar.Proofs.Alternatives
import ArgGrammar.Proofs.Places
import ArgGrammar.Proofs.Rounds

/-!
# What is read is what is recorded

Grammars that go back may read a token several times and drop what they recorded for it. On a path that
succeeds nothing of this remains: every token behind which the grammar ends has been recorded, once and
in its turn.

* `Context.putAll`: a context after some values were written; `all_putAll` says what is found in it.
* `Element.Collects key`: grammars whose only leaf records one token as a text under `key`.
* `Recorded key s t`: between `s` and `t` the tokens that were read have been recorded, and nothing else
  has. `Recorded.trans` puts two such runs together.
* `collects_records_read`: the runs of these grammars that succeed.
-/

namespace ArgGrammar

namespace Context

variable {c : Context} {key k : String}

/-- The context after values were written, each under its key. -/
def putAll (c : Context) (records : List (String × Value)) : Context :=
  records.foldl (fun c r => c.put r.1 r.2) c

@[simp] theorem putAll_cons (c : Context) (r : String × Value) (records : List (String × Value)) :
    c.putAll (r :: records) = (c.put r.1 r.2).putAll records := rfl

theorem putAll_append (c : Context) (records more : List (String × Value)) :
    c.putAll (records ++ more) = (c.putAll records).putAll more :=
  List.foldl_append

theorem all_put_self (c : Context) (key : String) (v : Value) :
    (c.put key v).all key = c.all key ++ [v] := by
  obtain ⟨entries⟩ := c
  simp only [all, put]
  induction entries with
  | nil => simp [putEntry]
  | cons e entries ih =>
    obtain ⟨k, vs⟩ := e
    rw [putEntry]
    by_cases hk : k = key
    · simp [hk]
    · have hne : (key == k) = false := beq_eq_false_iff_ne.mpr (Ne.symm hk)
      simpa [hk, List.lookup_cons, hne] using ih

theorem all_put_of_ne (h : k ≠ key) (c : Context) (v : Value) : (c.put key v).all k = c.all k := by
  obtain ⟨entries⟩ := c
  simp only [all, put]
  induction entries with
  | nil => simp [putEntry, List.lookup_cons, beq_eq_false_iff_ne.mpr h]
  | cons e entries ih =>
    obtain ⟨k', vs⟩ := e
    rw [putEntry]
    by_cases hk' : k' = key
    · subst hk'
      simp [List.lookup_cons, beq_eq_false_iff_ne.mpr h]
    · by_cases hk : k = k'
      · simp [hk', hk]
      · have hne : (k == k') = false := beq_eq_false_iff_ne.mpr hk
        simpa [hk', List.lookup_cons, hne] using ih

theorem all_putAll (c : Context) (records : List (String × Value)) (k : String) :
    (c.putAll records).all k = c.all k ++ (records.filter (·.1 = k)).map (·.2) := by
  induction records generalizing c with
  | nil => simp [putAll]
  | cons r records ih =>
    rw [putAll_cons, ih]
    by_cases hk : r.1 = k
    · subst hk
      simp [all_put_self]
    · simp [all_put_of_ne (Ne.symm hk), hk]

end Context

/-- The tokens between the place of a cursor and a later index. -/
def Cursor.upTo (c : Cursor) (i : Nat) : List Token := c.rest.take (i - c.index)

theorem Cursor.upTo_self (c : Cursor) : c.upTo c.index = [] := by simp [upTo]

theorem Cursor.upTo_behind {c : Cursor} {a : Token} {ts : List Token} (h : c.rest = a :: ts) :
    c.upTo (c.index + 1) = [a] := by
  simp [upTo, h]

theorem Cursor.upTo_append {c d : Cursor} (htokens : d.tokens = c.tokens) {i : Nat}
    (hcd : c.index ≤ d.index) (hd : d.index ≤ i) : c.upTo i = c.upTo d.index ++ d.upTo i := by
  have hrest : d.rest = c.rest.drop (d.index - c.index) := by
    rw [rest, rest, htokens, List.drop_drop, Nat.add_sub_cancel' hcd]
  have hlen : i - c.index = (d.index - c.index) + (i - d.index) := by omega
  rw [upTo, upTo, upTo, hrest, hlen, List.take_add]

/-! ## Runs that record what they read -/

/-- What is recorded for tokens under one key. -/
def records (key : String) (ts : List Token) : List (String × Value) :=
  ts.map fun t => (key, .text t.value)

/-- The tokens read between `s` and `t`, in one view, have been recorded under `key`, and nothing else
has been recorded. -/
structure Recorded (key : String) (s t : State) : Prop where
  view : t.cursor.view = s.cursor.view
  context : t.context = s.context.putAll (records key (s.cursor.upTo t.cursor.index))

/-- The parse advances, and every run that succeeds records what it reads. -/
structure Records (key : String) (parse : State → Outcome) : Prop where
  advances : Advances parse
  recorded {s t : State} (hs : s.cursor.Valid) (h : parse s = .ok t) : Recorded key s t

variable {key : String} {s t u : State}

theorem Recorded.of_position (hview : t.cursor.view = s.cursor.view)
    (hindex : t.cursor.index = s.cursor.index) (hcontext : t.context = s.context) :
    Recorded key s t := by
  refine ⟨hview, ?_⟩
  rw [hindex, Cursor.upTo_self, hcontext]
  rfl

theorem Recorded.refl (s : State) : Recorded key s s := .of_position rfl rfl rfl

theorem Recorded.trans (hs : s.cursor.Valid) (hst : s.Leads t) (htu : t.Leads u)
    (h : Recorded key s t) (h' : Recorded key t u) : Recorded key s u := by
  refine ⟨h'.view.trans h.view, ?_⟩
  have htokens := Cursor.tokens_eq_of_views hs hst.cursor.views h.view
  rw [h'.context, h.context, Cursor.upTo_append htokens hst.cursor.index_le htu.cursor.index_le,
    records, records, records, List.map_append, Context.putAll_append]

theorem Recorded.of_again (hs : Again s t) (h : Recorded key t u) : Recorded key s u := by
  obtain ⟨-, htokens, hindex⟩ := hs.alike.cursor.same rfl
  have hview : t.cursor.view = s.cursor.view := congrArg Cursor.Position.view hs.position
  have hupTo : t.cursor.upTo u.cursor.index = s.cursor.upTo u.cursor.index := by
    rw [Cursor.upTo, Cursor.upTo, Cursor.rest, Cursor.rest, htokens, hindex]
  exact ⟨h.view.trans hview, by rw [h.context, hupTo, ← hs.alike.context]⟩

theorem records_ok : Records key .ok := by
  refine ⟨fun s hs => .refl hs, ?_⟩
  rintro s t _ ⟨⟩
  exact .refl s

theorem Records.andThen {f g : State → Outcome} (hf : Records key f) (hg : Records key g) :
    Records key fun s => (f s).andThen g where
  advances s hs := leads_andThen (hf.advances s hs) hg.advances
  recorded {s u} hs h := by
    cases hfirst : f s with
    | failed err t => simp [hfirst, Outcome.andThen] at h
    | ok t =>
      simp only [hfirst, Outcome.andThen] at h
      have hst := hf.advances.leads hs hfirst
      have htu := hg.advances.leads hst.cursor.valid h
      exact (hf.recorded hs hfirst).trans hs hst htu (hg.recorded hst.cursor.valid h)

namespace Element

variable {e : Element} {es : List Element}

/-! ## Grammars with one leaf -/

/-- Grammars that record tokens as texts under `key`, and nothing else. -/
inductive Collects (key : String) : Element → Prop where
  | string : Collects key (.string key)
  | none : Collects key .none
  | seq {es : List Element} (h : ∀ e ∈ es, Collects key e) : Collects key (.seq es)
  | optional {e : Element} (weak : Bool) (h : Collects key e) : Collects key (.optional e .none weak)
  | firstOf {es : List Element} (h : ∀ e ∈ es, Collects key e) : Collects key (.firstOf es)
  | times (n : Nat) {e : Element} (h : Collects key e) : Collects key (.times n e)
  | allOf (patience : Nat) {e : Element} (h : Collects key e) : Collects key (.allOf e patience)
  | onlyOne {e : Element} (h : Collects key e) : Collects key (.onlyOne e)

theorem Collects.built (h : Collects key e) : e.Built true := by
  induction h with
  | string => exact .token (.string key)
  | none => exact .none
  | seq _ ih => exact .seq ih
  | optional weak _ ih => exact .optional .none weak ih
  | firstOf _ ih => exact .firstOf ih
  | times n _ ih => exact .times n ih
  | allOf n _ ih => exact .allOf n ih
  | onlyOne _ ih => exact .onlyOne ih

theorem parse_string_of_rest_cons {a : Token} {ts : List Token} (h : s.cursor.rest = a :: ts) :
    (string key).parse s = .ok (s.behind.put key (.text a.value)) :=
  parse_leaf_of_rest_cons h

theorem records_string : Records key (string key).parse := by
  refine ⟨(Built.token (.string key) : Built true _).advances, fun {s t} _ hparse => ?_⟩
  cases hrest : s.cursor.rest with
  | nil =>
    rw [string, parse_leaf_of_rest_nil hrest] at hparse
    cases hparse
  | cons a ts =>
    rw [parse_string_of_rest_cons hrest] at hparse
    cases hparse
    have hread : s.cursor.upTo (s.cursor.index + 1) = [a] := Cursor.upTo_behind hrest
    refine ⟨rfl, ?_⟩
    show s.context.put key (.text a.value) =
      s.context.putAll (records key (s.cursor.upTo (s.cursor.index + 1)))
    rw [hread]
    rfl

theorem records_parseSeq (h : ∀ e ∈ es, Records key e.parse) : Records key (parseSeq es) := by
  induction es with
  | nil => exact records_ok
  | cons e es ih => exact (h e (by simp)).andThen (ih fun e' he' => h e' (by simp [he']))

theorem recordDefault_none (e : Element) (s : State) : recordDefault e .none s = s := by
  unfold recordDefault
  split
  · next hdefault => cases hdefault
  · rfl

theorem records_parseOptional (weak : Bool) (h : Records key e.parse) :
    Records key (parseOptional e .none weak) := by
  refine ⟨advances_parseOptional .none weak h.advances, fun {s t} hs hparse => ?_⟩
  unfold parseOptional at hparse
  simp only [recordDefault_none] at hparse
  split at hparse
  · cases hchild : e.parse s with
    | ok u =>
      rw [hchild] at hparse
      cases hparse
      exact h.recorded hs hchild
    | failed err u =>
      simp only [hchild] at hparse
      split at hparse
      · cases hparse
        have hleads : s.Leads u := by simpa [hchild, Outcome.state] using h.advances s hs
        have hposition := State.position_backTo hs hleads
        exact .of_position (congrArg Cursor.Position.view hposition)
          (congrArg Cursor.Position.index hposition) (State.context_backTo hleads)
      · cases hparse
  · cases hparse
    exact .refl s

theorem recorded_parseFirst {start s t : State} (hstart : start.cursor.Valid)
    (h : ∀ e ∈ es, Records key e.parse) {last : ParseError} (hs : Again start s)
    (hparse : parseFirst start es last s = .ok t) : Recorded key start t := by
  induction es generalizing last s with
  | nil => cases hparse
  | cons e es ih =>
    have he := h e (by simp)
    have hvalid := hs.leads.cursor.valid
    have hleads := he.advances s hvalid
    rw [parseFirst] at hparse
    cases htry : e.parse s with
    | ok u =>
      rw [htry] at hparse
      cases hparse
      exact .of_again hs (he.recorded hvalid htry)
    | failed err u =>
      rw [htry] at hparse hleads
      exact ih (fun e' he' => h e' (by simp [he'])) (again_backTo hstart (hs.leads.trans hleads)) hparse

theorem records_parseAll (h : Records key e.parse) (n : Nat) : Records key (parseAll e n) := by
  refine ⟨advances_parseAll h.advances n, fun {s u} hs hparse => ?_⟩
  induction n generalizing s with
  | zero =>
    cases hparse
    exact .refl _
  | succ n ih =>
    rw [parseAll] at hparse
    split at hparse
    · cases hround : e.parse s with
      | failed err t => simp [hround] at hparse
      | ok t =>
        simp only [hround] at hparse
        have hst := h.advances.leads hs hround
        have hfirst := h.recorded hs hround
        split at hparse
        · cases hparse
          exact hfirst
        · have htu := (advances_parseAll h.advances n).leads hst.cursor.valid hparse
          exact hfirst.trans hs hst htu (ih hst.cursor.valid hparse)
    · cases hparse
      exact .refl _

theorem Collects.records (h : Collects key e) : Records key e.parse := by
  induction h with
  | string => exact records_string
  | none => exact records_ok
  | seq _ ih => exact records_parseSeq ih
  | optional weak _ ih => exact records_parseOptional weak ih
  | firstOf h ih =>
    exact ⟨(Built.firstOf fun e he => (h e he).built).advances,
      fun hs hparse => recorded_parseFirst hs ih (.refl hs) hparse⟩
  | times n _ ih => exact records_parseSeq fun e he => List.eq_of_mem_replicate he ▸ ih
  | allOf n h ih =>
    exact ⟨(h.built.allOf n).advances, fun hs hparse => (records_parseAll ih _).recorded hs hparse⟩
  | onlyOne h ih =>
    exact ⟨h.built.onlyOne.advances, fun hs hparse => ih.recorded hs (onlyOne_ok hparse)⟩

end Element

/-- **Going back neither loses nor repeats a token.** A grammar whose only leaf records a token as a text
under `key` has, after a success, moved on in its view, and what it added to the context are the values
of the tokens between the place at the start and the place at the end, under `key` and in their order:
so these follow what was recorded under `key`, and under no other key has anything changed. -/
theorem collects_records_read {key : String} {e : Element} (he : e.Collects key) {s t : State}
    (hs : s.cursor.Valid) (hparse : e.parse s = .ok t) :
    let read := (s.cursor.tokens.drop s.cursor.index).take (t.cursor.index - s.cursor.index)
    (t.cursor.view = s.cursor.view ∧ t.cursor.tokens = s.cursor.tokens ∧
      s.cursor.index ≤ t.cursor.index ∧ read.length = t.cursor.index - s.cursor.index) ∧
    t.context = s.context.putAll (read.map fun a => (key, .text a.value)) ∧
    t.context.all key = s.context.all key ++ read.map (fun a => .text a.value) ∧
    ∀ k, k ≠ key → t.context.all k = s.context.all k := by
  intro read
  obtain ⟨hview, hcontext⟩ := he.records.recorded hs hparse
  have hleads := he.records.advances.leads hs hparse
  have htokens := Cursor.tokens_eq_of_views hs hleads.cursor.views hview
  have hend : t.cursor.index ≤ s.cursor.tokens.length := htokens ▸ hleads.cursor.valid.index_le
  have hcontext : t.context = s.context.putAll (read.map fun a => (key, .text a.value)) := hcontext
  refine ⟨⟨hview, htokens, hleads.cursor.index_le, ?_⟩, hcontext, ?_, fun k hk => ?_⟩
  · rw [List.length_take, List.length_drop]
    omega
  · have hfilter : (read.map fun a => (key, Value.text a.value)).filter (·.1 = key) =
        read.map fun a => (key, .text a.value) := by simp
    rw [hcontext, Context.all_putAll, hfilter, List.map_map]
    rfl
  · rw [hcontext, Context.all_putAll]
    simp [List.filter_map, Function.comp_def, Ne.symm hk]

open Element in
/-- Two attempts read `b` and `c` and come to nothing, before both are read for good. -/
theorem collects_records_read_twice :
    let attempt := optional (times 3 (string "k")) .none true
    let e := firstOf [times 4 (string "k"), seq [attempt, allOf (string "k") 0]]
    let s : State :=
      ⟨(Cursor.ofTokens "a b c" [⟨"a", 0, 1⟩, ⟨"b", 2, 3⟩, ⟨"c", 4, 5⟩]).moveTo 1,
        (Context.empty.put "k" (.int 1)).put "o" (.int 2)⟩
    ∃ t, e.parse s = .ok t ∧ t.cursor.index = 3 ∧ t.cursor.view = s.cursor.view ∧
      t.context.all "k" = [.int 1, .text "b", .text "c"] ∧ t.context.all "o" = [.int 2] := by
  intro attempt e s
  have he : e.Collects "k" := by
    refine .firstOf ?_
    simp only [List.forall_mem_cons, List.not_mem_nil, false_implies, implies_true, and_true]
    refine ⟨.times 4 .string, .seq ?_⟩
    simp only [List.forall_mem_cons, List.not_mem_nil, false_implies, implies_true, and_true]
    exact ⟨.optional true (.times 3 .string), .allOf 0 .string⟩
  have hs : s.cursor.Valid := (Cursor.valid_ofTokens _ _).moveTo (by decide)
  have hparse : e.parse s = .ok (e.parse s).state := by decide +kernel
  have hindex : (e.parse s).state.cursor.index = 3 := by decide +kernel
  obtain ⟨⟨hview, -, -, -⟩, -, hkey, hothers⟩ := collects_records_read he hs hparse
  rw [hindex] at hkey
  exact ⟨_, hparse, hindex, hview, hkey, hothers "o" (by decide)⟩

end ArgGrammar
