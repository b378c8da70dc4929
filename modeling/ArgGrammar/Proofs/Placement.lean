import ArgGrammar.Proofs.Layout
import Mathlib.Tactic.Choose

/-!
# Where flags stand does not matter

Flags are written in groups: one token with flags and the values that they read. Groups and
positional tokens may be mixed in any way that keeps the order of the groups and the order of the
positional tokens; the outcome is the same.

* `Flags.Simple`: every defined flag is plain or takes a value of one token.
* `Flags.Group`: a token with flags, followed by exactly the values that they read.
* `Interleaves gs ps vs`: the values `vs` are the groups `gs` mixed with the positional values `ps`.
* `Performs run values effect`: `run` reads `values`, whatever follows them, and its effect on the
  context depends on nothing else.
* `scan_interleaves`: a scan performs the groups in their order and collects the positional values.
-/

namespace ArgGrammar

/-! ## Groups of flags -/

/-- The number of tokens that a flag without a definition reads. -/
def UnknownFlag.reads : UnknownFlag → Nat
  | .acceptValue => 1
  | _ => 0

theorem UnknownFlag.reads_cases {policy : UnknownFlag} {values : List String}
    (h : values.length = policy.reads) :
    (policy = .acceptValue ∧ ∃ v, values = [v]) ∨ (policy ≠ .acceptValue ∧ values = []) := by
  cases policy with
  | acceptValue => exact .inl ⟨rfl, List.length_eq_one_iff.mp h⟩
  | reject => exact .inr ⟨nofun, List.eq_nil_of_length_eq_zero h⟩
  | ignore => exact .inr ⟨nofun, List.eq_nil_of_length_eq_zero h⟩
  | acceptNonvalue => exact .inr ⟨nofun, List.eq_nil_of_length_eq_zero h⟩

namespace Flags

/-- The number of tokens that the element of a flag reads: none if the flag is plain. -/
inductive Reads : Element → Nat → Prop where
  | plain (key : String) : Reads (.markTrue key) 0
  | value {e : Element} (h : e.TokenLeaf) : Reads e 1

/-- Every defined flag is plain or takes a value of one token. -/
structure Simple (f : Flags) : Prop where
  short : ∀ d ∈ f.short, ∃ n, Reads d.2 n
  long : ∀ d ∈ f.long, ∃ n, Reads d.2 n

/-- The number of tokens that a flag reads, by its definition or by what happens to others. -/
inductive Takes (definition : Option Element) (policy : UnknownFlag) : Nat → Prop where
  | defined {e : Element} {n : Nat} (h : definition = some e) (hn : Reads e n) :
      Takes definition policy n
  | unknown (h : definition = none) : Takes definition policy policy.reads

/-- The number of tokens that flags of one character read together. -/
inductive GroupTakes (f : Flags) : List Char → Nat → Prop where
  | nil : GroupTakes f [] 0
  | cons {c : Char} {cs : List Char} {n m : Nat} (hc : Takes (f.short? c) f.unknownShort n)
      (hcs : GroupTakes f cs m) : GroupTakes f (c :: cs) (n + m)

/-- A token with flags, followed by exactly the values that they read. -/
inductive Group (f : Flags) : List String → Prop where
  | long {word name : String} {values : List String} (h : FlagWord.ofText word = .long name none)
      (hn : Takes (f.long? name) f.unknownLong values.length) : Group f (word :: values)
  | inline {word name value : String} (h : FlagWord.ofText word = .long name (some value)) :
      Group f [word]
  | short {word : String} {group : List Char} {values : List String}
      (h : FlagWord.ofText word = .short group) (hn : GroupTakes f group values.length) :
      Group f (word :: values)

end Flags

/-- The values are the groups mixed with the others, each in their order. -/
inductive Interleaves : List (List String) → List String → List String → Prop where
  | nil : Interleaves [] [] []
  | group (g : List String) {gs : List (List String)} {ps vs : List String}
      (h : Interleaves gs ps vs) : Interleaves (g :: gs) ps (g ++ vs)
  | positional (p : String) {gs : List (List String)} {ps vs : List String}
      (h : Interleaves gs ps vs) : Interleaves gs (p :: ps) (p :: vs)

/-! ## Effects on the context -/

/-- What becomes of a context, and the complaint if there is one. -/
abbrev Effect := Context → Context × Option Complaint

namespace Effect

/-- Nothing happens. -/
def idle : Effect := fun context => (context, none)

instance : Nonempty Effect := ⟨idle⟩

/-- One after another, up to the first complaint. -/
def andThen (a b : Effect) : Effect := fun context =>
  match a context with
  | (context', none) => b context'
  | (context', some complaint) => (context', some complaint)

/-- All in turn. -/
def all (effect : List String → Effect) : List (List String) → Effect
  | [] => idle
  | g :: gs => (effect g).andThen (all effect gs)

end Effect

/-- The outcome is what an effect says, with the values `more` left if it succeeds. -/
inductive Performed (more : List String) : Context × Option Complaint → Outcome → Prop where
  | ok {c : Cursor} {context : Context} (hc : c.Valid) (hrest : c.rest.map (·.value) = more) :
      Performed more (context, none) (.ok ⟨c, context⟩)
  | failed (err : ParseError) (s : State) :
      Performed more (s.context, some err.complaint) (.failed err s)

/-- The run reads `values`, whatever follows them, and has the effect. -/
def Performs (run : State → Outcome) (values : List String) (effect : Effect) : Prop :=
  ∀ (s : State) (more : List String), s.cursor.Valid →
    s.cursor.rest.map (·.value) = values ++ more → Performed more (effect s.context) (run s)

theorem performs_idle : Performs .ok [] .idle := fun _ _ hs hrest => .ok hs hrest

theorem performs_put (key : String) (v : Value) :
    Performs (fun s => .ok (s.put key v)) [] fun context => (context.put key v, none) :=
  fun _ _ hs hrest => .ok hs hrest

theorem performs_reject (complaint : Complaint) :
    Performs (fun s => .failed (s.cursor.errorHere complaint) s) []
      fun context => (context, some complaint) :=
  fun s _ _ _ => .failed (s.cursor.errorHere complaint) s

theorem Performs.andThen {run run' : State → Outcome} {values values' : List String}
    {a b : Effect} (h : Performs run values a) (h' : Performs run' values' b) :
    Performs (fun s => (run s).andThen run') (values ++ values') (a.andThen b) := by
  intro s more hs hrest
  have hrun := h s (values' ++ more) hs (by rw [hrest, List.append_assoc])
  show Performed more (a.andThen b s.context) ((run s).andThen run')
  rw [Effect.andThen]
  revert hrun
  generalize a s.context = r
  generalize run s = o
  intro hrun
  cases hrun with
  | @ok c context hc hmore => exact h' ⟨c, context⟩ more hc hmore
  | failed err s' => exact .failed err s'

theorem performs_leaf {e : Element} (h : e.TokenLeaf) (v : String) :
    ∃ effect, Performs e.parse [v] effect := by
  obtain ⟨key, convert, complete, rfl, -⟩ := h.eq_leaf
  cases hv : convert v with
  | ok w =>
    refine ⟨fun context => (context.put key w, none), fun s more hs hrest => ?_⟩
    obtain ⟨t, ts, ht, rfl, hts⟩ := List.map_eq_cons_iff.mp hrest
    rw [Element.parse_leaf_of_rest_cons ht, hv]
    exact .ok (hs.behind ht) (by rw [State.behind, Cursor.rest_behind ht]; exact hts)
  | error complaint =>
    refine ⟨fun context => (context, some complaint), fun s more hs hrest => ?_⟩
    obtain ⟨t, ts, ht, rfl, hts⟩ := List.map_eq_cons_iff.mp hrest
    rw [Element.parse_leaf_of_rest_cons ht, hv]
    exact .failed (s.cursor.behind.errorHere complaint) s.behind

namespace Flags

variable {f : Flags}

theorem performs_element {e : Element} {values : List String} (h : Reads e values.length) :
    ∃ effect, Performs e.parse values effect := by
  generalize hn : values.length = n at h
  cases h with
  | plain key =>
    obtain rfl := List.eq_nil_of_length_eq_zero hn
    exact ⟨_, performs_put key (.bool true)⟩
  | value hleaf =>
    obtain ⟨v, rfl⟩ := List.length_eq_one_iff.mp hn
    exact performs_leaf hleaf v

theorem performs_parseShort {c : Char} {values : List String}
    (h : Takes (f.short? c) f.unknownShort values.length) :
    ∃ effect, Performs (f.parseShort c) values effect := by
  generalize hn : values.length = n at h
  cases h with
  | defined hdef hreads =>
    subst hn
    obtain ⟨effect, heffect⟩ := performs_element hreads
    exact ⟨effect, by unfold parseShort; rw [hdef]; exact heffect⟩
  | unknown hdef =>
    unfold parseShort
    rw [hdef]
    rcases UnknownFlag.reads_cases hn with ⟨hpolicy, v, rfl⟩ | ⟨hpolicy, rfl⟩
    · rw [hpolicy]
      exact performs_leaf (.string _) v
    · cases hp : f.unknownShort with
      | acceptValue => exact absurd hp hpolicy
      | reject => exact ⟨_, performs_reject (.unknownShort c)⟩
      | ignore => exact ⟨_, performs_idle⟩
      | acceptNonvalue => exact ⟨_, performs_put _ _⟩

theorem performs_parseGroup {group : List Char} {values : List String}
    (h : GroupTakes f group values.length) :
    ∃ effect, Performs (f.parseGroup group) values effect := by
  generalize hn : values.length = n at h
  induction h generalizing values with
  | nil =>
    obtain rfl := List.eq_nil_of_length_eq_zero hn
    exact ⟨_, performs_idle⟩
  | @cons c cs k m hc _ ih =>
    -- the first flag reads the first values, the others read the rest
    have hfirst : (values.take k).length = k := by
      rw [List.length_take, hn, Nat.min_eq_left (Nat.le_add_right k m)]
    have hothers : (values.drop k).length = m := by
      rw [List.length_drop, hn, Nat.add_sub_cancel_left]
    rw [← hfirst] at hc
    obtain ⟨effect, heffect⟩ := performs_parseShort hc
    obtain ⟨effect', heffect'⟩ := ih hothers
    have hboth := heffect.andThen heffect'
    rw [List.take_append_drop] at hboth
    exact ⟨_, hboth⟩

theorem performs_parseLong {name : String} {values : List String}
    (h : Takes (f.long? name) f.unknownLong values.length) :
    ∃ effect, ∀ t, Performs (f.parseLong name none t) values effect := by
  generalize hn : values.length = n at h
  unfold parseLong
  cases h with
  | defined hdef hreads =>
    subst hn
    obtain ⟨effect, heffect⟩ := performs_element hreads
    rw [hdef]
    exact ⟨effect, fun _ => heffect⟩
  | unknown hdef =>
    rw [hdef]
    rcases UnknownFlag.reads_cases hn with ⟨hpolicy, v, rfl⟩ | ⟨hpolicy, rfl⟩
    · obtain ⟨effect, heffect⟩ := performs_leaf (.string name) v
      rw [hpolicy]
      exact ⟨effect, fun _ => heffect⟩
    · cases hp : f.unknownLong with
      | acceptValue => exact absurd hp hpolicy
      | reject => exact ⟨_, fun _ => performs_reject (.unknownLong name)⟩
      | ignore => exact ⟨_, fun _ => performs_idle⟩
      | acceptNonvalue => exact ⟨_, fun _ => performs_put name (.bool true)⟩

theorem performed_onCursor {left more : List String} {r : Context × Option Complaint} {o : Outcome}
    (h : Performed left r o) {c : Cursor} (hc : c.Valid) (hrest : c.rest.map (·.value) = more) :
    Performed more r (onCursor c o) := by
  cases h with
  | ok _ _ => exact .ok hc hrest
  | failed err s => exact .failed err ⟨c, s.context⟩

theorem values_inlineCursor (c : Cursor) (t : Token) (value : String) :
    (inlineCursor c t value).rest.map (·.value) = [value] := by
  simp [inlineCursor, Cursor.onTokens]

theorem performs_parseLong_inline (hf : f.Simple) (name value : String) :
    ∃ effect, ∀ t, Performs (f.parseLong name (some value) t) [] effect := by
  unfold parseLong
  cases hdef : f.long? name with
  | some e =>
    obtain ⟨d, hd, rfl⟩ := OrderedMap.mem_of_get? hdef
    obtain ⟨n, hn⟩ := hf.long d hd
    have hread : ∃ (effect : Effect) (left : List String), ∀ (t : Token) (s : State),
        Performed left (effect s.context) (d.2.parse ⟨inlineCursor s.cursor t value, s.context⟩) := by
      generalize d.2 = e at hn
      cases hn with
      | plain key =>
        exact ⟨fun context => (context.put key (.bool true), none), [value], fun t s =>
          performs_put key (.bool true) ⟨inlineCursor s.cursor t value, s.context⟩ [value]
            (Cursor.valid_ofTokens _ _) (values_inlineCursor s.cursor t value)⟩
      | value hleaf =>
        obtain ⟨effect, heffect⟩ := performs_leaf hleaf value
        exact ⟨effect, [], fun t s => heffect ⟨inlineCursor s.cursor t value, s.context⟩ []
          (Cursor.valid_ofTokens _ _) (values_inlineCursor s.cursor t value)⟩
    obtain ⟨effect, left, heffect⟩ := hread
    exact ⟨effect, fun t s more hs hrest => performed_onCursor (heffect t s) hs hrest⟩
  | none =>
    cases f.unknownLong with
    | reject => exact ⟨_, fun _ => performs_reject (.unknownLong name)⟩
    | ignore => exact ⟨_, fun _ => performs_idle⟩
    | acceptNonvalue => exact ⟨_, fun _ => performs_put name (.text value)⟩
    | acceptValue => exact ⟨_, fun _ => performs_put name (.text value)⟩

/-! ## Scans -/

theorem scan_group (hf : f.Simple) {g : List String} (hg : f.Group g) :
    ∃ effect : Effect, ∀ (n : Nat) (s : State) (more : List String), s.cursor.Valid →
      s.cursor.rest.map (·.value) = g ++ more →
      ∃ o, Performed more (effect s.context) o ∧ f.scan (n + 1) s = f.scanAfter n o := by
  cases hg with
  | @long word name values h hn =>
    obtain ⟨effect, heffect⟩ := performs_parseLong hn
    refine ⟨effect, fun n s more hs hrest => ?_⟩
    obtain ⟨t, ts, ht, hword, hts⟩ := List.map_eq_cons_iff.mp hrest
    refine ⟨_, heffect t s.behind more (hs.behind ht) ((Cursor.rest_behind ht).symm ▸ hts), ?_⟩
    rw [scan_of_rest_cons n ht, hword, h]
  | @inline word name value h =>
    obtain ⟨effect, heffect⟩ := performs_parseLong_inline hf name value
    refine ⟨effect, fun n s more hs hrest => ?_⟩
    obtain ⟨t, ts, ht, hword, hts⟩ := List.map_eq_cons_iff.mp hrest
    refine ⟨_, heffect t s.behind more (hs.behind ht) ((Cursor.rest_behind ht).symm ▸ hts), ?_⟩
    rw [scan_of_rest_cons n ht, hword, h]
  | @short word group values h hn =>
    obtain ⟨effect, heffect⟩ := performs_parseGroup hn
    refine ⟨effect, fun n s more hs hrest => ?_⟩
    obtain ⟨t, ts, ht, hword, hts⟩ := List.map_eq_cons_iff.mp hrest
    refine ⟨_, heffect s.behind more (hs.behind ht) ((Cursor.rest_behind ht).symm ▸ hts), ?_⟩
    rw [scan_of_rest_cons n ht, hword, h]

/-- What a scan of groups and positional values comes to: the groups are performed in turn, and if
none of them complains, all is read and the positional values are collected. -/
inductive Scanned (ps : List String) : Context × Option Complaint → Outcome × List Token → Prop where
  | ok {c : Cursor} {context : Context} {ts : List Token} (hc : c.Valid) (hrest : c.rest = [])
      (hts : ts.map (·.value) = ps) : Scanned ps (context, none) (.ok ⟨c, context⟩, ts)
  | failed (err : ParseError) (s : State) (ts : List Token) :
      Scanned ps (s.context, some err.complaint) (.failed err s, ts)

theorem scan_interleaves (hanchored : f.anchored = false) {effect : List String → Effect}
    {gs : List (List String)} {ps vs : List String} (hi : Interleaves gs ps vs)
    (heffect : ∀ g ∈ gs, ∀ (n : Nat) (s : State) (more : List String), s.cursor.Valid →
      s.cursor.rest.map (·.value) = g ++ more →
      ∃ o, Performed more (effect g s.context) o ∧ f.scan (n + 1) s = f.scanAfter n o)
    (hps : ∀ p ∈ ps, FlagWord.ofText p = .positional) (hgs : ∀ g ∈ gs, g ≠ []) :
    ∀ (n : Nat) (s : State), s.cursor.Valid → s.cursor.rest.map (·.value) = vs → vs.length ≤ n →
      Scanned ps (Effect.all effect gs s.context) (f.scan n s) := by
  induction hi with
  | nil =>
    intro n s hs hrest _
    have hnil : s.cursor.rest = [] := List.map_eq_nil_iff.mp hrest
    rw [scan_of_rest_nil n hnil]
    exact .ok hs hnil rfl
  | @group g gs ps vs hi ih =>
    intro n s hs hrest hlen
    have hpos : 0 < g.length := List.length_pos_iff.mpr (hgs g (by simp))
    rw [List.length_append] at hlen
    obtain ⟨m, rfl⟩ : ∃ m, n = m + 1 := ⟨n - 1, by omega⟩
    obtain ⟨o, ho, hscan⟩ := heffect g (by simp) m s vs hs hrest
    rw [hscan, Effect.all, Effect.andThen]
    revert ho
    generalize effect g s.context = r
    intro ho
    cases ho with
    | @ok c context hc hmore =>
      exact ih (fun g' hg' => heffect g' (by simp [hg'])) hps (fun g' hg' => hgs g' (by simp [hg']))
        m ⟨c, context⟩ hc hmore (by omega)
    | failed err s' => exact .failed err s' []
  | @positional p gs ps vs hi ih =>
    intro n s hs hrest hlen
    obtain ⟨m, rfl⟩ : ∃ m, n = m + 1 := ⟨n - 1, by simp at hlen; omega⟩
    obtain ⟨t, ts, ht, hp, hts⟩ := List.map_eq_cons_iff.mp hrest
    have hlater := ih heffect (fun p' hp' => hps p' (by simp [hp'])) hgs m s.behind (hs.behind ht)
      ((Cursor.rest_behind ht).symm ▸ hts) (by simpa using hlen)
    rw [scan_of_rest_cons m ht, hp, hps p (by simp)]
    simp only [hanchored, Bool.false_eq_true, if_false]
    show Scanned (p :: ps) (Effect.all effect gs s.behind.context) _
    revert hlater
    generalize f.scan m s.behind = a
    generalize Effect.all effect gs s.behind.context = r
    intro hlater
    cases hlater with
    | ok hc hnil hps' => exact .ok hc hnil (by rw [List.map_cons, hp, hps'])
    | failed err s' us => exact .failed err s' (t :: us)

theorem Group.ne_nil {g : List String} (h : f.Group g) : g ≠ [] := by
  cases h <;> exact List.cons_ne_nil _ _

/-! ## The child -/

theorem values_handBack {c left : Cursor} (hrest : c.rest = []) (p : Cursor.Position) :
    (if left.hasNext then c.splice p left.rest else c).rest = left.rest := by
  split
  · exact Cursor.rest_splice c p left.rest
  · next hnone =>
    rw [hrest, eq_comm, ← Cursor.hasNext_eq_false_iff]
    exact Bool.eq_false_iff.mpr hnone

theorem reason?_onCursor (c : Cursor) (o : Outcome) : (onCursor c o).reason? = o.reason? := by
  cases o <;> rfl

theorem context_onCursor (c : Cursor) (o : Outcome) :
    (onCursor c o).state.context = o.state.context := by
  cases o <;> rfl

theorem cursor_onCursor (c : Cursor) (o : Outcome) : (onCursor c o).state.cursor = c := by
  cases o <;> rfl

/-- **Flags may stand anywhere.** Around a child that does not record the line as it was written,
unanchored simple flags give the same outcome for any two ways of mixing the same groups with the
same positional values: success on both or failure on both for the same reason, the same context,
and after a success the same values left. -/
theorem parse_placement {f : Flags} {child : Element} (hanchored : f.anchored = false)
    (hf : f.Simple) (hchild : child.Built false) {gs : List (List String)} {ps vs ws : List String}
    (hgs : ∀ g ∈ gs, f.Group g) (hps : ∀ p ∈ ps, FlagWord.ofText p = .positional)
    (hvs : Interleaves gs ps vs) (hws : Interleaves gs ps ws) {c d : Cursor} (hc : c.Valid)
    (hd : d.Valid) (hcvs : c.rest.map (·.value) = vs) (hdws : d.rest.map (·.value) = ws)
    (context : Context) :
    ((f.around child).parse ⟨c, context⟩).reason? = ((f.around child).parse ⟨d, context⟩).reason? ∧
    ((f.around child).parse ⟨c, context⟩).state.context =
      ((f.around child).parse ⟨d, context⟩).state.context ∧
    (((f.around child).parse ⟨c, context⟩).isOk = true →
      ((f.around child).parse ⟨c, context⟩).state.cursor.rest.map (·.value) =
        ((f.around child).parse ⟨d, context⟩).state.cursor.rest.map (·.value)) := by
  have hgroup : ∀ g, f.Group g → ∃ effect : Effect, ∀ (n : Nat) (s : State) (more : List String),
      s.cursor.Valid → s.cursor.rest.map (·.value) = g ++ more →
      ∃ o, Performed more (effect s.context) o ∧ f.scan (n + 1) s = f.scanAfter n o :=
    fun g hg => scan_group hf hg
  choose! effect heffect using hgroup
  have hscan : ∀ us, Interleaves gs ps us → ∀ a : Cursor, a.Valid → a.rest.map (·.value) = us →
      Scanned ps (Effect.all effect gs context) (f.scan a.remaining ⟨a, context⟩) := by
    intro us hus a ha hrest
    have hlen : us.length ≤ a.remaining := by simp [← hrest, Cursor.remaining_eq]
    exact scan_interleaves hanchored hus (fun g hg => heffect g (hgs g hg)) hps
      (fun g hg => (hgs g hg).ne_nil) a.remaining ⟨a, context⟩ ha hrest hlen
  have hleft := hscan vs hvs c hc hcvs
  have hright := hscan ws hws d hd hdws
  simp only [around, parse, hanchored, Bool.false_eq_true, if_false]
  generalize f.scan c.remaining ⟨c, context⟩ = a at hleft ⊢
  generalize f.scan d.remaining ⟨d, context⟩ = b at hright ⊢
  generalize Effect.all effect gs context = r at hleft hright
  cases hleft with
  | @ok c' after ts hc' hnil hts =>
    cases hright with
    | @ok d' _ us hd' hnil' hus =>
      -- the child runs on lists of tokens with the same values
      have hstart : State.Alike false ⟨c'.onTokens ts, after⟩ ⟨d'.onTokens us, after⟩ :=
        ⟨Cursor.valid_ofTokens _ _, Cursor.valid_ofTokens _ _,
          Cursor.alike_ofTokens ⟨hts.trans hus.symm, nofun⟩ nofun, rfl⟩
      have hrun := (hchild.uniform _ _ hstart).alike
      simp only [Outcome.andThen, reason?_onCursor, context_onCursor, cursor_onCursor,
        values_handBack hnil, values_handBack hnil']
      exact ⟨hrun.reason?_eq, hrun.context_eq, fun _ => hrun.cursor.values⟩
  | failed err s ts =>
    generalize hcomplaint : err.complaint = complaint at hright
    generalize hcontext : s.context = after at hright
    cases hright with
    | failed err' t us =>
      exact ⟨congrArg some (ParseError.reason_eq hcomplaint), hcontext, nofun⟩

open Element in
/-- The value of a flag may look like a flag, and a group of short flags may stand on either side of
a positional value. -/
theorem parse_placement_groups :
    let f : Flags := { short := [('v', markTrue "v"), ('n', string "n")], unknownLong := .acceptValue }
    let child := optional (string "word") none false
    let before := [⟨"-vn", 0, 3⟩, ⟨"--x", 4, 7⟩, ⟨"--y=1", 8, 13⟩, ⟨"p", 14, 15⟩, ⟨"q", 16, 17⟩]
    let around := [⟨"p", 0, 1⟩, ⟨"-vn", 2, 5⟩, ⟨"--x", 6, 9⟩, ⟨"q", 10, 11⟩, ⟨"--y=1", 12, 17⟩]
    let left := (f.around child).parse ⟨.ofTokens "-vn --x --y=1 p q" before, .empty⟩
    let right := (f.around child).parse ⟨.ofTokens "p -vn --x q --y=1" around, .empty⟩
    left.reason? = right.reason? ∧ left.state.context = right.state.context ∧
      (left.isOk = true → left.state.cursor.rest.map (·.value) =
        right.state.cursor.rest.map (·.value)) := by
  intro f child before around left right
  have hsimple : f.Simple := by
    refine ⟨?_, nofun⟩
    simp only [f, List.forall_mem_cons, List.not_mem_nil, false_implies, implies_true, and_true]
    exact ⟨⟨0, .plain "v"⟩, 1, .value (.string "n")⟩
  have hvn : f.Group ["-vn", "--x"] :=
    .short (by decide : FlagWord.ofText "-vn" = .short ['v', 'n'])
      (.cons (.defined rfl (.plain "v")) (.cons (.defined rfl (.value (.string "n"))) .nil))
  have hy : f.Group ["--y=1"] :=
    .inline (by decide : FlagWord.ofText "--y=1" = .long "y" (some "1"))
  have hgroups : ∀ g ∈ [["-vn", "--x"], ["--y=1"]], f.Group g := by
    simp only [List.forall_mem_cons, List.not_mem_nil, false_implies, implies_true, and_true]
    exact ⟨hvn, hy⟩
  have hbefore : Interleaves [["-vn", "--x"], ["--y=1"]] ["p", "q"]
      ["-vn", "--x", "--y=1", "p", "q"] :=
    .group ["-vn", "--x"] (.group ["--y=1"] (.positional "p" (.positional "q" .nil)))
  have haround : Interleaves [["-vn", "--x"], ["--y=1"]] ["p", "q"]
      ["p", "-vn", "--x", "q", "--y=1"] :=
    .positional "p" (.group ["-vn", "--x"] (.positional "q" (.group ["--y=1"] .nil)))
  exact parse_placement rfl hsimple (.optional none false (.token (.string "word"))) hgroups
    (by decide) hbefore haround (Cursor.valid_ofTokens _ _) (Cursor.valid_ofTokens _ _) rfl rfl .empty

end Flags

end ArgGrammar
