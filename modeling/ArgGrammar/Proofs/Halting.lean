import ArgGrammar.Proofs.Progress

/-!
# Parses that come to an end

A repetition leaves off when its rounds are used up, and `Element.halts` tells such a parse from one
that has come to an end.

* `Element.Returns e s o`: parsing comes to an end, with the outcome `o`.
* `Element.Lengthened e e'`: the same grammar with as many rounds or more for every repetition.
  `Lengthened.returns`: a parse that comes to an end does so with any number of further rounds, and
  its outcome stays the same. It is what repetition without a bound does.
* `Built.halts_alike`: whether a parse comes to an end does not depend on the views out of sight.
* `BuiltWith.halts`: a grammar whose unanchored flags stand around consuming elements always comes to
  an end.
* `Flags.halts_allOf`: the repetition of flags around nothing never does, whatever its rounds.
-/

namespace ArgGrammar

variable {exact : Bool}

namespace Element

/-- Parsing from `s` comes to an end, with the outcome `o`. -/
def Returns (e : Element) (s : State) (o : Outcome) : Prop := e.halts s = true ∧ e.parse s = o

/-- Parsing from `s` comes to an end with success. -/
def Succeeds (e : Element) (s : State) : Prop := ∃ t, e.Returns s (.ok t)

/-- Parsing from `s` comes to an end with an error. -/
def Fails (e : Element) (s : State) : Prop := ∃ err t, e.Returns s (.failed err t)

variable {e e' : Element}

theorem succeeds_iff {s : State} :
    e.Succeeds s ↔ e.halts s = true ∧ (e.parse s).isOk = true := by
  constructor
  · rintro ⟨t, hhalts, hparse⟩
    exact ⟨hhalts, by rw [hparse]; rfl⟩
  · rintro ⟨hhalts, hok⟩
    cases hparse : e.parse s with
    | ok t => exact ⟨t, hhalts, hparse⟩
    | failed err t => simp [hparse, Outcome.isOk] at hok

theorem fails_iff {s : State} : e.Fails s ↔ e.halts s = true ∧ (e.parse s).isOk = false := by
  constructor
  · rintro ⟨err, t, hhalts, hparse⟩
    exact ⟨hhalts, by rw [hparse]; rfl⟩
  · rintro ⟨hhalts, hfail⟩
    cases hparse : e.parse s with
    | ok t => simp [hparse, Outcome.isOk] at hfail
    | failed err t => exact ⟨err, t, hhalts, hparse⟩

end Element

/-! ## Further rounds -/

namespace Element

/-- The second grammar is the first with as many rounds or more for every repetition. -/
inductive Lengthened : Element → Element → Prop where
  | refl (e : Element) : Lengthened e e
  | seq {ps : List (Element × Element)} (h : ∀ p ∈ ps, Lengthened p.1 p.2) :
      Lengthened (.seq (ps.map (·.1))) (.seq (ps.map (·.2)))
  | optional {e e' : Element} (default : Option Value) (weak : Bool) (h : Lengthened e e') :
      Lengthened (.optional e default weak) (.optional e' default weak)
  | firstOf {ps : List (Element × Element)} (h : ∀ p ∈ ps, Lengthened p.1 p.2) :
      Lengthened (.firstOf (ps.map (·.1))) (.firstOf (ps.map (·.2)))
  | times (n : Nat) {e e' : Element} (h : Lengthened e e') : Lengthened (.times n e) (.times n e')
  | allOf {m n : Nat} (hmn : m ≤ n) {e e' : Element} (h : Lengthened e e') :
      Lengthened (.allOf e m) (.allOf e' n)
  | onlyOne {e e' : Element} (h : Lengthened e e') : Lengthened (.onlyOne e) (.onlyOne e')
  | flags (f : Flags) {short : OrderedMap Char (Element × Element)}
      {long : OrderedMap String (Element × Element)} {child child' : Element}
      (hshort : ∀ d ∈ short, Lengthened d.2.1 d.2.2) (hlong : ∀ d ∈ long, Lengthened d.2.1 d.2.2)
      (h : Lengthened child child') :
      Lengthened
        (({ f with short := short.mapValues (·.1), long := long.mapValues (·.1) } : Flags).around
          child)
        (({ f with short := short.mapValues (·.2), long := long.mapValues (·.2) } : Flags).around
          child')

/-- Where parsing with the first functions comes to an end, the second do the same. -/
def Upholds (halts : State → Bool) (parse : State → Outcome) (halts' : State → Bool)
    (parse' : State → Outcome) : Prop :=
  ∀ s : State, halts s = true → halts' s = true ∧ parse' s = parse s

/-- Elements with the same key, of which the second does what the first does where that comes to an
end. -/
structure Outlasted (e e' : Element) : Prop where
  key : e'.key = e.key
  run : Upholds e.halts e.parse e'.halts e'.parse

theorem Upholds.andThen {halts halts' later later' : State → Bool}
    {parse parse' f f' : State → Outcome} (h : Upholds halts parse halts' parse')
    (hf : Upholds later f later' f') :
    Upholds (fun s => halts s && (parse s).all later) (fun s => (parse s).andThen f)
      (fun s => halts' s && (parse' s).all later') (fun s => (parse' s).andThen f') := by
  intro s hs
  obtain ⟨hhalts, hlater⟩ := Bool.and_eq_true_iff.mp hs
  obtain ⟨hhalts', hparse⟩ := h s hhalts
  simp only [hhalts', hparse, Bool.true_and]
  cases ho : parse s with
  | ok t => exact hf t (by rwa [ho] at hlater)
  | failed err t => exact ⟨rfl, rfl⟩

theorem upholds_parseSeq {ps : List (Element × Element)} (h : ∀ p ∈ ps, Outlasted p.1 p.2) :
    Upholds (haltsSeq (ps.map (·.1))) (parseSeq (ps.map (·.1))) (haltsSeq (ps.map (·.2)))
      (parseSeq (ps.map (·.2))) := by
  induction ps with
  | nil => exact fun s _ => ⟨rfl, rfl⟩
  | cons p ps ih => exact (h p (by simp)).run.andThen (ih fun p' hp' => h p' (by simp [hp']))

theorem upholds_parseFirst {ps : List (Element × Element)} (h : ∀ p ∈ ps, Outlasted p.1 p.2)
    (start : State) (last : ParseError) :
    Upholds (haltsFirst start (ps.map (·.1))) (parseFirst start (ps.map (·.1)) last)
      (haltsFirst start (ps.map (·.2))) (parseFirst start (ps.map (·.2)) last) := by
  induction ps generalizing last with
  | nil => exact fun s _ => ⟨rfl, rfl⟩
  | cons p ps ih =>
    intro s hs
    simp only [List.map_cons, haltsFirst, Bool.and_eq_true] at hs
    obtain ⟨hhere, hlater⟩ := hs
    obtain ⟨hhalts, hparse⟩ := (h p (by simp)).run s hhere
    simp only [List.map_cons, haltsFirst, parseFirst, hhalts, hparse, Bool.true_and]
    cases ho : p.1.parse s with
    | ok t => exact ⟨rfl, rfl⟩
    | failed err t =>
      rw [ho] at hlater
      exact ih (fun p' hp' => h p' (by simp [hp'])) err _ hlater

theorem Outlasted.optional (h : Outlasted e e') (default : Option Value) (weak : Bool) :
    Outlasted (.optional e default weak) (.optional e' default weak) := by
  refine ⟨h.key, fun s hs => ?_⟩
  have hskip : recordDefault e' default = recordDefault e default := by
    funext t
    unfold recordDefault
    rw [h.key]
  simp only [Element.optional, ofStep, parseOptional] at hs ⊢
  by_cases hnext : s.cursor.hasNext = true
  · obtain ⟨hhalts, hparse⟩ := h.run s (by simpa [hnext] using hs)
    simp [hnext, hhalts, hparse, hskip]
  · simp [hnext, hskip]

theorem haltsAll_of_not_hasNext (n : Nat) {s : State} (h : s.cursor.hasNext = false) :
    haltsAll e n s = true := by
  cases n <;> simp [haltsAll, h]

theorem haltsAll_succ (n : Nat) {s : State} (h : s.cursor.hasNext = true) :
    haltsAll e (n + 1) s = (e.halts s && (e.parse s).all fun t =>
      if t.cursor.position = s.cursor.position then true else haltsAll e n t) := by
  rw [haltsAll, h, Bool.not_true, Bool.false_or]

theorem parseAll_of_not_hasNext (n : Nat) {s : State} (h : s.cursor.hasNext = false) :
    parseAll e n s = .ok s :=
  parseAll_of_rest_nil n ((Cursor.hasNext_eq_false_iff _).mp h)

theorem upholds_parseAll (h : Outlasted e e') {m n : Nat} (hmn : m ≤ n) :
    Upholds (haltsAll e m) (parseAll e m) (haltsAll e' n) (parseAll e' n) := by
  induction m generalizing n with
  | zero =>
    intro s hs
    have hnext : s.cursor.hasNext = false := by simpa [haltsAll] using hs
    rw [parseAll_of_not_hasNext n hnext]
    exact ⟨haltsAll_of_not_hasNext n hnext, rfl⟩
  | succ m ih =>
    obtain ⟨n, rfl⟩ : ∃ k, n = k + 1 := ⟨n - 1, by omega⟩
    intro s hs
    cases hnext : s.cursor.hasNext with
    | false =>
      rw [parseAll_of_not_hasNext _ hnext, parseAll_of_not_hasNext _ hnext]
      exact ⟨haltsAll_of_not_hasNext _ hnext, rfl⟩
    | true =>
      rw [haltsAll_succ m hnext] at hs
      obtain ⟨hhere, hlater⟩ := Bool.and_eq_true_iff.mp hs
      obtain ⟨hhalts, hparse⟩ := h.run s hhere
      rw [haltsAll_succ n hnext, parseAll, parseAll, if_pos hnext, if_pos hnext, hparse, hhalts,
        Bool.true_and]
      cases ho : e.parse s with
      | failed err t => exact ⟨rfl, rfl⟩
      | ok t =>
        rw [ho] at hlater
        simp only [Outcome.all] at hlater ⊢
        split
        · exact ⟨rfl, rfl⟩
        · next hpos =>
          rw [if_neg hpos] at hlater
          exact ih (by omega) t hlater

theorem Outlasted.onlyOne (h : Outlasted e e') : Outlasted (.onlyOne e) (.onlyOne e') := by
  refine ⟨h.key, fun s hs => ?_⟩
  obtain ⟨hhalts, hparse⟩ := h.run s hs
  exact ⟨hhalts, by simp only [Element.onlyOne, hparse, h.key]⟩

end Element

namespace Flags

open Element (Outlasted Upholds)

variable {f f' : Flags} {child child' : Element}

theorem upholds_parseLong (hf : Related Outlasted f f') (name : String) (inline : Option String)
    (t : Token) :
    Upholds (f.haltsLong name inline t) (f.parseLong name inline t) (f'.haltsLong name inline t)
      (f'.parseLong name inline t) := by
  intro s hs
  unfold haltsLong at hs
  unfold haltsLong parseLong
  rcases hf.long name with ⟨h, h'⟩ | ⟨e, e', h, h', he⟩
  · rw [h, h', hf.unknownLong]
    exact ⟨rfl, rfl⟩
  · rw [h] at hs
    rw [h, h']
    cases inline with
    | none => exact he.run s hs
    | some value =>
      obtain ⟨hhalts, hparse⟩ := he.run _ hs
      exact ⟨hhalts, by dsimp only; rw [hparse]⟩

theorem upholds_parseShort (hf : Related Outlasted f f') (name : Char) :
    Upholds (f.haltsShort name) (f.parseShort name) (f'.haltsShort name) (f'.parseShort name) := by
  intro s hs
  unfold haltsShort at hs
  unfold haltsShort parseShort
  rcases hf.short name with ⟨h, h'⟩ | ⟨e, e', h, h', he⟩
  · rw [h, h', hf.unknownShort]
    exact ⟨rfl, rfl⟩
  · rw [h] at hs
    rw [h, h']
    exact he.run s hs

theorem upholds_parseGroup (hf : Related Outlasted f f') (group : List Char) :
    Upholds (f.haltsGroup group) (f.parseGroup group) (f'.haltsGroup group)
      (f'.parseGroup group) := by
  induction group with
  | nil => exact fun s _ => ⟨rfl, rfl⟩
  | cons c cs ih => exact (upholds_parseShort hf c).andThen ih

theorem haltsScan_of_rest_nil (n : Nat) {s : State} (h : s.cursor.rest = []) :
    f.haltsScan n s = true := by
  cases n with
  | zero => rfl
  | succ n => rw [haltsScan, Cursor.next?_of_rest_nil h]

theorem haltsScan_of_rest_cons (n : Nat) {s : State} {t : Token} {ts : List Token}
    (h : s.cursor.rest = t :: ts) :
    f.haltsScan (n + 1) s = match FlagWord.ofText t.value with
      | .positional => f.anchored || f.haltsScan n s.behind
      | .long name inline =>
        f.haltsLong name inline t s.behind &&
          (f.parseLong name inline t s.behind).all (f.haltsScan n)
      | .short group =>
        f.haltsGroup group s.behind && (f.parseGroup group s.behind).all (f.haltsScan n) := by
  rw [haltsScan, Cursor.next?_of_rest_cons h]
  rfl

theorem scan_eq (hf : Related Outlasted f f') (n : Nat) {s : State} (hs : f.haltsScan n s = true) :
    f'.haltsScan n s = true ∧ f'.scan n s = f.scan n s := by
  induction n generalizing s with
  | zero => exact ⟨rfl, rfl⟩
  | succ n ih =>
    cases hrest : s.cursor.rest with
    | nil =>
      rw [haltsScan_of_rest_nil _ hrest, scan_of_rest_nil _ hrest, scan_of_rest_nil _ hrest]
      exact ⟨rfl, rfl⟩
    | cons t ts =>
      have hafter : ∀ {halts halts' : State → Bool} {parse parse' : State → Outcome},
          Upholds halts parse halts' parse' →
          (halts s.behind && (parse s.behind).all (f.haltsScan n)) = true →
          (halts' s.behind && (parse' s.behind).all (f'.haltsScan n)) = true ∧
            f'.scanAfter n (parse' s.behind) = f.scanAfter n (parse s.behind) := by
        intro halts halts' parse parse' hflag hgo
        obtain ⟨hhere, hlater⟩ := Bool.and_eq_true_iff.mp hgo
        obtain ⟨hhalts, hparse⟩ := hflag _ hhere
        rw [hhalts, hparse, Bool.true_and]
        cases ho : parse s.behind with
        | ok u => exact ih (by rwa [ho] at hlater)
        | failed err u => exact ⟨rfl, rfl⟩
      rw [haltsScan_of_rest_cons n hrest] at hs
      rw [haltsScan_of_rest_cons n hrest, scan_of_rest_cons n hrest, scan_of_rest_cons n hrest]
      cases hword : FlagWord.ofText t.value with
      | positional =>
        simp only [hword] at hs
        cases hanchored : f.anchored with
        | true => simp [hf.anchored, hanchored]
        | false =>
          obtain ⟨hhalts, hscan⟩ := ih (by simpa [hanchored] using hs)
          simp [hf.anchored, hanchored, hhalts, hscan]
      | long name inline =>
        rw [hword] at hs
        exact hafter (upholds_parseLong hf name inline t) hs
      | short group =>
        rw [hword] at hs
        exact hafter (upholds_parseGroup hf group) hs

theorem outlasted_around (hf : Related Outlasted f f') (h : Outlasted child child') :
    Outlasted (f.around child) (f'.around child') := by
  refine ⟨rfl, fun s hs => ?_⟩
  simp only [around, halts, parse] at hs ⊢
  obtain ⟨hscan, hchild⟩ := Bool.and_eq_true_iff.mp hs
  obtain ⟨hscan', heq⟩ := scan_eq hf _ hscan
  rw [hscan', heq, hf.anchored]
  generalize f.scan s.cursor.remaining s = r at hchild ⊢
  obtain ⟨o, ts⟩ := r
  cases o with
  | failed err t => exact ⟨rfl, rfl⟩
  | ok t =>
    simp only [Outcome.all, Outcome.andThen, Bool.true_and] at hchild ⊢
    obtain ⟨hhalts, hparse⟩ := h.run _ hchild
    refine ⟨hhalts, ?_⟩
    split
    · next hanchored => rwa [if_pos hanchored] at hparse
    · next hanchored =>
      rw [if_neg hanchored] at hparse
      rw [hparse]

end Flags

namespace Element

theorem Lengthened.outlasted (h : Lengthened e e') : Outlasted e e' := by
  induction h with
  | refl e => exact ⟨rfl, fun s hs => ⟨hs, rfl⟩⟩
  | seq _ ih => exact ⟨rfl, upholds_parseSeq ih⟩
  | optional default weak _ ih => exact ih.optional default weak
  | firstOf _ ih => exact ⟨rfl, fun s hs => upholds_parseFirst ih s _ s hs⟩
  | @times n e e' _ ih =>
    refine ⟨ih.key, ?_⟩
    have hpairs : ∀ p ∈ List.replicate n (e, e'), Outlasted p.1 p.2 := by
      intro p hp
      obtain rfl := List.eq_of_mem_replicate hp
      exact ih
    have hmany := upholds_parseSeq hpairs
    rwa [List.map_replicate, List.map_replicate] at hmany
  | allOf hmn _ ih => exact ⟨ih.key, fun s hs => upholds_parseAll ih (by omega) s hs⟩
  | onlyOne _ ih => exact ih.onlyOne
  | flags f _ _ _ ihshort ihlong ih =>
    exact Flags.outlasted_around (f.related_mapValues ihshort ihlong) ih

/-- A parse that comes to an end does so with any number of further rounds, and ends alike. -/
theorem Lengthened.returns (h : Lengthened e e') {s : State} {o : Outcome} (ho : e.Returns s o) :
    e'.Returns s o := by
  obtain ⟨hhalts, hparse⟩ := h.outlasted.run s ho.1
  exact ⟨hhalts, hparse.trans ho.2⟩

end Element

/-! ## Cursors with the same tokens -/

/-- The condition is the same in states that are alike. -/
def HaltsAlike (exact : Bool) (halts : State → Bool) : Prop :=
  ∀ s t : State, s.Alike exact t → halts s = halts t

theorem HaltsAlike.andThen {halts later : State → Bool} {parse : State → Outcome}
    (h : HaltsAlike exact halts) (hparse : Uniform exact parse) (hlater : HaltsAlike exact later) :
    HaltsAlike exact fun s => halts s && (parse s).all later := by
  intro s t hst
  have hrun := (hparse s t hst).alike
  simp only [h s t hst]
  revert hrun
  generalize parse s = o
  generalize parse t = p
  intro hrun
  cases hrun with
  | ok h' => exact congrArg _ (hlater _ _ h')
  | failed _ _ _ => rfl

namespace Element

theorem haltsAlike_seq {es : List Element} (hes : ∀ e ∈ es, Uniform exact e.parse)
    (h : ∀ e ∈ es, HaltsAlike exact e.halts) : HaltsAlike exact (haltsSeq es) := by
  induction es with
  | nil => exact fun s t _ => rfl
  | cons e es ih =>
    exact (h e (by simp)).andThen (hes e (by simp))
      (ih (fun e' he' => hes e' (by simp [he'])) fun e' he' => h e' (by simp [he']))

theorem haltsFirst_eq {es : List Element} (hes : ∀ e ∈ es, Uniform exact e.parse)
    (h : ∀ e ∈ es, HaltsAlike exact e.halts) {start start' s t : State}
    (hstart : start.Alike exact start') (hst : s.Alike exact t) (hs : start.Leads s)
    (ht : start'.Leads t) : haltsFirst start es s = haltsFirst start' es t := by
  induction es generalizing s t with
  | nil => rfl
  | cons e es ih =>
    have hrun := hes e (by simp) s t hst
    have hleads := hs.trans hrun.leadsLeft
    have hleads' := ht.trans hrun.leadsRight
    have halike := hrun.alike
    rw [haltsFirst, haltsFirst, h e (by simp) s t hst]
    revert hleads hleads' halike
    generalize e.parse s = o
    generalize e.parse t = p
    intro hleads hleads' halike
    cases halike with
    | ok _ => rfl
    | failed _ _ _ =>
      exact congrArg _ (ih (fun e' he' => hes e' (by simp [he'])) (fun e' he' => h e' (by simp [he']))
        (hstart.backTo hleads hleads') (State.leads_backTo hstart.validLeft hleads)
        (State.leads_backTo hstart.validRight hleads'))

theorem haltsAlike_all (hparse : Uniform exact e.parse) (h : HaltsAlike exact e.halts) (n : Nat) :
    HaltsAlike exact (haltsAll e n) := by
  induction n with
  | zero =>
    intro s t hst
    rw [haltsAll, haltsAll, hst.cursor.hasNext]
  | succ n ih =>
    intro s t hst
    cases hnext : s.cursor.hasNext with
    | false =>
      rw [haltsAll_of_not_hasNext _ hnext,
        haltsAll_of_not_hasNext _ (hst.cursor.hasNext.symm.trans hnext)]
    | true =>
      have hrun := hparse s t hst
      rw [haltsAll_succ n hnext, haltsAll_succ n (hst.cursor.hasNext.symm.trans hnext), h s t hst]
      revert hrun
      generalize e.parse s = o
      generalize e.parse t = p
      intro hrun
      have halike := hrun.alike
      cases halike with
      | failed _ _ _ => rfl
      | @ok s' t' h' =>
        have hstays : s'.cursor.position = s.cursor.position ↔
            t'.cursor.position = t.cursor.position := hrun.stays
        simp only [Outcome.all, hstays, ih s' t' h']

end Element

namespace Flags

variable {f : Flags} {child : Element}

theorem haltsAlike_long (hlong : ∀ d ∈ f.long, HaltsAlike exact d.2.halts) (name : String)
    (inline : Option String) {a b : Token} (hab : exact = true → a = b) {s t : State}
    (h : s.Alike exact t) : f.haltsLong name inline a s = f.haltsLong name inline b t := by
  unfold haltsLong
  split
  · next e he =>
    obtain ⟨d, hd, rfl⟩ := OrderedMap.mem_of_get? he
    exact hlong d hd s t h
  · next e value he =>
    obtain ⟨d, hd, rfl⟩ := OrderedMap.mem_of_get? he
    exact hlong d hd _ _ ⟨Cursor.valid_ofTokens _ _, Cursor.valid_ofTokens _ _,
      tokensAlike_inline h hab value, h.context⟩
  · rfl

theorem haltsAlike_short (hshort : ∀ d ∈ f.short, HaltsAlike exact d.2.halts) (name : Char) :
    HaltsAlike exact (f.haltsShort name) := by
  intro s t h
  unfold haltsShort
  split
  · next e he =>
    obtain ⟨d, hd, rfl⟩ := OrderedMap.mem_of_get? he
    exact hshort d hd s t h
  · rfl

theorem haltsAlike_group (hparse : ∀ d ∈ f.short, Uniform exact d.2.parse)
    (hshort : ∀ d ∈ f.short, HaltsAlike exact d.2.halts) (group : List Char) :
    HaltsAlike exact (f.haltsGroup group) := by
  induction group with
  | nil => exact fun s t _ => rfl
  | cons c cs ih => exact (haltsAlike_short hshort c).andThen (uniform_parseShort hparse c) ih

theorem haltsAlike_scan (hparse : ∀ d ∈ f.short, Uniform exact d.2.parse)
    (hparse' : ∀ d ∈ f.long, Uniform exact d.2.parse)
    (hshort : ∀ d ∈ f.short, HaltsAlike exact d.2.halts)
    (hlong : ∀ d ∈ f.long, HaltsAlike exact d.2.halts) (n : Nat) :
    HaltsAlike exact (f.haltsScan n) := by
  induction n with
  | zero => exact fun s t _ => rfl
  | succ n ih =>
    intro s t h
    obtain ⟨hs, ht⟩ | ⟨a, ts, b, us, ha, hb, hvalue, hab, hnext⟩ := h.cursor.cases
    · rw [haltsScan_of_rest_nil _ hs, haltsScan_of_rest_nil _ ht]
    · have hbehind : s.behind.Alike exact t.behind :=
        ⟨h.validLeft.behind ha, h.validRight.behind hb, hnext, h.context⟩
      have hafter : ∀ {o p : Outcome}, o.Alike exact p →
          o.all (f.haltsScan n) = p.all (f.haltsScan n) := by
        intro o p hop
        cases hop with
        | ok h' => exact ih _ _ h'
        | failed _ _ _ => rfl
      rw [haltsScan_of_rest_cons n ha, haltsScan_of_rest_cons n hb, hvalue]
      split
      · rw [ih _ _ hbehind]
      · rw [haltsAlike_long hlong _ _ hab hbehind,
          hafter (matches_parseLong hparse' _ _ hab hbehind).alike]
      · rw [haltsAlike_group hparse hshort _ _ _ hbehind,
          hafter (uniform_parseGroup hparse _ _ _ hbehind).alike]

theorem haltsAlike_around (hparse : ∀ d ∈ f.short, Uniform exact d.2.parse)
    (hparse' : ∀ d ∈ f.long, Uniform exact d.2.parse)
    (hshort : ∀ d ∈ f.short, HaltsAlike exact d.2.halts)
    (hlong : ∀ d ∈ f.long, HaltsAlike exact d.2.halts) (hchild : HaltsAlike exact child.halts) :
    HaltsAlike exact (f.halts child) := by
  intro s t h
  obtain ⟨hscan, htokens⟩ := matches_scan hparse hparse' s.cursor.remaining h
  have halike := hscan.alike
  simp only [halts, ← h.cursor.remaining, haltsAlike_scan hparse hparse' hshort hlong _ _ _ h]
  revert halike htokens
  generalize f.scan s.cursor.remaining s = a
  generalize f.scan s.cursor.remaining t = b
  obtain ⟨o, ts⟩ := a
  obtain ⟨p, us⟩ := b
  intro htokens halike
  dsimp only at htokens halike ⊢
  cases halike with
  | failed _ _ _ => rfl
  | @ok s' t' h' =>
    have hinner : State.Alike exact ⟨s'.cursor.onTokens ts, s'.context⟩
        ⟨t'.cursor.onTokens us, t'.context⟩ :=
      ⟨Cursor.valid_ofTokens _ _, Cursor.valid_ofTokens _ _,
        Cursor.alike_ofTokens htokens fun he => (h'.cursor.same he).1, h'.context⟩
    simp only [Outcome.all]
    split
    · rw [hchild s' t' h']
    · rw [hchild _ _ hinner]

end Flags

/-- Whether a parse comes to an end does not depend on the history of the cursor. -/
theorem Element.Built.halts_alike {e : Element} (h : Built exact e) : HaltsAlike exact e.halts := by
  induction h with
  | none => exact fun s t _ => rfl
  | markTrue key => exact fun s t _ => rfl
  | token h =>
    obtain ⟨key, convert, complete, rfl, -⟩ := h.eq_leaf
    exact fun s t _ => rfl
  | literal key value words => exact fun s t _ => rfl
  | rest key => exact fun s t _ => rfl
  | rawRest key _ => exact fun s t _ => rfl
  | seq h ih => exact haltsAlike_seq (fun e he => (h e he).uniform) ih
  | optional default weak _ ih =>
    intro s t h
    simp only [Element.optional, ofStep, h.cursor.hasNext, ih s t h]
  | firstOf h ih =>
    exact fun s t hst => haltsFirst_eq (fun e he => (h e he).uniform) ih hst hst
      (.refl hst.validLeft) (.refl hst.validRight)
  | times n h ih =>
    refine haltsAlike_seq (fun e' he' => ?_) fun e' he' => ?_ <;>
      obtain rfl := List.eq_of_mem_replicate he'
    · exact h.uniform
    · exact ih
  | allOf n h ih =>
    intro s t hst
    have hall := haltsAlike_all h.uniform ih (s.cursor.remaining + 1 + n) s t hst
    simp only [Element.allOf, ofStep, ← hst.cursor.remaining]
    exact hall
  | onlyOne _ ih => exact ih
  | flags hshort hlong hchild ihshort ihlong ih =>
    exact Flags.haltsAlike_around (fun d hd => (hshort d hd).uniform)
      (fun d hd => (hlong d hd).uniform) ihshort ihlong ih

/-! ## Grammars that always come to an end -/

/-- The condition holds wherever the cursor is valid. -/
def Halting (halts : State → Bool) : Prop := ∀ s : State, s.cursor.Valid → halts s = true

theorem Halting.andThen {halts later : State → Bool} {parse : State → Outcome}
    (h : Halting halts) (hparse : Advances parse) (hlater : Halting later) :
    Halting fun s => halts s && (parse s).all later := by
  intro s hs
  have hleads := hparse s hs
  simp only [h s hs, Bool.true_and]
  cases ho : parse s with
  | failed err t => rfl
  | ok t =>
    rw [ho] at hleads
    exact hlater t hleads.cursor.valid

namespace Element

theorem halting_seq {es : List Element} (hes : ∀ e ∈ es, Advances e.parse)
    (h : ∀ e ∈ es, Halting e.halts) : Halting (haltsSeq es) := by
  induction es with
  | nil => exact fun s _ => rfl
  | cons e es ih =>
    exact (h e (by simp)).andThen (hes e (by simp))
      (ih (fun e' he' => hes e' (by simp [he'])) fun e' he' => h e' (by simp [he']))

theorem haltsFirst_of_halting {es : List Element} (hes : ∀ e ∈ es, Advances e.parse)
    (h : ∀ e ∈ es, Halting e.halts) {start s : State} (hstart : start.cursor.Valid)
    (hs : start.Leads s) : haltsFirst start es s = true := by
  induction es generalizing s with
  | nil => rfl
  | cons e es ih =>
    have hleads := hs.trans (hes e (by simp) s hs.cursor.valid)
    rw [haltsFirst, h e (by simp) s hs.cursor.valid, Bool.true_and]
    cases ho : e.parse s with
    | ok t => rfl
    | failed err t =>
      rw [ho] at hleads
      exact ih (fun e' he' => hes e' (by simp [he'])) (fun e' he' => h e' (by simp [he']))
        (State.leads_backTo hstart hleads)

/-- Repetition that ends without a bound ends in as many rounds. -/
theorem haltsAll_of_rounds (ha : Advances e.parse) (h : Halting e.halts) {k n : Nat} (hkn : k ≤ n)
    {s : State} (hs : s.cursor.Valid) {o : Outcome} (hrounds : Rounds e s k o) :
    haltsAll e n s = true := by
  induction hrounds generalizing n with
  | finished hnext => exact haltsAll_of_not_hasNext n hnext
  | stayed hnext hparse hpos =>
    obtain ⟨n, rfl⟩ : ∃ m, n = m + 1 := ⟨n - 1, by omega⟩
    rw [haltsAll_succ n hnext, h _ hs, hparse]
    simp [Outcome.all, hpos]
  | failed hnext hparse =>
    obtain ⟨n, rfl⟩ : ∃ m, n = m + 1 := ⟨n - 1, by omega⟩
    rw [haltsAll_succ n hnext, h _ hs, hparse]
    rfl
  | again hnext hparse hpos _ ih =>
    obtain ⟨n, rfl⟩ : ∃ m, n = m + 1 := ⟨n - 1, by omega⟩
    have hleads := ha _ hs
    rw [hparse] at hleads
    have hlater := ih (Nat.le_of_succ_le_succ hkn) hleads.cursor.valid
    rw [haltsAll_succ n hnext, h _ hs, hparse]
    simp [Outcome.all, hpos, hlater]

/-- Repetition that comes to an end in its rounds does so without a bound. -/
theorem rounds_of_haltsAll {n : Nat} {s : State} (h : haltsAll e n s = true) :
    ∃ k ≤ n, Rounds e s k (parseAll e n s) := by
  induction n generalizing s with
  | zero => exact ⟨0, Nat.le_refl _, .finished (by simpa [haltsAll] using h)⟩
  | succ n ih =>
    cases hnext : s.cursor.hasNext with
    | false =>
      rw [parseAll_of_not_hasNext _ hnext]
      exact ⟨0, Nat.zero_le _, .finished hnext⟩
    | true =>
      rw [haltsAll_succ n hnext] at h
      rw [parseAll, if_pos hnext]
      have hlater := (Bool.and_eq_true_iff.mp h).2
      cases hparse : e.parse s with
      | failed err t => exact ⟨1, by omega, .failed hnext hparse⟩
      | ok t =>
        rw [hparse] at hlater
        dsimp only [Outcome.all] at hlater ⊢
        split
        · next hpos => exact ⟨1, by omega, .stayed hnext hparse hpos⟩
        · next hpos =>
          rw [if_neg hpos] at hlater
          obtain ⟨k, hk, hrounds⟩ := ih hlater
          exact ⟨k + 1, by omega, .again hnext hparse hpos hrounds⟩

end Element

namespace Flags

variable {f : Flags} {child : Element}

theorem halting_long (hlong : ∀ d ∈ f.long, Halting d.2.halts) (name : String)
    (inline : Option String) (t : Token) : Halting (f.haltsLong name inline t) := by
  intro s hs
  unfold haltsLong
  split
  · next e he =>
    obtain ⟨d, hd, rfl⟩ := OrderedMap.mem_of_get? he
    exact hlong d hd s hs
  · next e value he =>
    obtain ⟨d, hd, rfl⟩ := OrderedMap.mem_of_get? he
    exact hlong d hd _ (Cursor.valid_ofTokens _ _)
  · rfl

theorem halting_short (hshort : ∀ d ∈ f.short, Halting d.2.halts) (name : Char) :
    Halting (f.haltsShort name) := by
  intro s hs
  unfold haltsShort
  split
  · next e he =>
    obtain ⟨d, hd, rfl⟩ := OrderedMap.mem_of_get? he
    exact hshort d hd s hs
  · rfl

theorem halting_group (hparse : ∀ d ∈ f.short, Advances d.2.parse)
    (hshort : ∀ d ∈ f.short, Halting d.2.halts) (group : List Char) :
    Halting (f.haltsGroup group) := by
  induction group with
  | nil => exact fun s _ => rfl
  | cons c cs ih => exact (halting_short hshort c).andThen (advances_parseShort hparse c) ih

theorem halting_scan (hparse : ∀ d ∈ f.short, Advances d.2.parse)
    (hparse' : ∀ d ∈ f.long, Advances d.2.parse) (hshort : ∀ d ∈ f.short, Halting d.2.halts)
    (hlong : ∀ d ∈ f.long, Halting d.2.halts) (n : Nat) : Halting (f.haltsScan n) := by
  induction n with
  | zero => exact fun s _ => rfl
  | succ n ih =>
    intro s hs
    cases hrest : s.cursor.rest with
    | nil => exact haltsScan_of_rest_nil _ hrest
    | cons t ts =>
      have hbehind : s.behind.cursor.Valid := hs.behind hrest
      rw [haltsScan_of_rest_cons n hrest]
      split
      · rw [ih _ hbehind, Bool.or_true]
      · exact (halting_long hlong _ _ _).andThen (advances_parseLong hparse' _ _ _) ih _ hbehind
      · exact (halting_group hparse hshort _).andThen (advances_parseGroup hparse _) ih _ hbehind

theorem halting_around (hparse : ∀ d ∈ f.short, Advances d.2.parse)
    (hparse' : ∀ d ∈ f.long, Advances d.2.parse) (hshort : ∀ d ∈ f.short, Halting d.2.halts)
    (hlong : ∀ d ∈ f.long, Halting d.2.halts) (hchild : Halting child.halts) :
    Halting (f.halts child) := by
  intro s hs
  have hleads := (leads_scan hparse hparse' s.cursor.remaining s hs).1
  simp only [halts, halting_scan hparse hparse' hshort hlong _ s hs, Bool.true_and]
  cases ho : (f.scan s.cursor.remaining s).1 with
  | failed err t => rfl
  | ok t =>
    rw [ho] at hleads
    dsimp only [Outcome.all]
    split
    · exact hchild t hleads.cursor.valid
    · exact hchild _ (Cursor.valid_ofTokens _ _)

/-- The repetition of unanchored flags around nothing has no end: they hand positional tokens back
into one new view after another. -/
theorem halts_allOf (hanchored : f.anchored = false) {s : State} (hs : s.cursor.Valid)
    (hrest : s.cursor.rest ≠ [])
    (hwords : ∀ a ∈ s.cursor.rest, FlagWord.ofText a.value = .positional) (n : Nat) :
    (Element.allOf (f.around .none) n).halts s = false := by
  rw [Bool.eq_false_iff]
  intro h
  obtain ⟨k, -, hrounds⟩ := Element.rounds_of_haltsAll h
  exact not_rounds hanchored hs hrest hwords k _ hrounds

end Flags

/-- A grammar whose unanchored flags stand around consuming elements always comes to an end. -/
theorem Element.BuiltWith.halts {e : Element} (h : e.BuiltWith Flags.Paced) : Halting e.halts := by
  induction h with
  | none => exact fun s _ => rfl
  | markTrue key => exact fun s _ => rfl
  | token h =>
    obtain ⟨key, convert, complete, rfl, -⟩ := h.eq_leaf
    exact fun s _ => rfl
  | literal key value words => exact fun s _ => rfl
  | rest key => exact fun s _ => rfl
  | rawRest key => exact fun s _ => rfl
  | seq h ih => exact halting_seq (fun e he => (h e he).built.advances) ih
  | optional default weak _ ih =>
    intro s hs
    simp only [Element.optional, ofStep, ih s hs, Bool.or_true]
  | firstOf h ih =>
    exact fun s hs => haltsFirst_of_halting (fun e he => (h e he).built.advances) ih hs (.refl hs)
  | times n h ih =>
    refine halting_seq (fun e' he' => ?_) fun e' he' => ?_ <;>
      obtain rfl := List.eq_of_mem_replicate he'
    · exact h.built.advances
    · exact ih
  | allOf n h ih =>
    intro s hs
    obtain ⟨k, hk, hrounds⟩ :=
      rounds_parseAll h.along_progress s.cursor.rest.length hs (Nat.le_refl _)
    refine haltsAll_of_rounds h.built.advances ih (Nat.le_trans hk ?_) hs hrounds
    rw [Cursor.remaining_eq]
    omega
  | onlyOne _ ih => exact ih
  | flags _ hshort hlong hchild ihshort ihlong ih =>
    exact Flags.halting_around (fun d hd => (hshort d hd).built.advances)
      (fun d hd => (hlong d hd).built.advances) ihshort ihlong ih

end ArgGrammar
