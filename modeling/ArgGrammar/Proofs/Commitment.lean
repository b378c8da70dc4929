import ArgGrammar.Proofs.Alternatives
import ArgGrammar.Proofs.Completion
import ArgGrammar.Proofs.Inspection

/-!
# Alternatives: what is offered and what is taken

Parsing takes the first alternative that succeeds, even if it leaves input; completion offers what any
of the alternatives could still read. Where the two part, a candidate leads to a line with too many
arguments.

* `OneMore x s s'`: `s'` has one more token than `s`, behind all others.
* `Shortsighted parse`: the parse does not look behind what it reads, so it does the same in both.
* `Element.Plain`: leaves for one token, literals, sequences and repetitions; they are shortsighted.
* `Element.firstOf_leaves_iff`: when alternatives leave input.
* `firstOf_candidate_taken`: the candidates of alternatives that end in too many arguments.
-/

namespace ArgGrammar

/-! ## One token more -/

/-- The values left at `s'` are those left at `s`, and `x` behind them. -/
structure OneMore (x : String) (s s' : State) : Prop where
  left : s.cursor.Valid
  right : s'.cursor.Valid
  values : s'.cursor.rest.map (·.value) = s.cursor.rest.map (·.value) ++ [x]

/-- A parse that does not look behind what it reads. -/
structure Shortsighted (parse : State → Outcome) : Prop where
  advances : Advances parse
  longer : ∀ {x s s' t}, OneMore x s s' → parse s = .ok t → ∃ t', parse s' = .ok t' ∧ OneMore x t t'
  shorter : ∀ {x s s' t'}, OneMore x s s' → parse s' = .ok t' → t'.cursor.rest ≠ [] →
    ∃ t, parse s = .ok t ∧ OneMore x t t'

variable {x : String} {s s' : State} {parse next : State → Outcome}

theorem OneMore.rest_ne_nil (h : OneMore x s s') : s'.cursor.rest ≠ [] := by
  intro hnil
  have hvalues := h.values
  simp [hnil] at hvalues

theorem OneMore.put (h : OneMore x s s') (key : String) (v : Value) :
    OneMore x (s.put key v) (s'.put key v) := ⟨h.left, h.right, h.values⟩

theorem OneMore.cases (h : OneMore x s s') :
    (s.cursor.rest = [] ∧ ∃ b, s'.cursor.rest = [b]) ∨
      ∃ a as b bs, s.cursor.rest = a :: as ∧ s'.cursor.rest = b :: bs ∧ b.value = a.value ∧
        OneMore x s.behind s'.behind := by
  have hvalues := h.values
  cases hs : s.cursor.rest with
  | nil =>
    rw [hs] at hvalues
    obtain ⟨b, hb, -⟩ := List.map_eq_singleton_iff.mp hvalues
    exact .inl ⟨rfl, b, hb⟩
  | cons a as =>
    rw [hs] at hvalues
    obtain ⟨b, bs, hb, hvalue, hbs⟩ := List.map_eq_cons_iff.mp hvalues
    refine .inr ⟨a, as, b, bs, rfl, hb, hvalue, h.left.behind hs, h.right.behind hb, ?_⟩
    rw [State.behind, State.behind, Cursor.rest_behind hs, Cursor.rest_behind hb]
    exact hbs

theorem Shortsighted.leaves_iff (h : Shortsighted parse) (hmore : OneMore x s s') :
    (∃ t', parse s' = .ok t' ∧ t'.cursor.rest ≠ []) ↔ (parse s).isOk = true := by
  constructor
  · rintro ⟨t', ht', hleft⟩
    obtain ⟨t, ht, -⟩ := h.shorter hmore ht' hleft
    rw [ht]
    rfl
  · intro hok
    cases hparse : parse s with
    | failed err t =>
      rw [hparse] at hok
      cases hok
    | ok t =>
      obtain ⟨t', ht', hmore'⟩ := h.longer hmore hparse
      exact ⟨t', ht', hmore'.rest_ne_nil⟩

theorem Outcome.of_andThen_ok {o : Outcome} {t : State} (h : o.andThen next = .ok t) :
    ∃ u, o = .ok u ∧ next u = .ok t := by
  cases o with
  | ok u => exact ⟨u, rfl, h⟩
  | failed err u => cases h

theorem Advances.rest_ne_nil (h : Advances parse) {t : State} (hs : s.cursor.Valid)
    (hok : parse s = .ok t) (hleft : t.cursor.rest ≠ []) : s.cursor.rest ≠ [] := by
  intro hnil
  have hsub := (h s hs).cursor.rest
  rw [hok, hnil] at hsub
  exact hleft (List.sublist_nil.mp hsub)

theorem Shortsighted.andThen (h : Shortsighted parse) (hnext : Shortsighted next) :
    Shortsighted fun s => (parse s).andThen next where
  advances s hs := leads_andThen (h.advances s hs) hnext.advances
  longer hmore hok := by
    obtain ⟨u, hu, hok⟩ := Outcome.of_andThen_ok hok
    obtain ⟨u', hu', hmore'⟩ := h.longer hmore hu
    simp only [hu', Outcome.andThen]
    exact hnext.longer hmore' hok
  shorter {x s s' t'} hmore hok hleft := by
    obtain ⟨u', hu', hok⟩ := Outcome.of_andThen_ok hok
    have hvalid : u'.cursor.Valid := by
      have hleads := h.advances s' hmore.right
      rw [hu'] at hleads
      exact hleads.cursor.valid
    obtain ⟨u, hu, hmore'⟩ := h.shorter hmore hu' (hnext.advances.rest_ne_nil hvalid hok hleft)
    simp only [hu, Outcome.andThen]
    exact hnext.shorter hmore' hok hleft

theorem shortsighted_ok : Shortsighted .ok where
  advances _ hs := .refl hs
  longer hmore hok := by
    cases hok
    exact ⟨_, rfl, hmore⟩
  shorter hmore hok _ := by
    cases hok
    exact ⟨_, rfl, hmore⟩

theorem shortsighted_put (key : String) (v : Value) : Shortsighted fun s => .ok (s.put key v) where
  advances _ hs := State.leads_put hs key v
  longer hmore hok := by
    cases hok
    exact ⟨_, rfl, hmore.put key v⟩
  shorter hmore hok _ := by
    cases hok
    exact ⟨_, rfl, hmore.put key v⟩

theorem Shortsighted.ofToken (ha : Advances parse) (goOn : String → Option (State → Outcome))
    (hgoOn : ∀ v next, goOn v = some next → Shortsighted next)
    (hnil : ∀ s : State, s.cursor.rest = [] → (parse s).isOk = false)
    (hcons : ∀ (s : State) a as t, s.cursor.rest = a :: as →
      (parse s = .ok t ↔ ∃ next, goOn a.value = some next ∧ next s.behind = .ok t)) :
    Shortsighted parse where
  advances := ha
  longer {x s s' t} hmore hok := by
    rcases hmore.cases with ⟨hs, -⟩ | ⟨a, as, b, bs, hs, hs', hvalue, hbehind⟩
    · have hfail := hnil s hs
      rw [hok] at hfail
      cases hfail
    · obtain ⟨next, hnext, hok⟩ := (hcons s a as t hs).mp hok
      obtain ⟨t', ht', hmore'⟩ := (hgoOn _ _ hnext).longer hbehind hok
      exact ⟨t', (hcons s' b bs t' hs').mpr ⟨next, hvalue ▸ hnext, ht'⟩, hmore'⟩
  shorter {x s s' t'} hmore hok hleft := by
    rcases hmore.cases with ⟨-, b, hs'⟩ | ⟨a, as, b, bs, hs, hs', hvalue, hbehind⟩
    · -- the only token is read, and nothing is left
      obtain ⟨next, hnext, hok⟩ := (hcons s' b [] t' hs').mp hok
      have hbehind : s'.behind.cursor.Valid := hmore.right.behind hs'
      exact absurd (Cursor.rest_behind hs')
        ((hgoOn _ _ hnext).advances.rest_ne_nil hbehind hok hleft)
    · obtain ⟨next, hnext, hok⟩ := (hcons s' b bs t' hs').mp hok
      obtain ⟨t, ht, hmore'⟩ := (hgoOn _ _ hnext).shorter hbehind hok hleft
      exact ⟨t, (hcons s a as t hs).mpr ⟨next, hvalue ▸ hnext, ht⟩, hmore'⟩

namespace Element

/-! ## Plain elements -/

theorem shortsighted_leaf (key : String) (convert : String → Except Complaint Value)
    (complete : String → List String) :
    Shortsighted (leaf key (.ofToken convert complete)).parse := by
  refine .ofToken (advances_leaf key (follows_ofToken convert complete))
    (fun v => (convert v).toOption.map fun w s => .ok (s.put key w)) (fun v next hnext => ?_)
    (fun s hs => ?_) fun s a as t hs => ?_
  · obtain ⟨w, -, rfl⟩ := Option.map_eq_some_iff.mp hnext
    exact shortsighted_put key w
  · rw [parse_leaf_of_rest_nil hs]
    rfl
  · rw [parse_leaf_of_rest_cons hs]
    cases convert a.value <;> simp [Except.toOption]

theorem shortsighted_parseWords (words : List String) :
    Shortsighted (Literal.parseWords words) := by
  induction words with
  | nil => exact shortsighted_ok
  | cons word words ih =>
    refine .ofToken (advances_parseWords _)
      (fun v => if Text.lower v = Text.lower word then some (Literal.parseWords words) else .none)
      (fun v next hnext => ?_) (fun s hs => ?_) fun s a as t hs => ?_
    · split at hnext
      · cases hnext
        exact ih
      · cases hnext
    · simp only [Literal.parseWords, Cursor.next?_of_rest_nil hs]
      rfl
    · by_cases ha : Text.lower a.value = Text.lower word
      · simp [parseWords_of_rest_cons hs ha, ha]
      · simp [Literal.parseWords, Cursor.next?_of_rest_cons hs, ha]

theorem shortsighted_parseSeq {es : List Element} (h : ∀ e ∈ es, Shortsighted e.parse) :
    Shortsighted (parseSeq es) := by
  induction es with
  | nil => exact shortsighted_ok
  | cons e es ih => exact (h e (by simp)).andThen (ih fun e' he' => h e' (by simp [he']))

/-- Leaves for one token, literals, sequences and repetitions. -/
inductive Plain : Element → Prop where
  | token {e : Element} (h : TokenLeaf e) : Plain e
  | literal (key : String) (value : Value) (words : List String) : Plain (.literal key value words)
  | seq {es : List Element} (h : ∀ e ∈ es, Plain e) : Plain (.seq es)
  | times (n : Nat) {e : Element} (h : Plain e) : Plain (.times n e)

namespace Plain

variable {e : Element}

theorem built (h : Plain e) : Built true e := by
  induction h with
  | token h => exact .token h
  | literal key value words => exact .literal key value words
  | seq _ ih => exact .seq ih
  | times n _ ih => exact .times n ih

theorem completable (h : Plain e) : Completable e := by
  induction h with
  | token h => exact .token h
  | literal key value words => exact .literal key value words
  | seq _ ih => exact .seq ih
  | times n _ ih => exact .times n ih

theorem shortsighted (h : Plain e) : Shortsighted e.parse := by
  induction h with
  | token h =>
    obtain ⟨key, convert, complete, rfl, -⟩ := h.eq_leaf
    exact shortsighted_leaf key convert complete
  | literal key value words =>
    exact (shortsighted_parseWords words).andThen (shortsighted_put key value)
  | seq _ ih => exact shortsighted_parseSeq ih
  | times n _ ih => exact shortsighted_parseSeq fun e he => List.eq_of_mem_replicate he ▸ ih

end Plain

/-! ## Alternatives -/

variable {alts : List Element}

theorem offers_of_mem_firstOf (h : ∀ a ∈ alts, Sound a) (hs : s.cursor.Valid)
    (hrest : s.cursor.rest ≠ []) {q : String} (hq : q ∈ (firstOf alts).complete s) :
    ∃ a ∈ alts, Offers a.parse (settled s.cursor.rest) q := by
  have hmem : q ∈ (stepFirst s.cursor.position s.context alts s.cursor).candidates :=
    mem_of_mem_distinct hq
  clear hq
  induction alts with
  | nil => cases hmem
  | cons a alts ih =>
    -- a step leaves the cursor where it was, so all alternatives start alike
    have hstep := (h a (by simp)).step s hs hrest
    rw [stepFirst, Cursor.restore_self hs] at hmem
    rcases List.mem_append.mp hmem with hhere | hthere
    · exact ⟨a, by simp, hstep.candidates q hhere⟩
    · rw [hstep.cursor] at hthere
      obtain ⟨b, hb, hoffers⟩ := ih (fun b hb => h b (by simp [hb])) hthere
      exact ⟨b, by simp [hb], hoffers⟩

theorem firstOf_leaves_iff (hbuilt : ∀ a ∈ alts, a.Built true) (raw : String) (ts : List Token) :
    (∃ t, (firstOf alts).parse ⟨.ofTokens raw ts, .empty⟩ = .ok t ∧ t.cursor.rest ≠ []) ↔
      ∃ before a after, alts = before ++ a :: after ∧
        (∀ b ∈ before, (b.parse ⟨.ofTokens raw ts, .empty⟩).isOk = false) ∧
        ∃ u, a.parse ⟨.ofTokens raw ts, .empty⟩ = .ok u ∧ u.cursor.rest ≠ [] := by
  have hvalid : (Cursor.ofTokens raw ts).Valid := Cursor.valid_ofTokens raw ts
  -- the alternative that decides leaves the same tokens as by itself
  have hdecides : ∀ {before a after}, alts = before ++ a :: after →
      (∀ b ∈ before, (b.parse ⟨.ofTokens raw ts, .empty⟩).isOk = false) →
      (a.parse ⟨.ofTokens raw ts, .empty⟩).isOk = true →
      ∃ t u, (firstOf alts).parse ⟨.ofTokens raw ts, .empty⟩ = .ok t ∧
        a.parse ⟨.ofTokens raw ts, .empty⟩ = .ok u ∧ t.cursor.rest = u.cursor.rest := by
    rintro before a after rfl hfail hok
    obtain ⟨t, u, ht, hu, halike⟩ := firstOf_ok hvalid hbuilt hfail hok
    exact ⟨t, u, ht, hu, halike.cursor.tokensAlike_rest.2 rfl⟩
  constructor
  · rintro ⟨t, ht, hleft⟩
    have hok : ∃ a ∈ alts, (a.parse ⟨.ofTokens raw ts, .empty⟩).isOk = true := by
      refine (firstOf_isOk_iff (s := ⟨.ofTokens raw ts, .empty⟩) hvalid hbuilt).mp ?_
      rw [ht]
      rfl
    have hsome := List.find?_isSome.mpr hok
    obtain ⟨a, ha⟩ := Option.isSome_iff_exists.mp hsome
    obtain ⟨haok, before, after, halts, hfail⟩ := List.find?_eq_some_iff_append.mp ha
    have hbefore : ∀ b ∈ before, (b.parse ⟨.ofTokens raw ts, .empty⟩).isOk = false :=
      fun b hb => by simpa using hfail b hb
    obtain ⟨t', u, ht', hu, hsame⟩ := hdecides halts hbefore haok
    rw [ht] at ht'
    cases ht'
    exact ⟨before, a, after, halts, hbefore, u, hu, hsame ▸ hleft⟩
  · rintro ⟨before, a, after, halts, hfail, u, hu, hleft⟩
    obtain ⟨t, u', ht, hu', hsame⟩ := hdecides halts hfail (by rw [hu]; rfl)
    rw [hu] at hu'
    cases hu'
    exact ⟨t, ht, hsame ▸ hleft⟩

end Element

/-! ## Lines -/

namespace Parser

theorem run_tooMany_iff {e : Element} (he : e.Built true) {line : String} {ts : List Token}
    (hts : ∀ t ∈ ts, t.Fits line) :
    (∃ err, run e line ts = .error err ∧ err.kind = .tooManyArguments) ↔
      ∃ t, e.parse ⟨.ofTokens line ts, .empty⟩ = .ok t ∧ t.cursor.rest ≠ [] := by
  constructor
  · rintro ⟨err, herr, hkind⟩
    obtain ⟨-, -, -, -, hleft⟩ := run_error he hts herr
    obtain ⟨t, a, as, ht, hrest, -, -⟩ := hleft hkind
    exact ⟨t, ht, by simp [hrest]⟩
  · rintro ⟨t, ht, hrest⟩
    obtain ⟨a, as, ha⟩ := List.exists_cons_of_ne_nil hrest
    refine ⟨t.cursor.behind.errorHere .tooMany, ?_, rfl⟩
    simp only [run, ht, Cursor.next?_of_rest_cons ha]

theorem exists_of_mem_completeLine {p : Parser} (hp : p.tokenizer.Quotes) {line : String}
    {caret : Nat} {q : String} (hq : q ∈ (p.completeLine line caret).2) :
    ∃ us t v stop, v ∈ p.element.complete
        ⟨.ofTokens (Text.upTo caret line) (us ++ [t]), .empty⟩ ∧
      p.tokenizer.tokenize (Text.upTo (p.completeLine line caret).1 line ++ q) false =
        .ok (us ++ [⟨v, (p.completeLine line caret).1, stop⟩]) := by
  obtain ⟨a, b, us, t, hsplit, htokens, hstart, hreplace⟩ :=
    Tokenizer.replace_last hp (Text.upTo caret line)
  have hcut : (p.completeLine line caret).1 = Text.byteSize a := by
    simp only [completeLine, completionStart, htokens, List.getLast?_concat]
    exact hstart
  have hline : line.toList = a ++ (b ++ Text.dropBytes caret line.toList) := by
    rw [Text.upTo, String.toList_ofList] at hsplit
    rw [← List.append_assoc, ← hsplit, Text.takeBytes_append_dropBytes]
  have hupTo : Text.upTo (Text.byteSize a) line = String.ofList a := by
    rw [Text.upTo, hline, Text.takeBytes_byteSize_append]
  obtain ⟨v, hv, rfl⟩ := List.mem_map.mp hq
  simp only [complete, htokens] at hv
  obtain ⟨stop, hparsed⟩ := hreplace v
  exact ⟨us, t, v, stop, mem_of_mem_distinct hv, by rw [hcut, hupTo, hparsed]⟩

end Parser

/-- **Which candidates of alternatives end in too many arguments.** Alternatives are made of leaves
for one token, literals, sequences and repetitions. A line is cut before the word to complete and goes
on with a candidate. Then some alternative reads the whole line or lacks an argument behind it. The
line has too many arguments if and only if the tokens before the candidate are accepted by an
alternative such that all alternatives before it fail on the whole line. -/
theorem firstOf_candidate_taken {alts : List Element} (halts : ∀ a ∈ alts, a.Plain)
    {policy : Tokenizer} (hpolicy : policy.Quotes) (line : String) (caret : Nat) :
    let p : Parser := ⟨.firstOf alts, policy⟩
    ∀ q ∈ (p.completeLine line caret).2,
      let typed := Text.upTo (p.completeLine line caret).1 line ++ q
      ∃ us t, policy.tokenize typed false = .ok (us ++ [t]) ∧
        (∃ a ∈ alts, (a.parse ⟨.ofTokens typed (us ++ [t]), .empty⟩).Finished) ∧
        ((∃ err, p.parse typed = .error err ∧ err.kind = .tooManyArguments) ↔
          ∃ before a after, alts = before ++ a :: after ∧
            (∀ b ∈ before, (b.parse ⟨.ofTokens typed (us ++ [t]), .empty⟩).isOk = false) ∧
            (a.parse ⟨.ofTokens typed us, .empty⟩).isOk = true) := by
  intro p q hq typed
  have hbuilt : ∀ a ∈ alts, a.Built true := fun a ha => (halts a ha).built
  obtain ⟨us, t, v, stop, hv, htokens⟩ := Parser.exists_of_mem_completeLine (p := p) hpolicy hq
  refine ⟨us, ⟨v, _, stop⟩, htokens, ?_, ?_⟩
  · obtain ⟨a, ha, hoffers⟩ := Element.offers_of_mem_firstOf
      (fun a ha => (halts a ha).completable.sound) (Cursor.valid_ofTokens _ _) (by simp) hv
    exact ⟨a, ha, hoffers _ (Cursor.valid_ofTokens _ _) (by simp [settled])⟩
  · have hparse : p.parse typed = Parser.run (.firstOf alts) typed
        (us ++ [⟨v, (p.completeLine line caret).1, stop⟩]) := by
      simp only [Parser.parse, p, htokens, typed]
    rw [hparse, Parser.run_tooMany_iff (.firstOf hbuilt) (Tokenizer.fits_of_tokenize htokens),
      Element.firstOf_leaves_iff hbuilt]
    have hmore : OneMore v ⟨.ofTokens typed us, .empty⟩
        ⟨.ofTokens typed (us ++ [⟨v, (p.completeLine line caret).1, stop⟩]), .empty⟩ :=
      ⟨Cursor.valid_ofTokens _ _, Cursor.valid_ofTokens _ _, by simp⟩
    constructor
    · rintro ⟨before, a, after, rfl, hfail, hleaves⟩
      have ha := (halts a (by simp)).shortsighted
      exact ⟨before, a, after, rfl, hfail, (ha.leaves_iff hmore).mp hleaves⟩
    · rintro ⟨before, a, after, rfl, hfail, hok⟩
      have ha := (halts a (by simp)).shortsighted
      exact ⟨before, a, after, rfl, hfail, (ha.leaves_iff hmore).mpr hok⟩

open Element in
/-- The first alternative offers `x` and lacks an argument behind it, so the second one is taken. It
reads one token only. -/
theorem firstOf_candidate_taken_later :
    let alts := [seq [string "a", choices "b" [("x", .int 1)], string "c"], string "d"]
    let p : Parser := ⟨firstOf alts, .lenientQuoted⟩
    p.completeLine "foo " 4 = (4, ["x"]) ∧
      ∃ err, p.parse (Text.upTo 4 "foo " ++ "x") = .error err ∧ err.kind = .tooManyArguments := by
  intro alts p
  have hline : p.completeLine "foo " 4 = (4, ["x"]) := by decide +kernel
  have halts : ∀ a ∈ alts, a.Plain := by
    simp only [alts, List.forall_mem_cons, List.not_mem_nil, false_implies, implies_true, and_true]
    refine ⟨.seq ?_, .token (.string "d")⟩
    simp only [List.forall_mem_cons, List.not_mem_nil, false_implies, implies_true, and_true]
    exact ⟨.token (.string "a"), .token (.choices "b" _), .token (.string "c")⟩
  have htaken := firstOf_candidate_taken halts (.inl rfl) "foo " 4 "x" (by rw [hline]; simp)
  obtain ⟨us, t, htokens, -, hiff⟩ := htaken
  rw [hline] at htokens hiff
  have hsplit : Tokenizer.lenientQuoted.tokenize (Text.upTo 4 "foo " ++ "x") false =
      .ok ([⟨"foo", 0, 3⟩] ++ [⟨"x", 4, 5⟩]) := by decide +kernel
  rw [hsplit] at htokens
  obtain ⟨rfl, hlast⟩ := List.append_inj' (Except.ok.inj htokens) rfl
  obtain rfl := List.singleton_inj.mp hlast
  refine ⟨hline, hiff.mpr ⟨[_], string "d", [], rfl, ?_, by decide +kernel⟩⟩
  simp only [List.forall_mem_cons, List.not_mem_nil, false_implies, implies_true, and_true]
  decide +kernel

open Element in
/-- The second alternative offers `x`, but the first one accepts what stands before it. -/
theorem firstOf_candidate_unreachable :
    let p : Parser :=
      ⟨firstOf [string "a", seq [string "b", choices "c" [("x", .int 1)]]], .lenientQuoted⟩
    ∃ q ∈ (p.completeLine "foo " (Text.size "foo ")).2, ∃ err,
      p.parse (Text.upTo (p.completeLine "foo " (Text.size "foo ")).1 "foo " ++ q) = .error err ∧
        err.kind = .tooManyArguments := by
  intro p
  have hline : p.completeLine "foo " (Text.size "foo ") = (4, ["x"]) := by decide +kernel
  rw [hline]
  exact ⟨"x", by simp, ⟨.tooMany, "foo x", 4⟩, by decide +kernel, rfl⟩

end ArgGrammar
