import ArgGrammar.Proofs.Modes
import ArgGrammar.Proofs.Stock

/-!
# Errors and tokens lie on the line

All places that parsing and completing meet are places between characters of the line, so cutting the
line at one of them never goes wrong.

* `Cursor.OnLine line c`: the tokens in all views of the cursor fit the line.
* `Element.checked`: an element that looks at every cursor it is given or gives back, and does
  something else when it does not like what it sees.
* `Element.Inspected check e e'`: `e'` is `e` with such a check at every node.
* `Element.Inspected.agree`: where a stock covers only cursors that pass the check, nothing else is
  ever done.
* `errors_and_tokens_fit`: where errors of a parse lie, and that all cursors are on the line.
-/

namespace ArgGrammar

/-- The cursor is on the line, and the tokens in all of its views fit it. -/
def Cursor.OnLine (line : String) (c : Cursor) : Prop :=
  c.raw = line ∧ ∀ view ∈ c.views, ∀ t ∈ view, t.Fits line

instance (line : String) : DecidablePred (Cursor.OnLine line) := fun c =>
  inferInstanceAs (Decidable (c.raw = line ∧ ∀ view ∈ c.views, ∀ t ∈ view, t.Fits line))

/-! ## Elements under inspection -/

namespace Element

section

variable (check : Cursor → Prop) [DecidablePred check]

/-- The element, with a look at every cursor that it is given or gives back. Where the check fails,
it does what `other` does. -/
def checked (other e : Element) : Element where
  key := e.key
  parse s :=
    if check s.cursor ∧ check (e.parse s).state.cursor then e.parse s else other.parse s
  halts s :=
    if check s.cursor ∧ check (e.parse s).state.cursor then e.halts s else other.halts s
  complete s := if check s.cursor then e.complete s else other.complete s
  step s := if check s.cursor ∧ check (e.step s).cursor then e.step s else other.step s

/-- The elements without parts. -/
inductive Simple : Element → Prop where
  | none : Simple .none
  | markTrue (key : String) : Simple (.markTrue key)
  | token {e : Element} (h : TokenLeaf e) : Simple e
  | literal (key : String) (value : Value) (words : List String) : Simple (.literal key value words)
  | rest (key : String) : Simple (.rest key)
  | rawRest (key : String) : Simple (.rawRest key)

/-- The second element is the first with the check at every node. What is done where it fails may
differ from node to node. -/
inductive Inspected : Element → Element → Prop where
  | simple {e : Element} (h : Simple e) (other : Element) : Inspected e (checked check other e)
  | seq {ps : List (Element × Element)} (h : ∀ p ∈ ps, Inspected p.1 p.2) (other : Element) :
      Inspected (.seq (ps.map (·.1))) (checked check other (.seq (ps.map (·.2))))
  | optional {e e' : Element} (default : Option Value) (weak : Bool) (h : Inspected e e')
      (other : Element) :
      Inspected (.optional e default weak) (checked check other (.optional e' default weak))
  | firstOf {ps : List (Element × Element)} (h : ∀ p ∈ ps, Inspected p.1 p.2) (other : Element) :
      Inspected (.firstOf (ps.map (·.1))) (checked check other (.firstOf (ps.map (·.2))))
  | times (n : Nat) {e e' : Element} (h : Inspected e e') (other : Element) :
      Inspected (.times n e) (checked check other (.times n e'))
  | allOf (patience : Nat) {e e' : Element} (h : Inspected e e') (other : Element) :
      Inspected (.allOf e patience) (checked check other (.allOf e' patience))
  | onlyOne {e e' : Element} (h : Inspected e e') (other : Element) :
      Inspected (.onlyOne e) (checked check other (.onlyOne e'))
  | flags (f : Flags) {short : OrderedMap Char (Element × Element)}
      {long : OrderedMap String (Element × Element)} {child child' : Element}
      (hshort : ∀ d ∈ short, Inspected d.2.1 d.2.2) (hlong : ∀ d ∈ long, Inspected d.2.1 d.2.2)
      (h : Inspected child child') (other : Element) :
      Inspected
        (({ f with short := short.mapValues (·.1), long := long.mapValues (·.1) } : Flags).around
          child)
        (checked check other
          (({ f with short := short.mapValues (·.2), long := long.mapValues (·.2) } : Flags).around
            child'))

end

variable {check : Cursor → Prop} [DecidablePred check] {K : Stock} {e e' : Element}

theorem Simple.agree (h : Simple e) : K.Agree e e := by
  cases h with
  | none => exact Stock.agree_none
  | markTrue key => exact Stock.agree_markTrue key
  | token h => exact Stock.agree_tokenLeaf h
  | literal key value words => exact Stock.agree_literal key value words
  | rest key => exact Stock.agree_rest key
  | rawRest key => exact Stock.agree_rawRest key

theorem agree_checked (hcheck : ∀ c, K.Covers c → check c) (h : K.Agree e e') (other : Element) :
    K.Agree e (checked check other e') where
  key := h.key
  parse s hs := by
    obtain ⟨heq, hadmits⟩ := h.parse s hs
    have hpass : check s.cursor ∧ check (e.parse s).state.cursor :=
      ⟨hcheck _ hs, hcheck _ hadmits.cursor⟩
    simp only [checked, heq, if_pos hpass, true_and]
    exact hadmits
  complete s hs := by
    simp only [checked, if_pos (hcheck _ hs), h.complete s hs]
  step s hs := by
    obtain ⟨heq, hcursor⟩ := h.step s hs
    have hpass : check s.cursor ∧ check (e.step s).cursor := ⟨hcheck _ hs, hcheck _ hcursor⟩
    simp only [checked, heq, if_pos hpass, true_and]
    exact hcursor

theorem Inspected.agree (hcheck : ∀ c, K.Covers c → check c) (h : Inspected check e e') :
    K.Agree e e' := by
  induction h with
  | simple h other => exact agree_checked hcheck h.agree other
  | seq _ other ih => exact agree_checked hcheck (Stock.agree_seq ih) other
  | optional default weak _ other ih =>
    exact agree_checked hcheck (Stock.agree_optional ih default weak) other
  | firstOf _ other ih => exact agree_checked hcheck (Stock.agree_firstOf ih) other
  | times n _ other ih => exact agree_checked hcheck (Stock.agree_times n ih) other
  | allOf n _ other ih => exact agree_checked hcheck (Stock.agree_allOf n ih) other
  | onlyOne _ other ih => exact agree_checked hcheck (Stock.agree_onlyOne ih) other
  | @flags f short long child child' _ _ _ other ihshort ihlong ih =>
    exact agree_checked hcheck (Stock.agree_around (f.related_mapValues ihshort ihlong) ih) other

theorem exists_pairs {R : Element → Element → Prop} {es : List Element}
    (h : ∀ e ∈ es, ∃ e', R e e') :
    ∃ ps : List (Element × Element), ps.map (·.1) = es ∧ ∀ p ∈ ps, R p.1 p.2 := by
  induction es with
  | nil => exact ⟨[], rfl, by simp⟩
  | cons e es ih =>
    obtain ⟨e', he'⟩ := h e (by simp)
    obtain ⟨ps, rfl, hps⟩ := ih fun e hmem => h e (by simp [hmem])
    refine ⟨(e, e') :: ps, rfl, fun p hp => ?_⟩
    rcases List.mem_cons.mp hp with rfl | hp
    · exact he'
    · exact hps p hp

theorem Built.exists_inspected (check : Cursor → Prop) [DecidablePred check] {raw : Bool}
    (h : Built raw e) : ∃ e', Inspected check e e' := by
  induction h with
  | none => exact ⟨_, .simple .none .none⟩
  | markTrue key => exact ⟨_, .simple (.markTrue key) .none⟩
  | token h => exact ⟨_, .simple (.token h) .none⟩
  | literal key value words => exact ⟨_, .simple (.literal key value words) .none⟩
  | rest key => exact ⟨_, .simple (.rest key) .none⟩
  | rawRest key _ => exact ⟨_, .simple (.rawRest key) .none⟩
  | seq _ ih =>
    obtain ⟨ps, rfl, hps⟩ := exists_pairs ih
    exact ⟨_, .seq hps .none⟩
  | optional default weak _ ih =>
    obtain ⟨e', he'⟩ := ih
    exact ⟨_, .optional default weak he' .none⟩
  | firstOf _ ih =>
    obtain ⟨ps, rfl, hps⟩ := exists_pairs ih
    exact ⟨_, .firstOf hps .none⟩
  | times n _ ih =>
    obtain ⟨e', he'⟩ := ih
    exact ⟨_, .times n he' .none⟩
  | allOf n _ ih =>
    obtain ⟨e', he'⟩ := ih
    exact ⟨_, .allOf n he' .none⟩
  | onlyOne _ ih =>
    obtain ⟨e', he'⟩ := ih
    exact ⟨_, .onlyOne he' .none⟩
  | @flags f child _ _ _ ihshort ihlong ih =>
    obtain ⟨child', hchild⟩ := ih
    obtain ⟨short, hshort, hshorts⟩ := OrderedMap.exists_mapValues ihshort
    obtain ⟨long, hlong, hlongs⟩ := OrderedMap.exists_mapValues ihlong
    have hf : f = { f with short := short.mapValues (·.1), long := long.mapValues (·.1) } := by
      rw [hshort, hlong]
    rw [hf]
    exact ⟨_, .flags f hshorts hlongs hchild .none⟩

end Element

/-! ## The line as a stock -/

/-- The tokens of a line together with the values of the flags among them. -/
def Stock.ofTokens (line : String) (ts : List Token) : Stock where
  line := line
  has := Token.Sprung line ts
  inline _ _ _ := .inline

section

variable {line : String} {ts : List Token}

theorem Stock.covers_ofTokens : (Stock.ofTokens line ts).Covers (.ofTokens line ts) := by
  refine ⟨rfl, fun view hview t ht => ?_⟩
  obtain rfl := List.mem_singleton.mp hview
  exact .token ht

theorem Stock.onLine (hts : ∀ t ∈ ts, t.Fits line) {c : Cursor}
    (h : (Stock.ofTokens line ts).Covers c) : c.OnLine line :=
  ⟨h.raw, fun view hview t ht => (h.views view hview t ht).fits hts⟩

theorem Stock.Located.position_cases (hts : ∀ t ∈ ts, t.Fits line) {err : ParseError}
    (h : (Stock.ofTokens line ts).Located err) :
    String.Pos.Raw.IsValid line ⟨err.position⟩ ∧
      (err.position = 0 ∨ err.position = Text.size line ∨
        ∃ t ∈ ts, err.position = t.start ∨ t.BehindEquals line err.position) := by
  rcases h.position with hzero | hend | ⟨t, ht, hposition⟩
  · rw [hzero]
    exact ⟨Text.isValid_zero line, .inl rfl⟩
  · rw [hend]
    exact ⟨Text.isValid_size line, .inr (.inl rfl)⟩
  · have hfits : t.Fits line := Token.Sprung.fits hts ht
    have hle : t.start ≤ Text.size line := Nat.le_trans hfits.start_le hfits.stop_le
    rw [hposition, show (Stock.ofTokens line ts).line = line from rfl, Nat.min_eq_left hle]
    exact ⟨hfits.start, .inr (.inr (Token.Sprung.start_cases hts ht))⟩

end

theorem Cursor.OnLine.cuts {line : String} {c : Cursor} (h : c.OnLine line) :
    String.Pos.Raw.IsValid line ⟨c.rawPosition⟩ ∧
      ∀ t ∈ c.tokens, t.Fits line ∧
        ∀ name value, FlagWord.ofText t.value = .long name (some value) →
          Text.size value ≤ t.stop - t.start ∧ (Flags.inlineCursor c t value).OnLine line := by
  let K : Stock := ⟨line, Token.Fits line, fun _ _ _ ht hword => ht.inline hword⟩
  have hcovers : K.Covers c := ⟨h.1, h.2⟩
  constructor
  · unfold rawPosition
    split
    · next t ht => exact (hcovers.tokens t (List.mem_of_getElem? ht)).start
    · rw [h.1]
      exact Text.isValid_size line
  · intro t ht
    have hfits : t.Fits line := hcovers.tokens t ht
    refine ⟨hfits, fun name value hword => ?_⟩
    have hinline := hcovers.inline (K := K) hfits hword
    have hlt := Token.size_lt_of_inline hword
    have hvalue := hfits.value_le
    exact ⟨by omega, hinline.raw, hinline.views⟩

namespace Parser

variable {e : Element} {line : String} {ts : List Token}

/-- The errors of a run: those that the elements report, and input left over, which is reported at
the first token of it. -/
theorem run_error (he : e.Built true) (hts : ∀ t ∈ ts, t.Fits line) {err : ParseError}
    (h : run e line ts = .error err) :
    err.raw = line ∧ err.kind ≠ .tokenize ∧ String.Pos.Raw.IsValid line ⟨err.position⟩ ∧
      (err.position = 0 ∨ err.position = Text.size line ∨
        ∃ t ∈ ts, err.position = t.start ∨ t.BehindEquals line err.position) ∧
      (err.kind = .tooManyArguments → ∃ s t rest,
        e.parse ⟨.ofTokens line ts, .empty⟩ = .ok s ∧ s.cursor.rest = t :: rest ∧ t ∈ ts ∧
          err.position = t.start) := by
  let K := Stock.ofTokens line ts
  obtain ⟨e', he'⟩ := he.exists_inspected fun _ => True
  have hagree : K.Agree e e' := he'.agree fun _ _ => trivial
  obtain ⟨-, hadmits⟩ := hagree.parse ⟨.ofTokens line ts, .empty⟩ Stock.covers_ofTokens
  unfold run at h
  split at h
  · next err' s hparse =>
    cases h
    rw [hparse] at hadmits
    cases hadmits with
    | failed hlocated _ =>
      obtain ⟨hvalid, hcases⟩ := hlocated.position_cases hts
      exact ⟨hlocated.raw, hlocated.inner.1, hvalid, hcases,
        fun hkind => absurd hkind hlocated.inner.2⟩
  · next s hparse =>
    have hfollows := (he.advances ⟨.ofTokens line ts, .empty⟩ (Cursor.valid_ofTokens _ _)).cursor
    rw [hparse] at hfollows
    cases hrest : s.cursor.rest with
    | nil =>
      rw [Cursor.next?_of_rest_nil hrest] at h
      cases h
    | cons t rest =>
      rw [Cursor.next?_of_rest_cons hrest] at h
      cases h
      have ht : t ∈ ts := by
        have hmem : t ∈ (Cursor.ofTokens line ts).rest :=
          hfollows.rest.subset (by rw [show (Outcome.ok s).state.cursor.rest = _ from hrest]; simp)
        rwa [Cursor.rest_ofTokens] at hmem
      have hfits := hts t ht
      have hposition : (s.cursor.behind.errorHere .tooMany).position = t.start := by
        have hget : s.cursor.behind.tokens[s.cursor.behind.index - 1]? = some t := by
          rw [← List.head?_drop]
          exact congrArg List.head? hrest
        have hraw : s.cursor.raw = line := hfollows.raw_eq
        have hplace : s.cursor.behind.errorPosition = t.start := by
          rw [Cursor.errorPosition, hget]
        show min s.cursor.behind.errorPosition (Text.size s.cursor.raw) = t.start
        rw [hplace, hraw]
        exact Nat.min_eq_left (Nat.le_trans hfits.start_le hfits.stop_le)
      have hkind : (s.cursor.behind.errorHere .tooMany).kind ≠ .tokenize := by
        intro hkind
        cases hkind
      refine ⟨hfollows.raw_eq, hkind, ?_, ?_,
        fun _ => ⟨s, t, rest, hparse, hrest, ht, hposition⟩⟩
      · rw [hposition]
        exact hfits.start
      · exact .inr (.inr ⟨t, ht, .inl hposition⟩)

end Parser

/-- **Errors and tokens lie on the line.** An error carries the whole line and a place between its
characters: that of a quote, if the line could not be split; otherwise an end of the line, or the
start of one of its tokens, or, in a flag `--name=value` that is written just as it reads, the place
behind an equals sign. Input left over is reported at the first token of it. Every cursor that an
element is given or gives back while a line is parsed or completed has tokens that lie between
characters of the line: to replace elements by others wherever this is not so changes nothing. On
such a cursor the rest of the line starts between characters, and the value of a flag is not longer
than the flag. -/
theorem errors_and_tokens_fit (p : Parser) (hp : p.element.Built true) (input : String) :
    (∀ err, p.parse input = .error err →
      err.raw = input ∧ err.position ≤ Text.size input ∧
      String.Pos.Raw.IsValid input ⟨err.position⟩ ∧
      ((err.kind = .tokenize ∧ ∃ before q after, input.toList = before ++ q :: after ∧
          Quoted.isQuote q = true ∧ err.position = Text.byteSize before) ∨
        err.kind ≠ .tokenize ∧ ∃ ts, p.tokenizer.tokenize input false = .ok ts ∧
          (err.position = 0 ∨ err.position = Text.size input ∨
            ∃ t ∈ ts, err.position = t.start ∨ t.BehindEquals input err.position) ∧
          (err.kind = .tooManyArguments → ∃ s t rest,
            p.element.parse ⟨.ofTokens input ts, .empty⟩ = .ok s ∧ s.cursor.rest = t :: rest ∧
              t ∈ ts ∧ err.position = t.start))) ∧
    (∃ e', Element.Inspected (Cursor.OnLine input) p.element e') ∧
    (∀ e', Element.Inspected (Cursor.OnLine input) p.element e' →
      Parser.parse ⟨e', p.tokenizer⟩ input = p.parse input ∧
      Parser.complete ⟨e', p.tokenizer⟩ input = p.complete input) ∧
    ∀ c : Cursor, c.OnLine input →
      c.rawPosition ≤ Text.size input ∧ String.Pos.Raw.IsValid input ⟨c.rawPosition⟩ ∧
      ∀ t ∈ c.tokens, t.Fits input ∧
        ∀ name value, FlagWord.ofText t.value = .long name (some value) →
          Text.size value ≤ t.stop - t.start ∧ (Flags.inlineCursor c t value).OnLine input := by
  refine ⟨fun err herr => ?_, hp.exists_inspected _, fun e' he' => ?_, fun c hc => ?_⟩
  · unfold Parser.parse at herr
    split at herr
    · next err' htokens =>
      cases herr
      obtain ⟨hkind, hraw, before, q, after, hinput, hquote, hposition⟩ :=
        Tokenizer.exists_quote_of_error htokens
      have hvalid : String.Pos.Raw.IsValid input ⟨err.position⟩ :=
        Text.isValid_iff.mpr ⟨before, q :: after, hinput, hposition.symm⟩
      exact ⟨hraw, Text.le_size_of_isValid hvalid, hvalid,
        .inl ⟨hkind, before, q, after, hinput, hquote, hposition⟩⟩
    · next ts htokens =>
      obtain ⟨hraw, hkind, hvalid, hcases, hleft⟩ :=
        Parser.run_error hp (Tokenizer.fits_of_tokenize htokens) herr
      exact ⟨hraw, Text.le_size_of_isValid hvalid, hvalid, .inr ⟨hkind, ts, htokens, hcases, hleft⟩⟩
  · -- the tokens differ between parsing and completing, and so does the stock
    have hagree : ∀ {forCompletion ts}, p.tokenizer.tokenize input forCompletion = .ok ts →
        (Stock.ofTokens input ts).Agree p.element e' := fun htokens =>
      he'.agree fun c hc => Stock.onLine (Tokenizer.fits_of_tokenize htokens) hc
    constructor
    · cases htokens : p.tokenizer.tokenize input false with
      | error err => simp only [Parser.parse, htokens]
      | ok ts =>
        obtain ⟨heq, -⟩ := (hagree htokens).parse ⟨.ofTokens input ts, .empty⟩ Stock.covers_ofTokens
        simp only [Parser.parse, htokens, Parser.run, heq]
    · cases htokens : p.tokenizer.tokenize input true with
      | error err => simp only [Parser.complete, htokens]
      | ok ts =>
        have heq := (hagree htokens).complete ⟨.ofTokens input ts, .empty⟩ Stock.covers_ofTokens
        simp only [Parser.complete, htokens, heq]
  · obtain ⟨hvalid, hcuts⟩ := hc.cuts
    exact ⟨Text.le_size_of_isValid hvalid, hvalid, hcuts⟩

open Element in
/-- The value of the flag is written behind an equals sign, and no integer. -/
theorem errors_and_tokens_fit_inline :
    let f : Flags := { long := [("out", integer "n")] }
    let p : Parser := ⟨f.around (string "a"), .strictQuoted⟩
    ∃ err, p.parse "ä --out=ü" = .error err ∧ err.raw = "ä --out=ü" ∧ err.position = 9 ∧
      String.Pos.Raw.IsValid "ä --out=ü" ⟨err.position⟩ ∧
      ∃ e', Inspected (Cursor.OnLine "ä --out=ü") p.element e' ∧
        Parser.parse ⟨e', .strictQuoted⟩ "ä --out=ü" = .error err := by
  intro f p
  have hlong : ∀ d ∈ f.long, d.2.Built true := by
    simp only [f, List.forall_mem_cons, List.not_mem_nil, false_implies, implies_true, and_true]
    exact .token (.integer "n")
  have hp : p.element.Built true := .flags (by simp [f]) hlong (.token (.string "a"))
  obtain ⟨herrors, ⟨e', he'⟩, hsame, -⟩ := errors_and_tokens_fit p hp "ä --out=ü"
  have hparse : ∃ err, p.parse "ä --out=ü" = .error err ∧ err.position = 9 :=
    ⟨⟨.notInteger .word32 "ü" .badDigit, "ä --out=ü", 9⟩, by decide +kernel, rfl⟩
  obtain ⟨err, herr, hposition⟩ := hparse
  obtain ⟨hraw, -, hvalid, -⟩ := herrors err herr
  exact ⟨err, herr, hraw, hposition, hvalid, e', he', (hsame e' he').1.trans herr⟩

end ArgGrammar
