import ArgGrammar.Proofs.Replacement
import ArgGrammar.Proofs.Threading

/-!
# Candidates parse

* `Element.Completable`: the grammars in question, nested to any depth. What may be skipped is an
  element that reads one token or nothing (`Element.Skippable`).
* `Element.Completable.sound`: the candidates of such a grammar let it finish.
* `Parser.completeLine_parses`: a line that is cut before the word to complete and goes on with a
  quoted candidate parses, or lacks an argument.

An element that may be skipped gives up what it read when it fails. If it could lack an argument
behind the first token, the candidate for that token would not be read after all; this is why only
elements for one token may be skipped here.
-/

namespace ArgGrammar

namespace Element

/-! ## Leaves -/

theorem reads_leaf (key : String) {convert : String → Except Complaint Value}
    {complete : String → List String}
    (h : ∀ typed, ∀ q ∈ complete typed, (convert q).isOk = true) :
    Reads (fun v => (convert v).isOk) (leaf key (.ofToken convert complete)) where
  step_eq := rfl
  ends s _ hrest := by
    rw [parse_leaf_of_rest_nil hrest]
    exact .missing rfl
  idle hrest := by
    rw [parse_leaf_of_rest_nil hrest]
    rfl
  cursor {s t ts} hrest := by
    rw [parse_leaf_of_rest_cons hrest]
    cases convert t.value <;> rfl
  isOk {s t ts} hrest := by
    rw [parse_leaf_of_rest_cons hrest]
    cases convert t.value <;> rfl
  complete {s t ts} hrest q hq := by
    simp only [leaf, ofTrial, Cursor.next?_of_rest_cons hrest] at hq
    split at hq
    · cases hq
    · next hlast =>
      rw [Cursor.hasNext_iff, Cursor.rest_behind hrest] at hlast
      exact ⟨Classical.not_not.mp hlast, h t.value q hq⟩

theorem parse_word {key word : String} {value : Value} {s : State} {t : Token} {ts : List Token}
    (h : s.cursor.rest = t :: ts) :
    (literal key value [word]).parse s =
      if Text.lower t.value = Text.lower word then .ok (s.behind.put key value)
      else .failed (s.cursor.behind.errorHere (.wrongWord t.value word)) s.behind := by
  simp only [literal, ofTrial, Literal.parseWords, Cursor.next?_of_rest_cons h]
  split <;> rfl

theorem reads_word (key : String) (value : Value) (word : String) :
    Reads (fun v => Text.lower v = Text.lower word) (literal key value [word]) where
  step_eq := rfl
  ends s _ hrest := by
    simp only [literal, ofTrial, Literal.parseWords, Cursor.next?_of_rest_nil hrest]
    exact .missing rfl
  idle {s} hrest := by
    simp only [literal, ofTrial, Literal.parseWords, Cursor.next?_of_rest_nil hrest]
    rfl
  cursor hrest := by
    rw [parse_word hrest]
    split <;> rfl
  isOk {s t ts} hrest := by
    rw [parse_word hrest]
    split <;> simp [Outcome.isOk, *]
  complete {s t ts} hrest q hq := by
    simp only [literal, ofTrial, Literal.completeWords, Cursor.next?_of_rest_cons hrest] at hq
    split at hq
    · simp at hq
    · next hlast =>
      rw [Cursor.hasNext_iff, Cursor.rest_behind hrest] at hlast
      split at hq
      · obtain rfl := List.mem_singleton.mp hq
        exact ⟨Classical.not_not.mp hlast, by simp⟩
      · cases hq

/-! ### Words -/

theorem ends_parseWords (words : List String) : Ends (Literal.parseWords words) := by
  intro s hs hrest
  cases words with
  | nil => exact .ok hs hrest
  | cons word words =>
    simp only [Literal.parseWords, Cursor.next?_of_rest_nil hrest]
    exact .missing rfl

theorem within_parseWords (words : List String) : Within (Literal.parseWords words) := by
  induction words with
  | nil => exact fun s => rfl
  | cons word words ih =>
    intro s
    rw [Literal.parseWords]
    cases hrest : s.cursor.rest with
    | nil =>
      rw [Cursor.next?_of_rest_nil hrest]
      rfl
    | cons t ts =>
      rw [Cursor.next?_of_rest_cons hrest]
      dsimp only
      split
      · exact ih ⟨s.cursor.behind, s.context⟩
      · rfl

theorem parseWords_of_rest_cons {word : String} {words : List String} {s : State} {t : Token}
    {ts : List Token} (hrest : s.cursor.rest = t :: ts) (ht : Text.lower t.value = Text.lower word) :
    Literal.parseWords (word :: words) s = Literal.parseWords words s.behind := by
  simp only [Literal.parseWords, Cursor.next?_of_rest_cons hrest, if_pos ht]
  rfl

/-- Words that are read before the last token are read whatever that token becomes. -/
theorem passes_parseWords (words : List String) {s t : State} (hs : s.cursor.Valid)
    (hparse : Literal.parseWords words s = .ok t) (hleft : t.cursor.rest ≠ []) :
    Passes (Literal.parseWords words) (settled s.cursor.rest) (settled t.cursor.rest) := by
  induction words generalizing s with
  | nil =>
    cases hparse
    exact Idles.passes (fun s => ⟨s, rfl, rfl⟩) _
  | cons word words ih =>
    have hfollows := (advances_parseWords (word :: words) s hs).cursor.rest
    cases hrest : s.cursor.rest with
    | nil =>
      simp only [Literal.parseWords, Cursor.next?_of_rest_nil hrest] at hparse
      cases hparse
    | cons a as =>
      by_cases ha : Text.lower a.value = Text.lower word
      · rw [parseWords_of_rest_cons hrest ha] at hparse
        have hbehind : s.behind.cursor.rest = as := Cursor.rest_behind hrest
        have hvalid : s.behind.cursor.Valid := hs.behind hrest
        have has : as ≠ [] := by
          rintro rfl
          have hsub := (advances_parseWords words s.behind hvalid).cursor.rest
          rw [hparse, hbehind] at hsub
          exact hleft (List.sublist_nil.mp hsub)
        rw [settled_cons a has, ← hbehind]
        intro q u hu hurest
        obtain ⟨b, bs, hb, hvalue, hbs⟩ := List.map_eq_cons_iff.mp hurest
        rw [parseWords_of_rest_cons hb (hvalue ▸ ha)]
        refine ih hvalid hparse q u.behind (hu.behind hb) ?_
        rw [State.behind, Cursor.rest_behind hb]
        exact hbs
      · simp only [Literal.parseWords, Cursor.next?_of_rest_cons hrest, if_neg ha] at hparse
        cases hparse

theorem offers_completeWords (words : List String) {c : Cursor} (hrest : c.rest ≠ []) {q : String}
    (hq : q ∈ Literal.completeWords words c) :
    Offers (Literal.parseWords words) (settled c.rest) q := by
  induction words generalizing c with
  | nil => cases hq
  | cons word words ih =>
    obtain ⟨t, ts, ht⟩ := List.exists_cons_of_ne_nil hrest
    simp only [Literal.completeWords, Cursor.next?_of_rest_cons ht] at hq
    intro s hs hvalues
    split at hq
    · next hnext =>
      rw [Cursor.hasNext_iff, Cursor.rest_behind ht] at hnext
      split at hq
      · next hword =>
        rw [ht, settled_cons t hnext] at hvalues
        obtain ⟨a, as, ha, hvalue, has⟩ := List.map_eq_cons_iff.mp hvalues
        rw [parseWords_of_rest_cons ha (hvalue ▸ hword)]
        have hbehind := Cursor.rest_behind ht
        refine ih (by rw [hbehind]; exact hnext) hq s.behind (hs.behind ha) ?_
        rw [hbehind, State.behind, Cursor.rest_behind ha]
        exact has
      · cases hq
    · next hlast =>
      rw [Cursor.hasNext_iff, Cursor.rest_behind ht] at hlast
      obtain rfl := Classical.not_not.mp hlast
      split at hq
      · obtain rfl := List.mem_singleton.mp hq
        rw [ht] at hvalues
        obtain ⟨a, as, ha, hvalue, has⟩ := List.map_eq_cons_iff.mp hvalues
        obtain rfl := List.map_eq_nil_iff.mp has
        rw [parseWords_of_rest_cons ha (by rw [hvalue])]
        exact ends_parseWords words s.behind (hs.behind ha) (Cursor.rest_behind ha)
      · have hnil := Cursor.next?_of_rest_nil (Cursor.rest_behind ht)
        cases words <;> simp [Literal.completeWords, hnil] at hq

theorem cursor_literal (key : String) (value : Value) (words : List String) (s : State) :
    ((literal key value words).parse s).state.cursor =
      (Literal.parseWords words s).state.cursor := by
  show ((Literal.parseWords words s).andThen _).state.cursor = _
  cases Literal.parseWords words s <;> rfl

theorem sound_literal (key : String) (value : Value) (words : List String) :
    Sound (literal key value words) := by
  have ha := advances_literal key value words
  have hput := idles_put key value
  have hoffers : ∀ s : State, s.cursor.Valid → s.cursor.rest ≠ [] →
      ∀ q ∈ (literal key value words).complete s,
        Offers (literal key value words).parse (settled s.cursor.rest) q :=
    fun s _ hrest q hq => (offers_completeWords words hrest hq).andThen hput.ends
  have hwithin : Within (literal key value words).parse := fun s => by
    rw [cursor_literal]
    exact within_parseWords words s
  refine ⟨ha, (ends_parseWords words).andThen hput.ends, hoffers, fun s hs hrest => ?_⟩
  refine stepSound_speculate ha hwithin hs (hoffers s hs hrest) fun t ht hleft => ?_
  have hcursor := cursor_literal key value words s
  rw [ht] at hcursor
  cases hwords : Literal.parseWords words s with
  | failed err u =>
    have hfail : (literal key value words).parse s = .failed err u := by
      show (Literal.parseWords words s).andThen _ = _
      rw [hwords]
      rfl
    rw [hfail] at ht
    cases ht
  | ok u =>
    have hsame : t.cursor = u.cursor := by rwa [hwords] at hcursor
    rw [hsame] at hleft ⊢
    exact (passes_parseWords words hs hwords hleft).trans (hput.passes _) hput.ends

/-! ### Elements that read everything or nothing -/

theorem sound_rest (key : String) : Sound (rest key) := by
  have ha : Advances (rest key).parse := advances_leaf key follows_joined
  have hall : ∀ {s : State}, s.cursor.rest ≠ [] →
      ((rest key).parse s).state.cursor = s.cursor.moveTo s.cursor.tokens.length := by
    intro s hrest
    obtain ⟨t, ts, ht⟩ := List.exists_cons_of_ne_nil hrest
    have hnext : s.cursor.hasNext = true := (Cursor.hasNext_iff _).mpr hrest
    simp only [rest, leaf, ofTrial, if_pos hnext, Reader.joined, Cursor.next,
      Cursor.next?_of_rest_cons ht]
    rfl
  have hwithin : Within (rest key).parse := by
    intro s
    by_cases hrest : s.cursor.rest = []
    · rw [rest, parse_leaf_of_rest_nil hrest]
      rfl
    · rw [hall hrest]
      rfl
  have hnothing : ∀ s : State, (rest key).complete s = [] := by
    intro s
    simp only [rest, leaf, ofTrial, Reader.joined]
    split
    · split <;> rfl
    · rfl
  have hoffers : ∀ s : State, s.cursor.Valid → s.cursor.rest ≠ [] →
      ∀ q ∈ (rest key).complete s, Offers (rest key).parse (settled s.cursor.rest) q := by
    intro s _ _ q hq
    rw [hnothing s] at hq
    cases hq
  refine ⟨ha, fun s hs hrest => ?_, hoffers, fun s hs hrest => ?_⟩
  · rw [rest, parse_leaf_of_rest_nil hrest]
    exact .missing rfl
  · refine stepSound_speculate ha hwithin hs (hoffers s hs hrest) fun t ht hleft => ?_
    have hcursor := hall hrest
    simp only [ht, Outcome.state] at hcursor
    rw [hcursor, Cursor.rest_moveTo, List.drop_length] at hleft
    exact absurd rfl hleft

/-- The element reads nothing and offers nothing. -/
structure Idle (e : Element) : Prop where
  idles : Idles e.parse
  complete : ∀ s : State, e.complete s = []
  step_eq : e.step = speculate e.parse e.complete

theorem idle_none : Idle none := ⟨fun s => ⟨s, rfl, rfl⟩, fun _ => rfl, rfl⟩

theorem idle_markTrue (key : String) : Idle (markTrue key) :=
  ⟨idles_put key (.bool true), fun _ => rfl, rfl⟩

namespace Idle

variable {e : Element}

theorem step (h : Idle e) {s : State} (hs : s.cursor.Valid) (hrest : s.cursor.rest ≠ []) :
    ∃ context, e.step s = .resume ⟨s.cursor.position, context⟩ s.cursor := by
  obtain ⟨t, ht, hcursor⟩ := h.idles s
  have hnext : s.cursor.hasNext = true := (Cursor.hasNext_iff _).mpr hrest
  have hstay := Cursor.restore_self hs
  refine ⟨t.context, ?_⟩
  simp only [h.step_eq, speculate, ht, Outcome.state, Outcome.isOk, hcursor, hnext, hstay,
    Bool.and_self, if_true]

theorem sound (h : Idle e) (ha : Advances e.parse) : Sound e := by
  refine ⟨ha, h.idles.ends, fun s hs hrest q hq => ?_, fun s hs hrest => ?_⟩
  · rw [h.complete s] at hq
    cases hq
  · obtain ⟨context, hstep⟩ := h.step hs hrest
    rw [hstep]
    exact stepSound_stay hrest context (h.idles.passes _)

theorem idles_optional (h : Idle e) (default : Option Value) (weak : Bool) :
    Idles (optional e default weak).parse := by
  intro s
  by_cases hnext : s.cursor.hasNext = true
  · obtain ⟨t, ht, hcursor⟩ := h.idles s
    exact ⟨t, optional_ok hnext ht, hcursor⟩
  · refine ⟨recordDefault e default s, ?_, recordDefault_cursor e default s⟩
    simp only [optional, ofStep, parseOptional, if_neg hnext]

theorem sound_optional (h : Idle e) (ha : Advances e.parse) (default : Option Value)
    (weak : Bool) : Sound (optional e default weak) := by
  have hidles := h.idles_optional default weak
  have hstep : ∀ s : State, s.cursor.Valid → s.cursor.rest ≠ [] →
      StepSound (optional e default weak).parse s (stepOptional e default weak s) := by
    intro s hs hrest
    obtain ⟨t, ht, hcursor⟩ := h.idles s
    obtain ⟨context, hchild⟩ := h.step hs hrest
    have hnext : s.cursor.hasNext = true := (Cursor.hasNext_iff _).mpr hrest
    have hstay := Cursor.restore_self hs
    have hopt : stepOptional e default weak s =
        .resume ⟨s.cursor.position, context⟩ s.cursor := by
      simp only [stepOptional, ht, Outcome.state, Outcome.isOk, hcursor, hnext, hstay, if_true]
      exact hchild
    rw [hopt]
    exact stepSound_stay hrest context (hidles.passes _)
  refine ⟨advances_parseOptional default weak ha, ends_optional, fun s hs hrest => ?_, hstep⟩
  exact (hstep s hs hrest).candidates

end Idle

/-! ## Grammars -/

/-- The elements that read one token or none. -/
inductive Skippable : Element → Prop where
  | none : Skippable .none
  | markTrue (key : String) : Skippable (.markTrue key)
  | token {e : Element} (h : TokenLeaf e) : Skippable e
  | word (key : String) (value : Value) (word : String) : Skippable (.literal key value [word])

/-- The grammars in which only such elements may be skipped, without alternatives and flags. -/
inductive Completable : Element → Prop where
  | none : Completable .none
  | markTrue (key : String) : Completable (.markTrue key)
  | token {e : Element} (h : TokenLeaf e) : Completable e
  | literal (key : String) (value : Value) (words : List String) :
      Completable (.literal key value words)
  | rest (key : String) : Completable (.rest key)
  | seq {es : List Element} (h : ∀ e ∈ es, Completable e) : Completable (.seq es)
  | optional {e : Element} (default : Option Value) (weak : Bool) (h : Skippable e) :
      Completable (.optional e default weak)
  | times (n : Nat) {e : Element} (h : Completable e) : Completable (.times n e)
  | allOf (patience : Nat) {e : Element} (h : Completable e) : Completable (.allOf e patience)

theorem TokenLeaf.reads {e : Element} (h : TokenLeaf e) : ∃ accepts, Reads accepts e := by
  obtain ⟨key, convert, complete, rfl, hcomplete⟩ := h.eq_leaf
  exact ⟨_, reads_leaf key hcomplete⟩

theorem TokenLeaf.advances {e : Element} (h : TokenLeaf e) : Advances e.parse :=
  (Built.token h : Built false e).advances

theorem advances_none : Advances none.parse := (Built.none : Built false none).advances

theorem advances_markTrue (key : String) : Advances (markTrue key).parse :=
  (Built.markTrue key : Built false (markTrue key)).advances

theorem Skippable.sound_optional {e : Element} (h : Skippable e) (default : Option Value)
    (weak : Bool) : Sound (optional e default weak) := by
  cases h with
  | none => exact idle_none.sound_optional advances_none default weak
  | markTrue key => exact (idle_markTrue key).sound_optional (advances_markTrue key) default weak
  | token hleaf =>
    obtain ⟨accepts, hreads⟩ := hleaf.reads
    exact hreads.sound_optional hleaf.advances default weak
  | word key value word =>
    exact (reads_word key value word).sound_optional (advances_literal key value [word]) default weak

theorem Completable.sound {e : Element} (h : Completable e) : Sound e := by
  induction h with
  | none => exact idle_none.sound advances_none
  | markTrue key => exact (idle_markTrue key).sound (advances_markTrue key)
  | token hleaf =>
    obtain ⟨accepts, hreads⟩ := hleaf.reads
    exact hreads.sound hleaf.advances
  | literal key value words => exact sound_literal key value words
  | rest key => exact sound_rest key
  | seq _ ih => exact sound_ofStep_seq _ ih
  | optional default weak hskip => exact hskip.sound_optional default weak
  | times n _ ih => exact sound_ofStep_seq _ fun e he => List.eq_of_mem_replicate he ▸ ih
  | allOf n _ ih => exact sound_allOf n ih

end Element

/-! ## Lines -/

namespace Parser

theorem run_of_finished {e : Element} {raw : String} {ts : List Token}
    (h : (e.parse ⟨.ofTokens raw ts, .empty⟩).Finished) :
    (∃ context, run e raw ts = .ok context) ∨
      ∃ err, run e raw ts = .error err ∧ err.kind = .missingRequiredArgument := by
  unfold run
  revert h
  generalize e.parse ⟨.ofTokens raw ts, .empty⟩ = o
  intro h
  cases h with
  | ok hs hrest =>
    simp only [Cursor.next?_of_rest_nil hrest]
    exact .inl ⟨_, rfl⟩
  | missing hkind => exact .inr ⟨_, rfl, hkind⟩

/-- **Candidates parse.** For quoted lines and every caret, the place of the word to complete is a
place between characters, and a line that is cut there and goes on with a candidate parses, or lacks
an argument. -/
theorem completeLine_parses {p : Parser} (he : p.element.Completable) (ht : p.tokenizer.Quotes)
    (line : String) (caret : Nat) :
    Text.size (Text.upTo (p.completeLine line caret).1 line) = (p.completeLine line caret).1 ∧
    ∀ q ∈ (p.completeLine line caret).2,
      (∃ context, p.parse (Text.upTo (p.completeLine line caret).1 line ++ q) = .ok context) ∨
      ∃ err, p.parse (Text.upTo (p.completeLine line caret).1 line ++ q) = .error err ∧
        err.kind = .missingRequiredArgument := by
  obtain ⟨a, b, us, t, hsplit, htokens, hstart, hreplace⟩ :=
    Tokenizer.replace_last ht (Text.upTo caret line)
  have hcut : (p.completeLine line caret).1 = Text.byteSize a := by
    simp only [completeLine, completionStart, htokens, List.getLast?_concat]
    exact hstart
  have hupTo : Text.upTo (Text.byteSize a) line = String.ofList a := by
    have hline : line.toList = a ++ (b ++ Text.dropBytes caret line.toList) := by
      rw [Text.upTo, String.toList_ofList] at hsplit
      rw [← List.append_assoc, ← hsplit, Text.takeBytes_append_dropBytes]
    rw [Text.upTo, hline, Text.takeBytes_byteSize_append]
  rw [hcut, hupTo]
  refine ⟨by rw [Text.size, String.toList_ofList], fun q hq => ?_⟩
  obtain ⟨v, hv, rfl⟩ := List.mem_map.mp hq
  simp only [complete, htokens] at hv
  obtain ⟨stop, hparsed⟩ := hreplace v
  have hoffers := he.sound.offers ⟨.ofTokens (Text.upTo caret line) (us ++ [t]), .empty⟩
    (Cursor.valid_ofTokens _ _) (by simp) v (mem_of_mem_distinct hv)
  simp only [parse, hparsed]
  apply run_of_finished
  apply hoffers _ (Cursor.valid_ofTokens _ _)
  simp [settled]

/-- The number may be skipped, so the word behind it is offered; it holds a blank and is quoted. -/
theorem completeLine_parses_quoted :
    let p : Parser :=
      ⟨.seq [.literal "command" (.text "list") ["list"], .optional (.integer "n") none true,
        .choices "order" [("as is", .int 0), ("sorted", .int 1)]], .strictQuoted⟩
    p.completeLine "list a" 6 = (5, ["\"as is\""]) ∧
      ((∃ context, p.parse (Text.upTo 5 "list a" ++ "\"as is\"") = .ok context) ∨
        ∃ err, p.parse (Text.upTo 5 "list a" ++ "\"as is\"") = .error err ∧
          err.kind = .missingRequiredArgument) := by
  intro p
  have hline : p.completeLine "list a" 6 = (5, ["\"as is\""]) := by decide +kernel
  have helement : p.element.Completable := by
    refine .seq ?_
    simp only [List.forall_mem_cons, List.not_mem_nil, false_implies, implies_true, and_true]
    exact ⟨.literal _ _ _, .optional _ _ (.token (.integer "n")), .token (.choices _ _)⟩
  have hparses := (completeLine_parses helement (.inr rfl) "list a" 6).2
  rw [hline] at hparses
  exact ⟨hline, hparses "\"as is\"" (by simp)⟩

end Parser

end ArgGrammar
