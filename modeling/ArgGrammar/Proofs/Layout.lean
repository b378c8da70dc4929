import ArgGrammar.Parser
import ArgGrammar.Proofs.Quoting
import ArgGrammar.Proofs.Uniform

/-!
# Parsing does not depend on the layout

What a grammar records, whether it fails and why, and which values it leaves depend on the values of
the tokens that are left, and on nothing else: not on the line, nor on the bytes that the tokens were
read from, nor on the tokens behind the place, nor on what was in view before.

* `ParseError.reason`, `Outcome.reason?`: what a failure says, apart from its place.
* `Outcome.Alike.reason?_eq`, `reason_run`: outcomes that are alike say the same.
* `parse_layout`: the statement about elements, and what follows for whole lines.
-/

namespace ArgGrammar

/-- The category, the wording and the cause of an error. -/
def ParseError.reason (e : ParseError) : ErrorKind × String × Option String :=
  (e.kind, e.message, e.cause?)

/-- What the failure says, if there is one. -/
def Outcome.reason? : Outcome → Option (ErrorKind × String × Option String)
  | .ok _ => none
  | .failed e _ => some e.reason

theorem ParseError.reason_eq {e e' : ParseError} (h : e.complaint = e'.complaint) :
    e.reason = e'.reason := by
  simp only [reason, kind, message, cause?, h]

variable {exact : Bool}

theorem Outcome.Alike.reason?_eq {o p : Outcome} (h : o.Alike exact p) : o.reason? = p.reason? := by
  cases h with
  | ok _ => rfl
  | failed hcomplaint _ _ => exact congrArg some (ParseError.reason_eq hcomplaint)

theorem Outcome.Alike.context_eq {o p : Outcome} (h : o.Alike exact p) :
    o.state.context = p.state.context := by
  cases h with
  | ok h' => exact h'.context
  | failed _ _ h' => exact h'.context

theorem reason_run {e : Element} (h : Uniform false e.parse) (raw raw' : String)
    {ts us : List Token} (hvalues : ts.map (·.value) = us.map (·.value)) :
    (Parser.run e raw ts).mapError ParseError.reason =
      (Parser.run e raw' us).mapError ParseError.reason := by
  have hstart : State.Alike false ⟨.ofTokens raw ts, .empty⟩ ⟨.ofTokens raw' us, .empty⟩ :=
    ⟨Cursor.valid_ofTokens _ _, Cursor.valid_ofTokens _ _,
      Cursor.alike_ofTokens ⟨hvalues, nofun⟩ nofun, rfl⟩
  have hrun := (h _ _ hstart).alike
  unfold Parser.run
  revert hrun
  generalize e.parse ⟨.ofTokens raw ts, .empty⟩ = o
  generalize e.parse ⟨.ofTokens raw' us, .empty⟩ = p
  intro hrun
  cases hrun with
  | failed hcomplaint _ _ =>
    exact congrArg Except.error (ParseError.reason_eq hcomplaint)
  | ok hst =>
    obtain ⟨hs, ht⟩ | ⟨a, _, b, _, ha, hb, -, -, -⟩ := hst.cursor.cases
    · simp only [Cursor.next?_of_rest_nil hs, Cursor.next?_of_rest_nil ht, hst.context]
    · simp only [Cursor.next?_of_rest_cons ha, Cursor.next?_of_rest_cons hb]
      exact congrArg Except.error (ParseError.reason_eq rfl)

/-- **Layout independence.** On two cursors with the same values left to read, in the same context, a
grammar succeeds on both or fails on both for the same reason, records the same and leaves the same
values. So two lines that split into the same values give the same context or the same failure. -/
theorem parse_layout {e : Element} (h : e.Built false) :
    (∀ (c d : Cursor) (context : Context), c.Valid → d.Valid →
      c.rest.map (·.value) = d.rest.map (·.value) →
      (e.parse ⟨c, context⟩).reason? = (e.parse ⟨d, context⟩).reason? ∧
      (e.parse ⟨c, context⟩).state.context = (e.parse ⟨d, context⟩).state.context ∧
      (e.parse ⟨c, context⟩).state.cursor.rest.map (·.value) =
        (e.parse ⟨d, context⟩).state.cursor.rest.map (·.value)) ∧
    ∀ (policy policy' : Tokenizer) (line line' : String) (ts us : List Token),
      policy.tokenize line false = .ok ts → policy'.tokenize line' false = .ok us →
      ts.map (·.value) = us.map (·.value) →
      ((Parser.mk e policy).parse line).mapError ParseError.reason =
        ((Parser.mk e policy').parse line').mapError ParseError.reason := by
  refine ⟨fun c d context hc hd hvalues => ?_, fun policy policy' line line' ts us hts hus hvalues => ?_⟩
  · have hrun := (h.uniform ⟨c, context⟩ ⟨d, context⟩ ⟨hc, hd, ⟨hvalues, nofun⟩, rfl⟩).alike
    exact ⟨hrun.reason?_eq, hrun.context_eq, hrun.cursor.values⟩
  · simp only [Parser.parse, hts, hus]
    exact reason_run h.uniform line line' hvalues

open Element in
/-- Blanks and quotes change the bytes of the tokens and not the context. -/
theorem parse_layout_quotes :
    let grammar := ({ short := [('q', integer "q")] } : Flags).around (string "key")
    ((Parser.mk grammar .lenientQuoted).parse "-q 5 x").mapError ParseError.reason =
      ((Parser.mk grammar .strictQuoted).parse " '-q'  \"5\" x").mapError ParseError.reason := by
  intro grammar
  have hbuilt : grammar.Built false := by
    refine .flags ?_ nofun (.token (.string "key"))
    simp only [List.forall_mem_cons, List.not_mem_nil, false_implies, implies_true, and_true]
    exact .token (.integer "q")
  exact (parse_layout hbuilt).2 .lenientQuoted .strictQuoted "-q 5 x" " '-q'  \"5\" x"
    [⟨"-q", 0, 2⟩, ⟨"5", 3, 4⟩, ⟨"x", 5, 6⟩] [⟨"-q", 1, 5⟩, ⟨"5", 7, 10⟩, ⟨"x", 11, 12⟩]
    (Tokenizer.tokenize_of_closed (.inl rfl) (by decide +kernel))
    (Tokenizer.tokenize_of_closed (.inr rfl) (by decide +kernel)) rfl

end ArgGrammar
