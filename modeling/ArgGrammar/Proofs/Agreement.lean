import ArgGrammar.Proofs.Placement
import ArgGrammar.Proofs.Rounds

/-!
# Two scans that come to the same

Flags can be written in several ways that record the same. Runs over two such lines are not alike all
the way, since they read other tokens for the flags, and where both fail other tokens may be left. So
only what anybody sees is compared.

* `Outcome.Agree o p`: successes in states that are alike, or failures for the same reason in the same
  context.
* `Performed.agree`: two runs that perform one effect agree.
* `Flags.agree_scanAfter`, `agree_parse`: once two runs agree, so do the scans that go on from there
  and the parses around a child.
-/

namespace ArgGrammar

/-- Two successes in states that are alike, or two failures for the same reason in the same
context. -/
inductive Outcome.Agree : Outcome → Outcome → Prop where
  | ok {s t : State} (h : s.Alike false t) : Outcome.Agree (.ok s) (.ok t)
  | failed {e e' : ParseError} {s t : State} (hcomplaint : e.complaint = e'.complaint)
      (hcontext : s.context = t.context) : Outcome.Agree (.failed e s) (.failed e' t)

variable {o p : Outcome}

namespace Outcome.Agree

theorem reason?_eq (h : o.Agree p) : o.reason? = p.reason? := by
  cases h with
  | ok _ => rfl
  | failed hcomplaint _ => exact congrArg some (ParseError.reason_eq hcomplaint)

theorem context_eq (h : o.Agree p) : o.state.context = p.state.context := by
  cases h with
  | ok h => exact h.context
  | failed _ hcontext => exact hcontext

theorem values (h : o.Agree p) (hok : o.isOk = true) :
    o.state.cursor.rest.map (·.value) = p.state.cursor.rest.map (·.value) := by
  cases h with
  | ok h => exact h.cursor.values
  | failed _ _ => cases hok

end Outcome.Agree

theorem Outcome.Alike.agree (h : o.Alike false p) : o.Agree p := by
  cases h with
  | ok h => exact .ok h
  | failed hcomplaint _ h => exact .failed hcomplaint h.context

theorem Performed.agree {more : List String} {r : Context × Option Complaint}
    (ho : Performed more r o) (hp : Performed more r p) : o.Agree p := by
  cases ho with
  | @ok c context hc hrest =>
    cases hp with
    | @ok d _ hd hrest' => exact .ok ⟨hc, hd, ⟨hrest.trans hrest'.symm, nofun⟩, rfl⟩
  | failed err s =>
    generalize hcontext : s.context = context at hp
    generalize hcomplaint : err.complaint = complaint at hp
    cases hp with
    | failed err' t => exact .failed hcomplaint hcontext

namespace Flags

variable {f : Flags} {child : Element} {s t : State}

theorem agree_scanAfter (hshort : ∀ d ∈ f.short, Uniform false d.2.parse)
    (hlong : ∀ d ∈ f.long, Uniform false d.2.parse) (h : o.Agree p) {n m : Nat}
    (hn : o.state.cursor.rest.length ≤ n) (hm : p.state.cursor.rest.length ≤ m) :
    (f.scanAfter n o).1.Agree (f.scanAfter m p).1 ∧
      (f.scanAfter n o).2.map (·.value) = (f.scanAfter m p).2.map (·.value) := by
  cases h with
  | @ok u v huv =>
    -- both scans have rounds enough, so they may be taken to have equally many
    have hm' : v.cursor.rest.length ≤ n := huv.cursor.rest_length ▸ hn
    have hsame : f.scan m v = f.scan n v :=
      scan_of_le (fun d hd => (hshort d hd).advances) (fun d hd => (hlong d hd).advances)
        huv.validRight hm hm'
    obtain ⟨hrun, htokens⟩ := matches_scan hshort hlong n huv
    simp only [scanAfter, hsame]
    exact ⟨hrun.alike.agree, htokens.1⟩
  | failed hcomplaint hcontext => exact ⟨.failed hcomplaint hcontext, rfl⟩

/-! ## The child -/

theorem valid_handBack {c left : Cursor} (hc : c.Valid) (q : Cursor.Position) :
    (if left.hasNext then c.splice q left.rest else c).Valid := by
  split
  · exact Cursor.valid_splice _ _ _
  · exact hc

theorem alike_handBack {c d left right : Cursor} (h : c.Alike false d) (hleft : left.Alike false right)
    (q r : Cursor.Position) :
    Cursor.Alike false (if left.hasNext then c.splice q left.rest else c)
      (if right.hasNext then d.splice r right.rest else d) := by
  rw [← hleft.hasNext]
  split
  · refine ⟨?_, nofun⟩
    rw [Cursor.rest_splice, Cursor.rest_splice]
    exact hleft.values
  · exact h

theorem agree_onCursor {c d : Cursor} (h : o.Alike false p) (hc : c.Valid) (hd : d.Valid)
    (hcd : c.Alike false d) : (onCursor c o).Agree (onCursor d p) := by
  cases h with
  | ok h => exact .ok ⟨hc, hd, hcd, h.context⟩
  | failed hcomplaint _ h => exact .failed hcomplaint h.context

theorem agree_parse (hchild : Uniform false child.parse)
    (hscan : (f.scan s.cursor.remaining s).1.Agree (f.scan t.cursor.remaining t).1)
    (htokens : (f.scan s.cursor.remaining s).2.map (·.value) =
      (f.scan t.cursor.remaining t).2.map (·.value)) :
    (f.parse child s).Agree (f.parse child t) := by
  unfold parse
  revert hscan htokens
  rcases f.scan s.cursor.remaining s with ⟨o, ts⟩
  rcases f.scan t.cursor.remaining t with ⟨p, us⟩
  intro hscan htokens
  dsimp only at hscan htokens ⊢
  cases hscan with
  | failed hcomplaint hcontext => exact .failed hcomplaint hcontext
  | @ok u v huv =>
    dsimp only [Outcome.andThen]
    split
    · exact (hchild u v huv).alike.agree
    · have hstart : State.Alike false ⟨u.cursor.onTokens ts, u.context⟩
          ⟨v.cursor.onTokens us, v.context⟩ :=
        ⟨Cursor.valid_ofTokens _ _, Cursor.valid_ofTokens _ _,
          Cursor.alike_ofTokens ⟨htokens, nofun⟩ nofun, huv.context⟩
      have hinner := (hchild _ _ hstart).alike
      exact agree_onCursor hinner (valid_handBack huv.validLeft _) (valid_handBack huv.validRight _)
        (alike_handBack huv.cursor hinner.cursor _ _)

end Flags

end ArgGrammar
