import ArgGrammar.Proofs.Frame
import ArgGrammar.Proofs.Placement
import ArgGrammar.Proofs.Rounds

/-!
# Flags that come first

Anchored flags hand the cursor to the child where the first positional token is next. Unanchored flags
hand it a cursor over the positional tokens, and put back what the child leaves. If no flag comes
after the first positional token, nobody can tell which of the two it was.

* `parse_onRest`: a grammar does the same at a place of a cursor and on a new cursor over the tokens
  that are left there.
* `Flags.Parts`: what the two scans have in common. `parts_scan` shows it round by round.
* `Flags.parse_anchored`: the outcomes agree.
-/

namespace ArgGrammar

theorem Outcome.Framed.reason?_eq {recorded : Bool} {before : List Token} {o p : Outcome}
    (h : o.Framed recorded before p) : o.reason? = p.reason? := by
  cases h with
  | ok _ => rfl
  | failed hcomplaint _ => exact congrArg some (ParseError.reason_eq hcomplaint)

/-- The tokens behind the place, and what was in view before, make no difference. -/
theorem parse_onRest {e : Element} (he : e.Built true) {c : Cursor} (hc : c.Valid)
    (context : Context) :
    (e.parse ⟨c, context⟩).reason? = (e.parse ⟨c.onTokens c.rest, context⟩).reason? ∧
    (e.parse ⟨c, context⟩).state.context = (e.parse ⟨c.onTokens c.rest, context⟩).state.context ∧
    (e.parse ⟨c, context⟩).state.cursor.rest =
      (e.parse ⟨c.onTokens c.rest, context⟩).state.cursor.rest := by
  -- from the one cursor to the other by way of the new one under the tokens that were read
  have hvalid : (c.onTokens c.rest).Valid := Cursor.valid_ofTokens _ _
  have hframed : State.Framed true (c.tokens.take c.index) ⟨c.onTokens c.rest, context⟩
      ⟨(c.onTokens c.rest).under (c.tokens.take c.index), context⟩ := ⟨hvalid, rfl, fun _ => rfl⟩
  have htokens : ((c.onTokens c.rest).under (c.tokens.take c.index)).tokens = c.tokens := by
    rw [Cursor.tokens_under hvalid]
    exact List.take_append_drop c.index c.tokens
  have hindex : ((c.onTokens c.rest).under (c.tokens.take c.index)).index = c.index := by
    show (c.tokens.take c.index).length + 0 = c.index
    rw [Nat.add_zero, List.length_take, Nat.min_eq_left hc.index_le]
  have halike : State.Alike true ⟨c, context⟩
      ⟨(c.onTokens c.rest).under (c.tokens.take c.index), context⟩ := by
    refine ⟨hc, Cursor.valid_under hvalid, ⟨?_, fun _ => ⟨rfl, htokens.symm, hindex.symm⟩⟩, rfl⟩
    dsimp only
    rw [Cursor.rest_under hvalid, Cursor.onTokens, Cursor.rest_ofTokens]
  have hleft := (he.uniform _ _ halike).alike
  have hright := he.framing _ _ _ hframed
  refine ⟨hleft.reason?_eq.trans hright.reason?_eq.symm,
    hleft.context_eq.trans (hright.state.context rfl), ?_⟩
  exact (hleft.cursor.tokensAlike_rest.2 rfl).trans hright.state.rest

namespace Flags

variable {f : Flags} {s : State}

/-- What an anchored scan and an unanchored one have in common: both fail in the same way, or the one
stops where the other starts to collect all that is left. -/
inductive Parts : Outcome × List Token → Outcome × List Token → Prop where
  | ok {u v : State} (hu : u.cursor.Valid) (hrest : v.cursor.rest = [])
      (hraw : v.cursor.raw = u.cursor.raw) (hcontext : v.context = u.context) :
      Parts (.ok u, []) (.ok v, u.cursor.rest)
  | failed (e : ParseError) (u : State) : Parts (.failed e u, []) (.failed e u, [])

theorem scan_all_positional (hanchored : f.anchored = false) (hs : s.cursor.Valid)
    (hall : ∀ ps u t, f.Meets s ps u t → FlagWord.ofText t.value = .positional) {n : Nat}
    (hn : s.cursor.rest.length ≤ n) :
    ∃ v, f.scan n s = (.ok v, s.cursor.rest) ∧ v.cursor.rest = [] ∧ v.cursor.raw = s.cursor.raw ∧
      v.context = s.context := by
  induction n generalizing s with
  | zero =>
    have hnil := List.eq_nil_of_length_eq_zero (Nat.le_zero.mp hn)
    exact ⟨s, by rw [hnil]; rfl, hnil, rfl, rfl⟩
  | succ n ih =>
    cases hrest : s.cursor.rest with
    | nil => exact ⟨s, scan_of_rest_nil _ hrest, hrest, rfl, rfl⟩
    | cons a ts =>
      have hround : f.Round s [a] s.behind :=
        .positional hanchored hrest (hall _ _ _ (meets_of_rest_cons hrest))
      have hts : s.behind.cursor.rest = ts := Cursor.rest_behind hrest
      rw [hrest] at hn
      obtain ⟨v, hscan, hv⟩ := ih (hs.behind hrest)
        (fun ps u t hmeets => hall _ u t (hround.meets hmeets)) (hts ▸ Nat.le_of_succ_le_succ hn)
      refine ⟨v, ?_, hv⟩
      rw [hround.scan, hscan, hts]
      rfl

theorem parseGroup_anchored (b : Bool) (group : List Char) (s : State) :
    ({ f with anchored := b } : Flags).parseGroup group s = f.parseGroup group s := by
  induction group generalizing s with
  | nil => rfl
  | cons c cs ih =>
    show Outcome.andThen (f.parseShort c s) _ = Outcome.andThen (f.parseShort c s) _
    rw [funext ih]

theorem parts_of_rest_nil (hs : s.cursor.Valid) (hnil : s.cursor.rest = []) (n : Nat) :
    Parts (({ f with anchored := true } : Flags).scan n s)
      (({ f with anchored := false } : Flags).scan n s) := by
  have hparts : Parts (.ok s, []) (.ok s, s.cursor.rest) := .ok hs hnil rfl rfl
  rw [hnil] at hparts
  rw [scan_of_rest_nil _ hnil, scan_of_rest_nil _ hnil]
  exact hparts

/-- If what comes after the first positional token is positional, the two scans part there. -/
theorem parts_scan (hshort : ∀ d ∈ f.short, Advances d.2.parse)
    (hlong : ∀ d ∈ f.long, Advances d.2.parse) (hs : s.cursor.Valid)
    (hfirst : ∀ ps u t, ({ f with anchored := false } : Flags).Meets s ps u t → ps ≠ [] →
      FlagWord.ofText t.value = .positional) {n : Nat} (hn : s.cursor.rest.length ≤ n) :
    Parts (({ f with anchored := true } : Flags).scan n s)
      (({ f with anchored := false } : Flags).scan n s) := by
  induction n generalizing s with
  | zero => exact parts_of_rest_nil hs (List.eq_nil_of_length_eq_zero (Nat.le_zero.mp hn)) 0
  | succ n ih =>
    cases hrest : s.cursor.rest with
    | nil => exact parts_of_rest_nil hs hrest (n + 1)
    | cons a ts =>
      have hbehind : s.behind.cursor.Valid := hs.behind hrest
      have hts : s.behind.cursor.rest = ts := Cursor.rest_behind hrest
      rw [hrest] at hn
      have hlen : s.behind.cursor.rest.length ≤ n := hts ▸ Nat.le_of_succ_le_succ hn
      -- both scans read the same flag, and go on from the same state or fail with the same error
      have hafter : ∀ o : Outcome, s.behind.Leads o.state →
          (∀ u, o = .ok u → ({ f with anchored := false } : Flags).Round s [] u) →
          Parts (({ f with anchored := true } : Flags).scanAfter n o)
            (({ f with anchored := false } : Flags).scanAfter n o) := by
        intro o ho hround
        cases o with
        | ok u =>
          exact ih ho.cursor.valid (fun ps v t hmeets => hfirst ps v t ((hround u rfl).meets hmeets))
            (Nat.le_trans ho.cursor.rest.length_le hlen)
        | failed e u => exact .failed e u
      cases hword : FlagWord.ofText a.value with
      | positional =>
        have hround : ({ f with anchored := false } : Flags).Round s [a] s.behind :=
          .positional rfl hrest hword
        obtain ⟨v, hscan, hnil, hraw, hcontext⟩ := scan_all_positional rfl hbehind
          (fun ps u t hmeets => hfirst _ u t (hround.meets hmeets) (by simp)) hlen
        have hstops : ({ f with anchored := true } : Flags).Stops s := fun b us hcons => by
          obtain ⟨rfl, -⟩ := List.cons.inj (hrest.symm.trans hcons)
          exact ⟨rfl, hword⟩
        have hparts : Parts (.ok s, []) (.ok v, s.cursor.rest) := .ok hs hnil hraw hcontext
        rw [hstops.scan, hround.scan, hscan, hts]
        rwa [hrest] at hparts
      | long name inline =>
        rw [scan_of_rest_cons n hrest, scan_of_rest_cons n hrest, hword]
        exact hafter _ (advances_parseLong hlong _ _ _ _ hbehind) fun u hu => .long hrest hword hu
      | short group =>
        rw [scan_of_rest_cons n hrest, scan_of_rest_cons n hrest, hword]
        dsimp only
        rw [parseGroup_anchored true, parseGroup_anchored false]
        refine hafter _ (advances_parseGroup hshort _ _ hbehind) fun u hu => .short hrest hword ?_
        rw [parseGroup_anchored]
        exact hu

/-- **Anchored and unanchored flags agree where flags come first.** If the unanchored scan reads no
flag after its first positional token, both succeed or both fail for the same reason, both record the
same, and the same tokens are left. -/
theorem parse_anchored {f : Flags} {child : Element} (hshort : ∀ d ∈ f.short, d.2.Built true)
    (hlong : ∀ d ∈ f.long, d.2.Built true) (hchild : child.Built true) {s : State}
    (hs : s.cursor.Valid)
    (hfirst : ∀ ps u t, ({ f with anchored := false } : Flags).Meets s ps u t → ps ≠ [] →
      FlagWord.ofText t.value = .positional) :
    let anchored := (({ f with anchored := true } : Flags).around child).parse s
    let free := (({ f with anchored := false } : Flags).around child).parse s
    anchored.reason? = free.reason? ∧ anchored.state.context = free.state.context ∧
      anchored.state.cursor.rest = free.state.cursor.rest := by
  intro anchored free
  have hparts := parts_scan (fun d hd => (hshort d hd).advances) (fun d hd => (hlong d hd).advances)
    hs hfirst (Nat.le_of_eq (Cursor.remaining_eq _).symm)
  simp only [anchored, free, around, parse, Bool.false_eq_true, if_true, if_false]
  revert hparts
  generalize ({ f with anchored := true } : Flags).scan s.cursor.remaining s = a
  generalize ({ f with anchored := false } : Flags).scan s.cursor.remaining s = b
  intro hparts
  cases hparts with
  | @ok u v hu hrest hraw hcontext =>
    obtain ⟨hreason, hafter, hleft⟩ := parse_onRest hchild hu u.context
    have hinner : (⟨v.cursor.onTokens u.cursor.rest, v.context⟩ : State) =
        ⟨u.cursor.onTokens u.cursor.rest, u.context⟩ := by
      rw [Cursor.onTokens, Cursor.onTokens, hraw, hcontext]
    simp only [Outcome.andThen, reason?_onCursor, context_onCursor, cursor_onCursor,
      values_handBack hrest, hinner]
    exact ⟨hreason, hafter, hleft⟩
  | failed e u => exact ⟨rfl, rfl, rfl⟩

open Element in
/-- A plain flag and a value flag come first; the child goes back once and leaves a token. -/
theorem parse_anchored_alternatives :
    let f : Flags := { short := [('v', markTrue "v")], long := [("n", string "n")] }
    let child := seq [string "w", firstOf [integer "k", string "x"]]
    let s : State := ⟨.ofTokens "-v --n 1 w x y" [⟨"-v", 0, 2⟩, ⟨"--n", 3, 6⟩, ⟨"1", 7, 8⟩,
      ⟨"w", 9, 10⟩, ⟨"x", 11, 12⟩, ⟨"y", 13, 14⟩], .empty⟩
    let anchored := (({ f with anchored := true } : Flags).around child).parse s
    let free := (({ f with anchored := false } : Flags).around child).parse s
    (anchored.reason? = free.reason? ∧ anchored.state.context = free.state.context ∧
      anchored.state.cursor.rest = free.state.cursor.rest) ∧
      free.state.cursor.rest = [⟨"y", 13, 14⟩] := by
  intro f child s anchored free
  have hshort : ∀ d ∈ f.short, d.2.Built true := by
    simp only [f, List.forall_mem_cons, List.not_mem_nil, false_implies, implies_true, and_true]
    exact .markTrue "v"
  have hlong : ∀ d ∈ f.long, d.2.Built true := by
    simp only [f, List.forall_mem_cons, List.not_mem_nil, false_implies, implies_true, and_true]
    exact .token (.string "n")
  have hchild : child.Built true := by
    refine .seq ?_
    simp only [List.forall_mem_cons, List.not_mem_nil, false_implies, implies_true, and_true]
    refine ⟨.token (.string "w"), .firstOf ?_⟩
    simp only [List.forall_mem_cons, List.not_mem_nil, false_implies, implies_true, and_true]
    exact ⟨.token (.integer "k"), .token (.string "x")⟩
  have hs : s.cursor.Valid := Cursor.valid_ofTokens _ _
  refine ⟨parse_anchored hshort hlong hchild hs fun ps u t hmeets hcollected => ?_, by
    decide +kernel⟩
  obtain ⟨⟨n, hscan⟩, hhead⟩ := hmeets
  obtain ⟨us, hus⟩ := List.head?_eq_some_iff.mp hhead
  have hshort' := fun d hd => (hshort d hd).advances
  have hlong' := fun d hd => (hlong d hd).advances
  obtain ⟨v, hflags, hv⟩ : ∃ v, ({ f with anchored := false } : Flags).scan 2 s = (.ok v, []) ∧
      v.cursor.rest = [⟨"w", 9, 10⟩, ⟨"x", 11, 12⟩, ⟨"y", 13, 14⟩] := ⟨_, rfl, rfl⟩
  match n, hscan with
  | 0, hscan => cases hscan; exact absurd rfl hcollected
  | 1, hscan => cases hscan; exact absurd rfl hcollected
  | n + 2, hscan =>
    -- two rounds read the flags, and what is met later is among the tokens behind them
    rw [Nat.add_comm, scan_add hflags] at hscan
    have hvalid := (scan_leads hshort' hlong' hs hflags).cursor.valid
    have hlater := (scan_leads hshort' hlong' hvalid hscan).cursor.rest
    rw [hus, hv] at hlater
    have hpositional : ∀ a ∈ [⟨"w", 9, 10⟩, ⟨"x", 11, 12⟩, ⟨"y", 13, 14⟩],
        FlagWord.ofText (Token.value a) = .positional := by decide
    exact hpositional t (hlater.subset (List.mem_cons_self ..))

end Flags

end ArgGrammar
