import ArgGrammar.Proofs.Grammar

/-!
# Parsing only goes forward

What a parse does to the tokens and to what is recorded, whether it succeeds or fails, at any place
of a valid cursor.

* `Flags.cursor_handBack`: where flags leave the cursor when the element that they stand around does
  not read all positional tokens.
* `parse_keeps_tokens`: the place does not move back, the tokens behind it stay, and what is left was
  left before, in the same order. Flags keep just the tokens that stood before them, even if the
  value of a flag has changed the view in between.
* `parse_appends`: keys and values are added at the end, and every new key has a value.

Both follow from `Built.advances`, which is proved for one constructor after another.
-/

namespace ArgGrammar

theorem Flags.cursor_handBack {f : Flags} (hanchored : f.anchored = false) {child : Element}
    {s s' : State} {positional : List Token} (hscan : f.scan s.cursor.remaining s = (.ok s', positional))
    {left : Cursor}
    (hleft : (child.parse ⟨s'.cursor.onTokens positional, s'.context⟩).state.cursor = left)
    (hnext : left.hasNext = true) :
    (f.parse child s).state.cursor = s'.cursor.splice s.cursor.position left.rest := by
  subst hleft
  simp only [parse, hscan, Outcome.andThen, hanchored, Bool.false_eq_true, if_false, if_pos hnext]
  cases child.parse ⟨s'.cursor.onTokens positional, s'.context⟩ <;> rfl

/-- **Tokens are neither read again, nor moved, nor made up.** Wherever parsing ends, the index is at
least the one at the start, the tokens before that index are the same, and the tokens that are left
are some of those that were left, in the same order. When flags hand back positional tokens, the
tokens in view are those that stood before the flags and the ones handed back, whatever the values of
flags have done to the view. -/
theorem parse_keeps_tokens {e : Element} (he : e.Built true) {f : Flags}
    (hshort : ∀ d ∈ f.short, d.2.Built true) (hlong : ∀ d ∈ f.long, d.2.Built true)
    (child : Element) {s : State} (hs : s.cursor.Valid) :
    (s.cursor.index ≤ (e.parse s).state.cursor.index ∧
      (e.parse s).state.cursor.tokens.take s.cursor.index = s.cursor.tokens.take s.cursor.index ∧
      (e.parse s).state.cursor.rest.Sublist s.cursor.rest) ∧
    (f.anchored = false → ∀ s' positional left,
      f.scan s.cursor.remaining s = (.ok s', positional) →
      (child.parse ⟨s'.cursor.onTokens positional, s'.context⟩).state.cursor = left →
      left.hasNext = true →
      ((f.around child).parse s).state.cursor = s'.cursor.splice s.cursor.position left.rest ∧
      ((f.around child).parse s).state.cursor.tokens =
        s.cursor.tokens.take s.cursor.index ++ left.rest ∧
      ((f.around child).parse s).state.cursor.index = s.cursor.index) := by
  constructor
  · have hcursor := (he.advances s hs).cursor
    exact ⟨hcursor.index_le, hcursor.before, hcursor.rest⟩
  · intro hanchored s' positional left hscan hleft hnext
    have hsplice : ((f.around child).parse s).state.cursor =
        s'.cursor.splice s.cursor.position left.rest :=
      Flags.cursor_handBack hanchored hscan hleft hnext
    have hfollows : s.cursor.Follows s'.cursor := by
      have hlead := (Flags.leads_scan (fun d hd => (hshort d hd).advances)
        (fun d hd => (hlong d hd).advances) s.cursor.remaining s hs).1
      rw [hscan] at hlead
      exact hlead.cursor
    refine ⟨hsplice, ?_, ?_⟩
    · rw [hsplice, hfollows.tokens_splice]
    · rw [hsplice, hfollows.index_splice]

open Element in
/-- The flag `q` has flags of its own, which hand `b` and `c` back into a new view. The outer flags
then hand `c` back, behind the token `p` that was read before them. -/
theorem parse_keeps_tokens_nested :
    let inner := ({ short := [('z', markTrue "z")] } : Flags).around (string "v")
    let f : Flags := { short := [('q', inner)] }
    let tokens : List Token :=
      [⟨"p", 0, 1⟩, ⟨"-q", 2, 4⟩, ⟨"-z", 5, 7⟩, ⟨"a", 8, 9⟩, ⟨"b", 10, 11⟩, ⟨"c", 12, 13⟩]
    let s : State := ⟨(Cursor.ofTokens "p -q -z a b c" tokens).moveTo 1, .empty⟩
    let t := ((f.around (string "k")).parse s).state.cursor
    t.tokens = [⟨"p", 0, 1⟩, ⟨"c", 12, 13⟩] ∧ t.index = 1 ∧ t.rest.Sublist s.cursor.rest := by
  intro inner f tokens s t
  have hinner : inner.Built true := by
    refine .flags ?_ nofun (.token (.string "v"))
    simp only [List.forall_mem_cons, List.not_mem_nil, false_implies, implies_true, and_true]
    exact .markTrue "z"
  have hshort : ∀ d ∈ f.short, d.2.Built true := by
    simp only [f, List.forall_mem_cons, List.not_mem_nil, false_implies, implies_true, and_true]
    exact hinner
  have hs : s.cursor.Valid := (Cursor.valid_ofTokens _ _).moveTo (by decide)
  obtain ⟨⟨-, -, hrest⟩, hback⟩ := parse_keeps_tokens (.flags hshort nofun (.token (.string "k")))
    (f := f) hshort nofun (string "k") hs
  obtain ⟨-, htokens, hindex⟩ := hback rfl (f.scan s.cursor.remaining s).1.state
    [⟨"b", 10, 11⟩, ⟨"c", 12, 13⟩] _ (by decide +kernel) rfl (by decide +kernel)
  exact ⟨htokens, hindex, hrest⟩

/-- **The context is append-only.** Wherever parsing ends, the keys at the start stand in front of the
keys now, in the same order, and each of them has its values of the start in front. If every key had
a value at the start, every key has one now. -/
theorem parse_appends {e : Element} (he : e.Built true) {s : State} (hs : s.cursor.Valid) :
    s.context.keys <+: (e.parse s).state.context.keys ∧
    (∀ key ∈ s.context.keys, s.context.all key <+: (e.parse s).state.context.all key) ∧
    ((∀ key ∈ s.context.keys, s.context.hasAny key = true) →
      ∀ key ∈ (e.parse s).state.context.keys, (e.parse s).state.context.hasAny key = true) := by
  have hcontext := (he.advances s hs).context
  exact ⟨hcontext.keys_prefix, fun key _ => hcontext.all_prefix key, hcontext.hasAny⟩

open Element in
/-- The first alternative writes under the old key and a new one before it fails; its writes are
dropped, and those of the second one come after what was there. -/
theorem parse_appends_alternatives :
    let grammar := firstOf [seq [string "a", string "b", integer "a"], seq [string "c", string "a"]]
    let s : State := ⟨.ofTokens "x y z" [⟨"x", 0, 1⟩, ⟨"y", 2, 3⟩, ⟨"z", 4, 5⟩],
      Context.empty.put "a" (.bool true)⟩
    let after := (grammar.parse s).state.context
    s.context.keys <+: after.keys ∧ s.context.all "a" <+: after.all "a" ∧
      ∀ key ∈ after.keys, after.hasAny key = true := by
  intro grammar s after
  have hgrammar : grammar.Built true := by
    refine .firstOf ?_
    simp only [List.forall_mem_cons, List.not_mem_nil, false_implies, implies_true, and_true]
    refine ⟨.seq ?_, .seq ?_⟩ <;>
      simp only [List.forall_mem_cons, List.not_mem_nil, false_implies, implies_true, and_true]
    · exact ⟨.token (.string "a"), .token (.string "b"), .token (.integer "a")⟩
    · exact ⟨.token (.string "c"), .token (.string "a")⟩
  have hs : s.cursor.Valid := Cursor.valid_ofTokens _ _
  obtain ⟨hkeys, hvalues, hfilled⟩ := parse_appends hgrammar hs
  exact ⟨hkeys, hvalues "a" (by decide), hfilled (by decide)⟩

end ArgGrammar
