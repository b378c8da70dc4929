import ArgGrammar.Proofs.Agreement
import ArgGrammar.Proofs.Commitment
import ArgGrammar.Proofs.Progress

/-!
# Values behind an equals sign

The value of a long flag is the next token, or it stands behind an equals sign in the token of the
flag. In the second case the element of the flag reads it off a cursor of its own.

* `FlagWord.ofText_name`, `ofText_inline`: how the two forms are written.
* `Flags.performs_value`: the two forms have the same effect.
* `Flags.parse_inline_or_separate`: so they may be exchanged anywhere among the tokens that are left.
* `Flags.KeepsInline`: no value behind an equals sign is left over. `inline_value_read` says what
  becomes of such a value: an element that takes a token has it, and a plain flag drops it
  (`inline_value_dropped`).
-/

namespace ArgGrammar

namespace FlagWord

theorem ofText_of_dashes {s : String} {cs : List Char} (h : s.toList = '-' :: '-' :: cs)
    (hcs : cs ≠ []) : ofText s = ofLong cs := by
  obtain ⟨c, cs, rfl⟩ := List.exists_cons_of_ne_nil hcs
  simp only [ofText, h]

theorem span_name {cs : List Char} (h : '=' ∉ cs) (rest : List Char) :
    (cs ++ rest).takeWhile (· != '=') = cs ++ rest.takeWhile (· != '=') ∧
      (cs ++ rest).dropWhile (· != '=') = rest.dropWhile (· != '=') := by
  have hall : ∀ c ∈ cs, (c != '=') = true := fun c hc => bne_iff_ne.mpr fun heq => h (heq ▸ hc)
  exact ⟨List.takeWhile_append_of_pos hall, List.dropWhile_append_of_pos hall⟩

variable {name : String} (hname : name ≠ "") (hequals : '=' ∉ name.toList)

include hname hequals in
theorem ofText_name : ofText ("--" ++ name) = .long name none := by
  have hcs : name.toList ≠ [] := mt String.toList_eq_nil_iff.mp hname
  have hsplit := span_name hequals []
  rw [List.append_nil] at hsplit
  rw [ofText_of_dashes (by simp) hcs, ofLong, hsplit.1, hsplit.2]
  simp

include hequals in
theorem ofText_inline (value : String) :
    ofText ("--" ++ name ++ "=" ++ value) = .long name (some value) := by
  have htext : ("--" ++ name ++ "=" ++ value).toList =
      '-' :: '-' :: (name.toList ++ '=' :: value.toList) := by simp
  have hsplit := span_name hequals ('=' :: value.toList)
  rw [ofText_of_dashes htext (by simp), ofLong, hsplit.1, hsplit.2]
  simp

end FlagWord

namespace Flags

variable {f : Flags}

/-! ## The two forms -/

theorem performs_string (name value : String) : Performs (Element.string name).parse [value]
    fun context => (context.put name (.text value), none) := by
  intro s more hs hrest
  obtain ⟨t, ts, ht, hvalue, hts⟩ := List.map_eq_cons_iff.mp hrest
  rw [Element.string, Reader.text, Element.parse_leaf_of_rest_cons ht, hvalue]
  exact .ok (hs.behind ht) (by rw [State.behind, Cursor.rest_behind ht]; exact hts)

/-- The flag takes a value of one token, by its definition or because there is none. -/
def TakesValue (f : Flags) (name : String) : Prop :=
  (∃ e, f.long? name = some e ∧ e.TokenLeaf) ∨ f.long? name = none ∧ f.unknownLong = .acceptValue

theorem performs_value {name : String} (h : f.TakesValue name) (value : String) :
    ∃ effect, ∀ a b, Performs (f.parseLong name (some value) a) [] effect ∧
      Performs (f.parseLong name none b) [value] effect := by
  unfold parseLong
  obtain ⟨e, hdef, hleaf⟩ | ⟨hdef, hpolicy⟩ := h
  · obtain ⟨effect, heffect⟩ := performs_leaf hleaf value
    rw [hdef]
    refine ⟨effect, fun a b => ⟨fun s more hs hrest => ?_, heffect⟩⟩
    exact performed_onCursor (heffect ⟨inlineCursor s.cursor a value, s.context⟩ []
      (Cursor.valid_ofTokens _ _) (values_inlineCursor s.cursor a value)) hs hrest
  · rw [hdef, hpolicy]
    exact ⟨_, fun a b => ⟨performs_put name (.text value), performs_string name value⟩⟩

/-- **The value of a flag may stand behind an equals sign or be the next token.** Around a child that
does not record the line as it was written, flags that take a value of one token give the same outcome
for both forms, whatever the value reads and whatever follows: success on both or failure on both for
the same reason, the same context, and after a success the same values left. -/
theorem parse_inline_or_separate {f : Flags} {child : Element} (hshort : ∀ d ∈ f.short, d.2.Built false)
    (hlong : ∀ d ∈ f.long, d.2.Built false) (hchild : child.Built false) {name : String}
    (hname : name ≠ "") (hequals : '=' ∉ name.toList) (htakes : f.TakesValue name) (value : String)
    {more : List String} {c d : Cursor} (hc : c.Valid) (hd : d.Valid)
    (hinline : c.rest.map (·.value) = ("--" ++ name ++ "=" ++ value) :: more)
    (hseparate : d.rest.map (·.value) = ("--" ++ name) :: value :: more) (context : Context) :
    let left := (f.around child).parse ⟨c, context⟩
    let right := (f.around child).parse ⟨d, context⟩
    left.reason? = right.reason? ∧ left.state.context = right.state.context ∧
      (left.isOk = true → left.state.cursor.rest.map (·.value) =
        right.state.cursor.rest.map (·.value)) := by
  intro left right
  obtain ⟨a, ts, ha, hword, hts⟩ := List.map_eq_cons_iff.mp hinline
  obtain ⟨b, us, hb, hword', hus⟩ := List.map_eq_cons_iff.mp hseparate
  obtain ⟨effect, heffect⟩ := performs_value htakes value
  let s : State := ⟨c, context⟩
  let t : State := ⟨d, context⟩
  have hs : s.behind.cursor.Valid := hc.behind ha
  have ht : t.behind.cursor.Valid := hd.behind hb
  -- the flag has the same effect in both forms
  have hflag : (f.parseLong name (some value) a s.behind).Agree (f.parseLong name none b t.behind) := by
    refine ((heffect a b).1 s.behind more hs ?_).agree ((heffect a b).2 t.behind more ht ?_)
    · rw [State.behind, Cursor.rest_behind ha]
      exact hts
    · rw [State.behind, Cursor.rest_behind hb]
      exact hus
  have hadvances := fun d hd => (hlong d hd).advances
  have hleft := (advances_parseLong hadvances name (some value) a s.behind hs).cursor.rest.length_le
  have hright := (advances_parseLong hadvances name none b t.behind ht).cursor.rest.length_le
  rw [show s.behind.cursor.rest = ts from Cursor.rest_behind ha] at hleft
  rw [show t.behind.cursor.rest = us from Cursor.rest_behind hb] at hright
  have hscan : f.scan c.remaining s =
      f.scanAfter ts.length (f.parseLong name (some value) a s.behind) := by
    rw [Cursor.remaining_eq, ha, List.length_cons, scan_of_rest_cons _ ha, hword,
      FlagWord.ofText_inline hequals]
  have hscan' : f.scan d.remaining t = f.scanAfter us.length (f.parseLong name none b t.behind) := by
    rw [Cursor.remaining_eq, hb, List.length_cons, scan_of_rest_cons _ hb, hword',
      FlagWord.ofText_name hname hequals]
  have hlater := agree_scanAfter (fun d hd => (hshort d hd).uniform)
    (fun d hd => (hlong d hd).uniform) hflag hleft hright
  rw [← hscan, ← hscan'] at hlater
  have hagree : left.Agree right := agree_parse hchild.uniform hlater.1 hlater.2
  exact ⟨hagree.reason?_eq, hagree.context_eq, hagree.values⟩

open Element in
/-- The value looks like a flag and holds an equals sign itself. -/
theorem parse_inline_or_separate_flaglike :
    let f : Flags := { long := [("out", string "out")] }
    let inline := [⟨"--Out=-x=1", 0, 10⟩, ⟨"p", 11, 12⟩, ⟨"q", 13, 14⟩]
    let separate := [⟨"--Out", 0, 5⟩, ⟨"-x=1", 6, 10⟩, ⟨"p", 11, 12⟩, ⟨"q", 13, 14⟩]
    let left := (f.around (string "p")).parse ⟨.ofTokens "--Out=-x=1 p q" inline, .empty⟩
    let right := (f.around (string "p")).parse ⟨.ofTokens "--Out -x=1 p q" separate, .empty⟩
    (left.reason? = right.reason? ∧ left.state.context = right.state.context ∧
      (left.isOk = true → left.state.cursor.rest.map (·.value) =
        right.state.cursor.rest.map (·.value))) ∧
      right.state.context.all "out" = [.text "-x=1"] := by
  intro f inline separate left right
  have hlong : ∀ d ∈ f.long, d.2.Built false := by
    simp only [f, List.forall_mem_cons, List.not_mem_nil, false_implies, implies_true, and_true]
    exact .token (.string "out")
  have htakes : f.TakesValue "Out" := .inl ⟨string "out", rfl, .string "out"⟩
  have hshort : ∀ d ∈ f.short, d.2.Built false := by simp [f]
  exact ⟨parse_inline_or_separate hshort hlong (.token (.string "p")) (by decide) (by decide) htakes
    "-x=1" (Cursor.valid_ofTokens _ _) (Cursor.valid_ofTokens _ _) rfl rfl .empty, by decide +kernel⟩

/-! ## Values that are left over -/

/-- Where the scan of `s` reads a value behind an equals sign for a flag with a definition, the element
of the flag leaves nothing of it. -/
def KeepsInline (f : Flags) (s : State) : Prop :=
  ∀ ps u t name value e, f.Meets s ps u t → FlagWord.ofText t.value = .long name (some value) →
    f.long? name = some e →
    (e.parse ⟨inlineCursor u.behind.cursor t value, u.context⟩).state.cursor.rest = []

theorem parseLong_defined {name : String} {e : Element} (h : f.long? name = some e) (t : Token)
    (s : State) : f.parseLong name none t s = e.parse s ∧ ∀ value,
      f.parseLong name (some value) t s =
        onCursor s.cursor (e.parse ⟨inlineCursor s.cursor t value, s.context⟩) := by
  unfold parseLong
  rw [h]
  exact ⟨rfl, fun value => rfl⟩

/-- **What becomes of a value behind an equals sign.** In a parse that succeeds, the element of the flag
has succeeded on the value alone. An element that takes a token has it all; a plain flag leaves it, and
does the same as without it. -/
theorem inline_value_read {f : Flags} {child : Element} (hshort : ∀ d ∈ f.short, d.2.Built true)
    (hlong : ∀ d ∈ f.long, d.2.Built true) {s s' u : State} (hs : s.cursor.Valid)
    (hparse : (f.around child).parse s = .ok s') {ps : List Token} {t : Token}
    (hmeets : f.Meets s ps u t) {name value : String}
    (hword : FlagWord.ofText t.value = .long name (some value)) {e : Element}
    (hdef : f.long? name = some e) :
    ∃ v, e.parse ⟨inlineCursor u.behind.cursor t value, u.context⟩ = .ok v ∧
      f.parseLong name (some value) t u.behind = .ok ⟨u.behind.cursor, v.context⟩ ∧
      (e.Consuming → v.cursor.rest = []) ∧
      ∀ key, e = .markTrue key → v.cursor.rest.map (·.value) = [value] ∧
        f.parseLong name none t u.behind = .ok ⟨u.behind.cursor, v.context⟩ := by
  have hadvances := fun d hd => (hshort d hd).advances
  have hadvances' := fun d hd => (hlong d hd).advances
  obtain ⟨⟨n, hn⟩, hhead⟩ := hmeets
  obtain ⟨ts, hrest⟩ := List.head?_eq_some_iff.mp hhead
  -- the flag is read in a round of the scan that succeeds
  have hgoes : ¬ f.Stops u := fun hstops => by
    cases hword.symm.trans (hstops t ts hrest).2
  obtain ⟨m, hm⟩ := exists_remaining hadvances hadvances' hs hn hgoes
  have hnone := (parseLong_defined hdef t u.behind).1
  have hinline : f.parseLong name (some value) t u.behind =
      onCursor u.behind.cursor (e.parse ⟨inlineCursor u.behind.cursor t value, u.context⟩) :=
    (parseLong_defined hdef t u.behind).2 value
  obtain ⟨w, hscan, -⟩ := Outcome.of_andThen_ok hparse
  rw [hm, scan_add hn, scan_of_rest_cons m hrest, hword] at hscan
  dsimp only at hscan
  rw [hinline] at hscan ⊢
  cases hread : e.parse ⟨inlineCursor u.behind.cursor t value, u.context⟩ with
  | failed err v => simp [hread, onCursor, scanAfter] at hscan
  | ok v =>
    have hvalues := values_inlineCursor u.behind.cursor t value
    refine ⟨v, rfl, rfl, fun hconsuming => ?_, ?_⟩
    · have hfewer : v.cursor.rest.length < (inlineCursor u.behind.cursor t value).rest.length :=
        hconsuming.fewer.spot (Cursor.valid_ofTokens _ _) hread
      have hone : (inlineCursor u.behind.cursor t value).rest.length = 1 := by
        simpa using congrArg List.length hvalues
      exact List.eq_nil_of_length_eq_zero (by omega)
    · rintro key rfl
      cases hread
      exact ⟨hvalues, hnone⟩

open Element in
/-- The element of `--out=x` has its value, the element of `--force=no` leaves it. -/
theorem inline_value_read_both :
    let f : Flags := { long := [("out", string "out"), ("force", markTrue "force")] }
    let s : State := ⟨.ofTokens "--out=x --force=no p"
      [⟨"--out=x", 0, 7⟩, ⟨"--force=no", 8, 18⟩, ⟨"p", 19, 20⟩], .empty⟩
    let u := (f.scan 1 s).1.state
    (∃ v, (string "out").parse ⟨inlineCursor s.behind.cursor ⟨"--out=x", 0, 7⟩ "x", s.context⟩ = .ok v ∧
      v.cursor.rest = []) ∧
    ∃ v, (markTrue "force").parse
        ⟨inlineCursor u.behind.cursor ⟨"--force=no", 8, 18⟩ "no", u.context⟩ = .ok v ∧
      v.cursor.rest.map (·.value) = ["no"] := by
  intro f s u
  have hshort : ∀ d ∈ f.short, d.2.Built true := by simp [f]
  have hlong : ∀ d ∈ f.long, d.2.Built true := by
    simp only [f, List.forall_mem_cons, List.not_mem_nil, false_implies, implies_true, and_true]
    exact ⟨.token (.string "out"), .markTrue "force"⟩
  have hs : s.cursor.Valid := Cursor.valid_ofTokens _ _
  have hparse : (f.around (string "p")).parse s = .ok ((f.around (string "p")).parse s).state := rfl
  obtain ⟨v, hv, -, htaken, -⟩ := inline_value_read hshort hlong hs hparse
    (meets_of_rest_cons rfl : f.Meets s [] s ⟨"--out=x", 0, 7⟩)
    (by decide : FlagWord.ofText "--out=x" = .long "out" (some "x")) rfl
  obtain ⟨w, hw, -, -, hdropped⟩ := inline_value_read hshort hlong hs hparse
    (⟨⟨1, rfl⟩, rfl⟩ : f.Meets s [] u ⟨"--force=no", 8, 18⟩)
    (by decide : FlagWord.ofText "--force=no" = .long "force" (some "no")) rfl
  exact ⟨⟨v, hv, htaken (.token (.string "out"))⟩, w, hw, (hdropped "force" rfl).1⟩

open Element in
/-- A plain flag accepts a value and drops it, although flags without a definition are rejected: the line
`--force=false` turns the flag on. -/
theorem inline_value_dropped :
    let f : Flags := ({} : Flags).flag ["-force"]
    let s : State := ⟨.ofTokens "--force=false" [⟨"--force=false", 0, 13⟩], .empty⟩
    f.unknownLong = .reject ∧ ((f.around .none).parse s).isOk = true ∧
      ((f.around .none).parse s).state.context.all "force" = [.bool true] ∧ ¬ f.KeepsInline s := by
  intro f s
  refine ⟨rfl, by decide +kernel, by decide +kernel, fun hkeeps => ?_⟩
  have hrest := hkeeps [] s ⟨"--force=false", 0, 13⟩ "force" "false" (markTrue "force")
    (meets_of_rest_cons rfl) (by decide) rfl
  exact absurd hrest (by decide +kernel)

end Flags

end ArgGrammar
