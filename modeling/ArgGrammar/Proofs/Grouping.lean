import ArgGrammar.Proofs.Agreement

/-!
# Groups of flags of one character

Flags of one character may share a token: `-abc` stands for `-a`, `-b` and `-c`. A scan handles the
group in one round and the separate flags in several, and comes to the same.

* `FlagWord.shortText`: how a group is written.
* `Flags.Bare`: a flag that reads no token. All flags of a group but the last one have to be bare, since
  a flag that reads tokens finds the next flag there if they stand apart.
* `Flags.scan_separate`: the scan of the separate flags, one after another.
* `Flags.parse_grouped_or_separate`: so they may be grouped in front of any tokens.
-/

namespace ArgGrammar

namespace FlagWord

/-- Flags of one character in one token. -/
def shortText (group : List Char) : String := String.ofList ('-' :: group)

theorem ofText_shortText {c : Char} (h : c ≠ '-') (cs : List Char) :
    ofText (shortText (c :: cs)) = .short (c :: cs) := by
  rw [ofText, shortText, String.toList_ofList]
  split
  · next heq => exact absurd (List.cons.inj (List.cons.inj heq).2).1 h
  · next heq => exact absurd (List.cons.inj (List.cons.inj heq).2).1 h
  · next heq =>
    obtain ⟨rfl, rfl⟩ := List.cons.inj (List.cons.inj heq).2
    rfl
  · next hshort => exact absurd rfl (hshort c cs)

end FlagWord

open FlagWord (shortText ofText_shortText)

theorem Performed.both {more more' : List String} {r : Context × Option Complaint} {o p : Outcome}
    (ho : Performed more r o) (hp : Performed more' r p) :
    (∃ c d context, o = .ok ⟨c, context⟩ ∧ p = .ok ⟨d, context⟩ ∧ c.Valid ∧ d.Valid ∧
      c.rest.map (·.value) = more ∧ d.rest.map (·.value) = more') ∨
    ∃ e s e' t, o = .failed e s ∧ p = .failed e' t ∧ e.complaint = e'.complaint ∧
      s.context = t.context := by
  cases ho with
  | @ok c context hc hrest =>
    cases hp with
    | @ok d _ hd hrest' => exact .inl ⟨c, d, context, rfl, rfl, hc, hd, hrest, hrest'⟩
  | failed e s =>
    generalize hcontext : s.context = context at hp
    generalize hcomplaint : e.complaint = complaint at hp
    cases hp with
    | failed e' t => exact .inr ⟨e, s, e', t, rfl, rfl, hcomplaint, hcontext⟩

namespace Flags

variable {f : Flags}

/-- The flag reads no token: it is plain, or it has no definition and flags without one take no
value. -/
def Bare (f : Flags) (c : Char) : Prop :=
  (∃ key, f.short? c = some (.markTrue key)) ∨ f.short? c = none ∧ f.unknownShort ≠ .acceptValue

theorem performs_bare {c : Char} (h : f.Bare c) : ∃ effect, Performs (f.parseShort c) [] effect := by
  apply performs_parseShort
  rcases h with ⟨key, hdef⟩ | ⟨hdef, hpolicy⟩
  · exact .defined hdef (.plain key)
  · have hreads : f.unknownShort.reads = [].length (α := String) := by
      cases hp : f.unknownShort <;> simp_all [UnknownFlag.reads]
    exact hreads ▸ .unknown hdef

theorem parseGroup_single (c : Char) (s : State) : f.parseGroup [c] s = f.parseShort c s := by
  rw [parseGroup]
  cases f.parseShort c s <;> rfl

/-- The scan after a group, in `s`, goes like the scan of the flags apart, from `t`. The induction is on
the group: its first flag is a step of the group, and takes a round of the scan. -/
theorem scan_separate (hshort : ∀ d ∈ f.short, Uniform false d.2.parse)
    (hlong : ∀ d ∈ f.long, Uniform false d.2.parse) {group : List Char} (hne : group ≠ [])
    (hdash : ∀ c ∈ group, c ≠ '-') (hbare : ∀ c ∈ group.dropLast, f.Bare c) {more : List String}
    {s t : State} (hs : s.cursor.Valid) (ht : t.cursor.Valid) (hcontext : s.context = t.context)
    (hmore : s.cursor.rest.map (·.value) = more)
    (hrest : t.cursor.rest.map (·.value) = group.map (shortText [·]) ++ more) {n m : Nat}
    (hn : more.length ≤ n) (hm : t.cursor.rest.length ≤ m) :
    (f.scanAfter n (f.parseGroup group s)).1.Agree (f.scan m t).1 ∧
      (f.scanAfter n (f.parseGroup group s)).2.map (·.value) = (f.scan m t).2.map (·.value) := by
  induction group generalizing s t m with
  | nil => exact absurd rfl hne
  | cons c cs ih =>
    rw [List.map_cons, List.cons_append] at hrest
    obtain ⟨a, ts, ha, hword, hts⟩ := List.map_eq_cons_iff.mp hrest
    have hbehind : t.behind.cursor.Valid := ht.behind ha
    have hleft : t.behind.cursor.rest = ts := Cursor.rest_behind ha
    obtain ⟨m, rfl⟩ : ∃ k, m = k + 1 := ⟨m - 1, by rw [ha, List.length_cons] at hm; omega⟩
    have hlen : ts.length ≤ m := by simpa [ha] using hm
    have hround : f.scan (m + 1) t = f.scanAfter m (f.parseShort c t.behind) := by
      rw [scan_of_rest_cons m ha, hword, ofText_shortText (hdash c (by simp))]
      exact congrArg (f.scanAfter m) (parseGroup_single c t.behind)
    rw [hround]
    by_cases hcs : cs = []
    · -- the last flag starts in front of the same values on both sides
      subst hcs
      have hsame : s.cursor.rest.map (·.value) = t.behind.cursor.rest.map (·.value) := by
        rw [hleft, hmore]
        exact hts.symm
      have hrun := uniform_parseShort hshort c s t.behind ⟨hs, hbehind, ⟨hsame, nofun⟩, hcontext⟩
      rw [parseGroup_single]
      apply agree_scanAfter hshort hlong hrun.alike.agree
      · refine Nat.le_trans hrun.leadsLeft.cursor.rest.length_le ?_
        rwa [← hmore, List.length_map] at hn
      · exact Nat.le_trans hrun.leadsRight.cursor.rest.length_le (hleft ▸ hlen)
    · rw [List.dropLast_cons_of_ne_nil hcs] at hbare
      obtain ⟨effect, heffect⟩ := performs_bare (hbare c (by simp))
      have hgrouped := heffect s more hs hmore
      have hseparate := heffect t.behind _ hbehind (hleft.symm ▸ hts)
      have hstart : t.behind.context = s.context := hcontext.symm
      rw [hstart] at hseparate
      rw [parseGroup]
      rcases hgrouped.both hseparate with ⟨k, l, context, hk, hl, hkv, hlv, hkrest, hlrest⟩ |
        ⟨e, u, e', v, hu, hv, hcomplaint, hsame⟩
      · rw [hk, hl]
        have hfewer : l.rest.length ≤ m := by
          have hsize : l.rest.length = ts.length := by
            simpa using congrArg List.length (hlrest.trans hts.symm)
          exact hsize ▸ hlen
        exact ih hcs (fun x hx => hdash x (by simp [hx])) (fun x hx => hbare x (by simp [hx]))
          (s := ⟨k, context⟩) (t := ⟨l, context⟩) hkv hlv rfl hkrest hlrest hfewer
      · rw [hu, hv]
        exact ⟨.failed hcomplaint hsame, rfl⟩

/-- **Flags of one character may be grouped.** In a group all flags but the last one read no token; the
last one may read any number of tokens, by flags of its own too. Around a child that does not record
the line as it was written, the group in one token and its flags in a token each give the same outcome
in front of any tokens: success on both or failure on both for the same reason, the same context, and
after a success the same values left. -/
theorem parse_grouped_or_separate {f : Flags} {child : Element}
    (hshort : ∀ d ∈ f.short, d.2.Built false) (hlong : ∀ d ∈ f.long, d.2.Built false)
    (hchild : child.Built false) {group : List Char} (hne : group ≠ [])
    (hdash : ∀ c ∈ group, c ≠ '-') (hbare : ∀ c ∈ group.dropLast, f.Bare c) {more : List String}
    {c d : Cursor} (hc : c.Valid) (hd : d.Valid)
    (hgrouped : c.rest.map (·.value) = shortText group :: more)
    (hseparate : d.rest.map (·.value) = group.map (shortText [·]) ++ more) (context : Context) :
    let left := (f.around child).parse ⟨c, context⟩
    let right := (f.around child).parse ⟨d, context⟩
    left.reason? = right.reason? ∧ left.state.context = right.state.context ∧
      (left.isOk = true → left.state.cursor.rest.map (·.value) =
        right.state.cursor.rest.map (·.value)) := by
  intro left right
  let s : State := ⟨c, context⟩
  let t : State := ⟨d, context⟩
  obtain ⟨a, ts, ha, hword, hts⟩ := List.map_eq_cons_iff.mp hgrouped
  obtain ⟨x, xs, rfl⟩ := List.exists_cons_of_ne_nil hne
  have hmore : s.behind.cursor.rest.map (·.value) = more := by
    rw [State.behind, Cursor.rest_behind ha]
    exact hts
  have hlen : more.length ≤ ts.length := by simp [← hts]
  have hscan : f.scan c.remaining s = f.scanAfter ts.length (f.parseGroup (x :: xs) s.behind) := by
    rw [Cursor.remaining_eq, ha, List.length_cons, scan_of_rest_cons _ ha, hword,
      ofText_shortText (hdash x (by simp))]
  have hscans := scan_separate (fun d hd => (hshort d hd).uniform) (fun d hd => (hlong d hd).uniform)
    hne hdash hbare (s := s.behind) (t := t) (hc.behind ha) hd rfl hmore hseparate hlen
    (Nat.le_of_eq (Cursor.remaining_eq d).symm)
  rw [← hscan] at hscans
  have hagree : left.Agree right := agree_parse hchild.uniform hscans.1 hscans.2
  exact ⟨hagree.reason?_eq, hagree.context_eq, hagree.values⟩

open Element in
/-- A plain flag, one without a definition, and one whose value has a flag of its own: it reads `-z` and
`a` and hands `b` back. -/
theorem parse_grouped_or_separate_nested :
    let inner := ({ short := [('z', markTrue "z")] } : Flags).around (string "w")
    let f : Flags := { short := [('v', markTrue "v"), ('q', inner)], unknownShort := .acceptNonvalue }
    let grouped := [⟨"-vxq", 0, 4⟩, ⟨"-z", 5, 7⟩, ⟨"a", 8, 9⟩, ⟨"b", 10, 11⟩]
    let separate := [⟨"-v", 0, 2⟩, ⟨"-x", 3, 5⟩, ⟨"-q", 6, 8⟩, ⟨"-z", 9, 11⟩, ⟨"a", 12, 13⟩,
      ⟨"b", 14, 15⟩]
    let left := (f.around (string "p")).parse ⟨.ofTokens "-vxq -z a b" grouped, .empty⟩
    let right := (f.around (string "p")).parse ⟨.ofTokens "-v -x -q -z a b" separate, .empty⟩
    (left.reason? = right.reason? ∧ left.state.context = right.state.context ∧
      (left.isOk = true → left.state.cursor.rest.map (·.value) =
        right.state.cursor.rest.map (·.value))) ∧
      left.state.context.keys = ["v", "x", "z", "w", "p"] := by
  intro inner f grouped separate left right
  have hinner : inner.Built false := by
    refine .flags ?_ nofun (.token (.string "w"))
    simp only [List.forall_mem_cons, List.not_mem_nil, false_implies, implies_true, and_true]
    exact .markTrue "z"
  have hshort : ∀ d ∈ f.short, d.2.Built false := by
    simp only [f, List.forall_mem_cons, List.not_mem_nil, false_implies, implies_true, and_true]
    exact ⟨.markTrue "v", hinner⟩
  have hbare : ∀ c ∈ ['v', 'x', 'q'].dropLast, f.Bare c := by
    simp only [List.dropLast, List.forall_mem_cons, List.not_mem_nil, false_implies, implies_true,
      and_true]
    exact ⟨.inl ⟨"v", rfl⟩, .inr ⟨rfl, nofun⟩⟩
  have hdash : ∀ c ∈ ['v', 'x', 'q'], c ≠ '-' := by
    simp only [List.forall_mem_cons, List.not_mem_nil, false_implies, implies_true, and_true]
    decide
  exact ⟨parse_grouped_or_separate hshort nofun (.token (.string "p")) (by decide) hdash hbare
    (Cursor.valid_ofTokens _ _) (Cursor.valid_ofTokens _ _) rfl rfl .empty, by decide +kernel⟩

end Flags

end ArgGrammar
