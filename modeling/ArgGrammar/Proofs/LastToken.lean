import ArgGrammar.Proofs.Placement
import ArgGrammar.Proofs.Places

/-!
# The token that is completed

Completion replaces the last token of a line. An element that offers candidates after others has to
offer them for that token, so the last token has to be left at every place at which a step goes on.

* `Step.Targets found t`: the places at which the step goes on have `t` as their last token.
* `Flags.Spares f t line`: among the tokens of `line`, a scan for flags that collects any positional
  tokens collects the last token `t`.
* `Flags.spares_of_single`: where no flag takes a value behind it, flags spare a positional token.
* `completion_targets_last`: a grammar targets the last token if its unanchored flags spare it, and
  for flags alone this is necessary.

Flags do not spare a last token that is a flag, or the value of one: they hand back the positional
tokens that stand before it, and a step goes on there (`completion_targets_last_flag`).
-/

namespace ArgGrammar

open Cursor (Spot)

/-- At every place at which the step goes on, `t` is the last token that is left. -/
def Step.Targets (found : Step) (t : Token) : Prop :=
  ∀ r ∈ found.resumes, (found.cursor.restore r.position).rest.getLast? = some t

/-- If some tokens of `line` are left and `t` is the last one, a scan that collects positional tokens
collects `t`. -/
def Flags.Spares (f : Flags) (t : Token) (line : List Token) : Prop :=
  ∀ (s s' : State) (positional : List Token), s.cursor.Valid → s.cursor.rest.Sublist line →
    s.cursor.rest.getLast? = some t → f.scan s.cursor.remaining s = (.ok s', positional) →
    positional ≠ [] → positional.getLast? = some t

/-- Unanchored flags spare the token. -/
def Flags.Careful (t : Token) (line : List Token) (f : Flags) (_ : Element) : Prop :=
  f.anchored = false → f.Spares t line

/-! ## What is left behind -/

namespace Cursor.Spot

/-- Nothing comes to what is left of `line`, and if something is left, its last token is still `t`. -/
structure KeepsLast (t : Token) (line : List Token) (a b : Spot) : Prop where
  sublist : b.rest.Sublist a.rest
  last : a.rest.Sublist line → b.rest ≠ [] → a.rest.getLast? = some t → b.rest.getLast? = some t

theorem KeepsLast.trans {t : Token} {line : List Token} {a b c : Spot} (hab : KeepsLast t line a b)
    (hbc : KeepsLast t line b c) : KeepsLast t line a c := by
  refine ⟨hbc.sublist.trans hab.sublist, fun hline hc ha => ?_⟩
  have hb : b.rest ≠ [] := fun hnil => hc (List.sublist_nil.mp (hnil ▸ hbc.sublist))
  exact hbc.last (hab.sublist.trans hline) hc (hab.last hline hb ha)

theorem steady_keepsLast (t : Token) (line : List Token) : Steady (KeepsLast t line) where
  trans := KeepsLast.trans
  forward {v i j ts} hle hj := by
    refine ⟨List.drop_sublist_drop_left ts hle, fun _ hleft hlast => ?_⟩
    have hj : ¬ ts.length ≤ j := mt List.drop_eq_nil_iff.mpr hleft
    have hi : ¬ ts.length ≤ i := by omega
    have hlast : (ts.drop i).getLast? = some t := hlast
    rw [List.getLast?_drop, if_neg hi] at hlast
    show (ts.drop j).getLast? = some t
    rw [List.getLast?_drop, if_neg hj]
    exact hlast

/-- Something that was left is still there, and nothing else. -/
structure Leaves (a b : Spot) : Prop where
  sublist : b.rest.Sublist a.rest
  ne_nil : a.rest ≠ [] → b.rest ≠ []

end Cursor.Spot

open Cursor.Spot (KeepsLast Leaves)

theorem Element.Built.lands_leaves {e : Element} (h : e.Built true) : e.Lands Leaves := by
  apply h.builtWith.lands
  · exact fun a => ⟨.refl _, id⟩
  · exact fun a b c hab hbc => ⟨hbc.sublist.trans hab.sublist, fun ha => hbc.ne_nil (hab.ne_nil ha)⟩
  · intro e s t he hs hparse hleft
    have hleads := he.built.advances s hs
    rw [hparse] at hleads
    exact ⟨hleads.cursor.rest, fun _ => hleft⟩

theorem Element.BuiltWith.along_keepsLast {t : Token} {line : List Token} {e : Element}
    (h : e.BuiltWith (Flags.Careful t line)) : Along (KeepsLast t line) e.parse := by
  apply h.along (Cursor.Spot.steady_keepsLast t line)
  intro f child hcareful hanchored hshort hlong hchild s s' u positional hs hscan hinner hleft view
  have hsub : positional.Sublist s.cursor.rest := by
    have hscanned := (Flags.leads_scan hshort hlong s.cursor.remaining s hs).2
    rwa [hscan] at hscanned
  have hkeeps := hchild.spot (Cursor.valid_ofTokens _ _) hinner
  have hinside : u.cursor.rest.Sublist positional := hkeeps.sublist
  refine ⟨hinside.trans hsub, fun hline _ hlast => ?_⟩
  have hpositional : positional ≠ [] := fun hnil => hleft (List.sublist_nil.mp (hnil ▸ hinside))
  have hspared := hcareful hanchored s s' positional hs hline hlast hscan hpositional
  exact hkeeps.last (hsub.trans hline) hleft hspared

theorem Element.BuiltWith.targets {t : Token} {s : State} {e : Element}
    (h : e.BuiltWith (Flags.Careful t s.cursor.rest)) (hs : s.cursor.Valid)
    (hlast : s.cursor.rest.getLast? = some t) : (e.step s).Targets t := by
  intro r hr
  -- Steps are taken at places that are reached one from another, all within the tokens of `s`.
  have hlands : e.Lands fun a b => a.rest.Sublist s.cursor.rest → b.rest.Sublist s.cursor.rest ∧
      (a.rest.getLast? = some t → b.rest.getLast? = some t) := by
    apply h.lands
    · exact fun a ha => ⟨ha, id⟩
    · intro a b c hab hbc ha
      obtain ⟨hb, hlastb⟩ := hab ha
      obtain ⟨hc, hlastc⟩ := hbc hb
      exact ⟨hc, fun hlasta => hlastc (hlastb hlasta)⟩
    · intro e u v he hu hparse hleft ha
      have hkeeps := he.along_keepsLast.spot hu hparse
      exact ⟨hkeeps.sublist.trans ha, hkeeps.last ha hleft⟩
  obtain ⟨hplace, hspot⟩ := (hlands s hs).resumes r hr
  rw [hplace.rest_restore]
  exact (hspot (.refl _)).2 hlast

/-! ## Flags -/

namespace Flags

variable {f : Flags} {child : Element} {t : Token}

theorem Scans.rest_eq_nil (hanchored : f.anchored = false) {s s' : State} {positional : List Token}
    (h : f.Scans s s' positional) : s'.cursor.rest = [] := by
  induction h with
  | finished hrest => exact hrest
  | stopped hstop => exact absurd hstop (by simp [hanchored])
  | positional _ _ _ _ ih => exact ih
  | long _ _ _ _ ih => exact ih
  | short _ _ _ _ ih => exact ih

theorem targets_positional (hanchored : f.anchored = false)
    (hshort : ∀ d ∈ f.short, Advances d.2.parse) (hlong : ∀ d ∈ f.long, Advances d.2.parse)
    {s s' : State} {positional : List Token} (hchild : Along (KeepsLast t positional) child.parse)
    (hs : s.cursor.Valid) (hscan : f.scan s.cursor.remaining s = (.ok s', positional))
    (hlast : positional.getLast? = some t) : ((f.around child).step s).Targets t := by
  have hlands : ((f.around child).step s).Lands (fun _ b => b.rest.getLast? = some t) s := by
    apply lands_step
    apply Step.lands_speculate (advances_parse hshort hlong hchild.advances) _ hs
    intro u hparse hleft
    obtain ⟨s₁, positional₁, hscan₁, hends⟩ := parse_ok hparse
    obtain ⟨rfl, rfl⟩ : s₁ = s' ∧ positional₁ = positional := by
      simpa using hscan₁.symm.trans hscan
    have hend := (scans_remaining hshort hlong hs hscan).rest_eq_nil hanchored
    rcases hends with ⟨hstop, -⟩ | ⟨-, v, hinner, ⟨-, hcursor⟩ | ⟨hback, hcursor⟩⟩
    · exact absurd hstop (by simp [hanchored])
    · exact absurd hend (hcursor ▸ hleft)
    · rw [Cursor.rest_spot, hcursor, Cursor.rest_splice]
      have hkeeps := hchild.spot (Cursor.valid_ofTokens _ _) hinner
      exact hkeeps.last (.refl _) hback hlast
  intro r hr
  obtain ⟨hplace, hspot⟩ := hlands.resumes r hr
  rw [hplace.rest_restore]
  exact hspot

theorem getLast?_of_targets (hanchored : f.anchored = false) {s s' : State}
    {positional : List Token} (hscan : f.scan s.cursor.remaining s = (.ok s', positional))
    (hpositional : positional ≠ []) (h : ((f.around .none).step s).Targets t) :
    positional.getLast? = some t := by
  have hrest := Cursor.rest_splice s'.cursor s.cursor.position positional
  have hplace := (Cursor.valid_splice s'.cursor s.cursor.position positional).holds
  have hparse := parse_none hanchored hscan hpositional
  generalize s'.cursor.splice s.cursor.position positional = back at hrest hplace hparse
  have hleft : back.rest ≠ [] := by rwa [hrest]
  simp only [Step.Targets, around, resumes_step, cursor_step, Step.speculate_of_ok _ hparse hleft,
    Step.resume] at h
  have hthere := h _ (List.mem_singleton.mpr rfl)
  rw [(Cursor.holds_restore hplace).rest_restore, Cursor.spotAt_restore] at hthere
  exact hrest ▸ hthere

/-! ### Flags that take no values behind them -/

theorem Takes.cases_zero {definition : Option Element} {policy : UnknownFlag}
    (h : Takes definition policy 0) :
    (∃ key, definition = some (.markTrue key)) ∨ (definition = none ∧ policy ≠ .acceptValue) := by
  generalize hn : 0 = n at h
  cases h with
  | defined hdef hreads =>
    cases hreads with
    | plain key => exact .inl ⟨key, hdef⟩
    | value => cases hn
  | unknown hdef =>
    refine .inr ⟨hdef, ?_⟩
    rintro rfl
    cases hn

theorem cursor_parseLong {name : String} {inline : Option String} {a : Token}
    (hnone : inline = none → Takes (f.long? name) f.unknownLong 0) {s u : State}
    (h : f.parseLong name inline a s = .ok u) : u.cursor = s.cursor := by
  cases inline with
  | none =>
    unfold parseLong at h
    rcases (hnone rfl).cases_zero with ⟨key, hdef⟩ | ⟨hdef, hpolicy⟩
    · rw [hdef] at h
      cases h
      rfl
    · rw [hdef] at h
      cases hunknown : f.unknownLong <;> simp only [hunknown] at h
      · cases h
      · cases h; rfl
      · cases h; rfl
      · exact absurd hunknown hpolicy
  | some value =>
    unfold parseLong at h
    cases hdef : f.long? name with
    | some e =>
      simp only [hdef] at h
      cases hvalue : e.parse ⟨inlineCursor s.cursor a value, s.context⟩ with
      | ok v =>
        rw [hvalue] at h
        cases h
        rfl
      | failed err v =>
        rw [hvalue] at h
        cases h
    | none =>
      simp only [hdef] at h
      cases hunknown : f.unknownLong <;> simp only [hunknown] at h
      · cases h
      · cases h; rfl
      · cases h; rfl
      · cases h; rfl

theorem cursor_parseShort {c : Char} (hc : Takes (f.short? c) f.unknownShort 0) {s u : State}
    (h : f.parseShort c s = .ok u) : u.cursor = s.cursor := by
  unfold parseShort at h
  rcases hc.cases_zero with ⟨key, hdef⟩ | ⟨hdef, hpolicy⟩
  · rw [hdef] at h
    cases h
    rfl
  · rw [hdef] at h
    cases hunknown : f.unknownShort <;> simp only [hunknown] at h
    · cases h
    · cases h; rfl
    · cases h; rfl
    · exact absurd hunknown hpolicy

theorem cursor_parseGroup {group : List Char} {n : Nat} (hgroup : GroupTakes f group n) (hn : n = 0)
    {s u : State} (h : f.parseGroup group s = .ok u) : u.cursor = s.cursor := by
  induction hgroup generalizing s with
  | nil =>
    cases h
    rfl
  | @cons c cs n m hc _ ih =>
    obtain ⟨rfl, rfl⟩ : n = 0 ∧ m = 0 := by omega
    rw [parseGroup] at h
    cases hfirst : f.parseShort c s with
    | failed e v => simp [hfirst, Outcome.andThen] at h
    | ok v =>
      simp only [hfirst, Outcome.andThen] at h
      exact (ih rfl h).trans (cursor_parseShort hc hfirst)

theorem Group.cursor_parseLong {word name : String} {inline : Option String} {a : Token}
    (hgroup : f.Group [word]) (hword : FlagWord.ofText word = .long name inline) {s u : State}
    (h : f.parseLong name inline a s = .ok u) : u.cursor = s.cursor := by
  refine Flags.cursor_parseLong (fun hnone => ?_) h
  subst hnone
  cases hgroup with
  | long hlong hn =>
    obtain ⟨rfl, -⟩ := FlagWord.long.inj (hword.symm.trans hlong)
    exact hn
  | inline hinline => simp [hword] at hinline
  | short hshort => simp [hword] at hshort

theorem Group.cursor_parseGroup {word : String} {group : List Char} (hgroup : f.Group [word])
    (hword : FlagWord.ofText word = .short group) {s u : State} (h : f.parseGroup group s = .ok u) :
    u.cursor = s.cursor := by
  cases hgroup with
  | long hlong => simp [hword] at hlong
  | inline hinline => simp [hword] at hinline
  | short hshort hn =>
    obtain rfl := FlagWord.short.inj (hword.symm.trans hshort)
    exact Flags.cursor_parseGroup hn rfl h

theorem getLast?_cons_cases {a : Token} {ts : List Token} (h : (a :: ts).getLast? = some t) :
    (ts = [] ∧ a = t) ∨ ts.getLast? = some t := by
  cases ts with
  | nil => exact .inl ⟨rfl, by simpa using h⟩
  | cons b bs => exact .inr (by simpa [List.getLast?_cons_cons] using h)

theorem Scans.positional_eq_nil {s s' : State} {positional : List Token}
    (h : f.Scans s s' positional) (hrest : s.cursor.rest = []) : positional = [] := by
  cases h with
  | finished => rfl
  | stopped => rfl
  | positional _ hcons => simp [hrest] at hcons
  | long hcons => simp [hrest] at hcons
  | short hcons => simp [hrest] at hcons

/-- The token is positional, or holds flags that take no values behind it. -/
def Single (f : Flags) (a : Token) : Prop :=
  FlagWord.ofText a.value = .positional ∨ f.Group [a.value]

/-- If all flags are tokens of their own, a scan comes to the last token and collects it. -/
theorem Scans.getLast?_positional (hanchored : f.anchored = false)
    (ht : FlagWord.ofText t.value = .positional) {s s' : State} {positional : List Token}
    (h : f.Scans s s' positional) (hlast : s.cursor.rest.getLast? = some t)
    (hsingle : ∀ a ∈ s.cursor.rest, f.Single a) : positional.getLast? = some t := by
  -- A flag is not the last token, so the last token is still left behind it.
  have hread : ∀ {s u : State} {a : Token} {ts : List Token}, s.cursor.rest = a :: ts →
      FlagWord.ofText a.value ≠ .positional → (f.Group [a.value] → u.cursor = s.behind.cursor) →
      s.cursor.rest.getLast? = some t → (∀ b ∈ s.cursor.rest, f.Single b) →
      u.cursor.rest.getLast? = some t ∧ ∀ b ∈ u.cursor.rest, f.Single b := by
    intro s u a ts hrest hword hgroup hlast hsingle
    rw [hrest] at hlast hsingle
    have hleft : u.cursor.rest = ts := by
      rw [hgroup ((hsingle a (by simp)).resolve_left hword)]
      exact Cursor.rest_behind hrest
    rw [hleft]
    refine ⟨?_, fun b hb => hsingle b (by simp [hb])⟩
    rcases getLast?_cons_cases hlast with ⟨-, rfl⟩ | hlater
    · exact absurd ht hword
    · exact hlater
  induction h with
  | finished hrest => simp [hrest] at hlast
  | stopped hstop => exact absurd hstop (by simp [hanchored])
  | @positional s s' a ts positional _ hrest _ hgo ih =>
    have hbehind : s.behind.cursor.rest = ts := Cursor.rest_behind hrest
    rw [hrest] at hlast hsingle
    rcases getLast?_cons_cases hlast with ⟨hnil, rfl⟩ | hlater
    · rw [hgo.positional_eq_nil (hbehind.trans hnil)]
      rfl
    · have hfound := ih (hbehind ▸ hlater) (hbehind ▸ fun b hb => hsingle b (by simp [hb]))
      rw [List.getLast?_cons, hfound]
      rfl
  | long hrest hword hflag _ ih =>
    obtain ⟨hlast', hsingle'⟩ := hread hrest (by simp [hword])
      (fun hgroup => hgroup.cursor_parseLong hword hflag) hlast hsingle
    exact ih hlast' hsingle'
  | short hrest hword hflag _ ih =>
    obtain ⟨hlast', hsingle'⟩ := hread hrest (by simp [hword])
      (fun hgroup => hgroup.cursor_parseGroup hword hflag) hlast hsingle
    exact ih hlast' hsingle'

theorem spares_of_single (hanchored : f.anchored = false)
    (hshort : ∀ d ∈ f.short, Advances d.2.parse) (hlong : ∀ d ∈ f.long, Advances d.2.parse)
    {line : List Token} (hline : ∀ a ∈ line, f.Single a)
    (ht : FlagWord.ofText t.value = .positional) : f.Spares t line := by
  intro s s' positional hs hsub hlast hscan _
  have hscans := scans_remaining hshort hlong hs hscan
  exact hscans.getLast?_positional hanchored ht hlast fun a ha => hline a (hsub.subset ha)

end Flags

/-! ## Grammars -/

/-- **Completion targets the last token, unless flags take it.** Wherever a step goes on, something is
left of what was left. It ends with the last token `t` of the start if all unanchored flags of the
grammar spare `t`. The places where flags go on end with the last positional token that they have
collected, whether this is `t` or not; with no element behind the flags, it has to be `t`. -/
theorem completion_targets_last {s : State} (hs : s.cursor.Valid) {t : Token}
    (hlast : s.cursor.rest.getLast? = some t) :
    (∀ {e : Element}, e.Built true → ∀ r ∈ (e.step s).resumes,
      ((e.step s).cursor.restore r.position).rest ≠ [] ∧
        ((e.step s).cursor.restore r.position).rest.Sublist s.cursor.rest) ∧
    (∀ {e : Element}, e.BuiltWith (Flags.Careful t s.cursor.rest) → (e.step s).Targets t) ∧
    ∀ {f : Flags}, f.anchored = false → (∀ d ∈ f.short, d.2.Built true) →
      (∀ d ∈ f.long, d.2.Built true) → ∀ {s' : State} {positional : List Token},
      f.scan s.cursor.remaining s = (.ok s', positional) →
      (∀ {child : Element} {p : Token}, child.BuiltWith (Flags.Careful p positional) →
        positional.getLast? = some p → ((f.around child).step s).Targets p) ∧
      (positional ≠ [] → ((f.around .none).step s).Targets t → positional.getLast? = some t) := by
  have hrest : s.cursor.rest ≠ [] := by
    intro hnil
    simp [hnil] at hlast
  refine ⟨?_, fun he => he.targets hs hlast, ?_⟩
  · intro e he r hr
    obtain ⟨hplace, hspot⟩ := (he.lands_leaves s hs).resumes r hr
    rw [hplace.rest_restore]
    exact ⟨hspot.ne_nil hrest, hspot.sublist⟩
  · intro f hanchored hshort hlong s' positional hscan
    refine ⟨fun hchild hp => ?_, Flags.getLast?_of_targets hanchored hscan⟩
    exact Flags.targets_positional hanchored (fun d hd => (hshort d hd).advances)
      (fun d hd => (hlong d hd).advances) hchild.along_keepsLast hs hscan hp

open Element in
/-- Flags in front of the last token, one of them with its value behind an equals sign: `a` and `ab`
are handed back, and the next element is completed at `ab`. -/
theorem completion_targets_last_single :
    let f : Flags := { short := [('x', markTrue "x")], long := [("out", string "out")] }
    let e := seq [f.around .none, string "k"]
    let s : State := ⟨.ofTokens "a -x --out=1 ab"
      [⟨"a", 0, 1⟩, ⟨"-x", 2, 4⟩, ⟨"--out=1", 5, 12⟩, ⟨"ab", 13, 15⟩], .empty⟩
    (e.step s).resumes.length = 1 ∧ (e.step s).Targets ⟨"ab", 13, 15⟩ := by
  intro f e s
  have hshort : ∀ d ∈ f.short, d.2.BuiltWith (Flags.Careful ⟨"ab", 13, 15⟩ s.cursor.rest) := by
    simp only [f, List.forall_mem_cons, List.not_mem_nil, false_implies, implies_true, and_true]
    exact .markTrue "x"
  have hlong : ∀ d ∈ f.long, d.2.BuiltWith (Flags.Careful ⟨"ab", 13, 15⟩ s.cursor.rest) := by
    simp only [f, List.forall_mem_cons, List.not_mem_nil, false_implies, implies_true, and_true]
    exact .token (.string "out")
  have hline : ∀ a ∈ s.cursor.rest, f.Single a := by
    have hrest : s.cursor.rest =
        [⟨"a", 0, 1⟩, ⟨"-x", 2, 4⟩, ⟨"--out=1", 5, 12⟩, ⟨"ab", 13, 15⟩] := rfl
    simp only [hrest, List.forall_mem_cons, List.not_mem_nil, false_implies, implies_true, and_true]
    have hx : FlagWord.ofText "-x" = .short ['x'] := by decide
    have hout : FlagWord.ofText "--out=1" = .long "out" (some "1") := by decide
    refine ⟨.inl (by decide), .inr (.short hx ?_), .inr (.inline hout), .inl (by decide)⟩
    exact .cons (.defined rfl (.plain "x")) .nil
  have hspares : f.Spares ⟨"ab", 13, 15⟩ s.cursor.rest :=
    Flags.spares_of_single rfl (fun d hd => (hshort d hd).built.advances)
      (fun d hd => (hlong d hd).built.advances) hline (by decide)
  have he : e.BuiltWith (Flags.Careful ⟨"ab", 13, 15⟩ s.cursor.rest) := by
    refine .seq ?_
    simp only [List.forall_mem_cons, List.not_mem_nil, false_implies, implies_true, and_true]
    exact ⟨.flags (fun _ => hspares) hshort hlong .none, .token (.string "k")⟩
  have htargets := (completion_targets_last (s := s) (Cursor.valid_ofTokens _ _) rfl).2.1 he
  exact ⟨by decide +kernel, htargets⟩

open Element in
/-- The last token is the flag itself: the step goes on at `a` alone, so a word is offered for `a`
that replaces the flag, and the line with that word does not parse. -/
theorem completion_targets_last_flag :
    let f : Flags := { short := [('x', markTrue "x")] }
    let s : State := ⟨.ofTokens "a -x" [⟨"a", 0, 1⟩, ⟨"-x", 2, 4⟩], .empty⟩
    let p : Parser := ⟨seq [f.around .none, choices "c" [("abc", .int 1)]], .lenientQuoted⟩
    s.cursor.rest.getLast? = some ⟨"-x", 2, 4⟩ ∧
      ((f.around .none).step s).resumes.map
        (fun r => (((f.around .none).step s).cursor.restore r.position).rest) = [[⟨"a", 0, 1⟩]] ∧
      p.completeLine "a -x" 4 = (2, ["abc"]) ∧
      (p.parse (Text.upTo 2 "a -x" ++ "abc")).isOk = false := by
  intro f s p
  exact ⟨rfl, by decide +kernel, by decide +kernel, by decide +kernel⟩

end ArgGrammar
