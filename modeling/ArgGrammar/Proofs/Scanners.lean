import ArgGrammar.Proofs.Blind
import ArgGrammar.Proofs.Commitment
import ArgGrammar.Proofs.LastToken
import ArgGrammar.Proofs.Rounds

/-!
# Completing reads the flags that parsing reads

Flags are scanned once for parsing and once for completing. The two scans are different programs: the
one records values and stops at the first complaint, the other looks for the token to complete. As
long as tokens are left they go through the same places.

* `Flags.going_parseLong`, `going_parseShort`, `going_parseGroup`: a flag that parsing accepts, with
  tokens left behind it, is passed over by completing, which then goes on at the same place.
* `Flags.completeScan_round`, `completeScan_rounds`: one round, and any number of rounds.
* `Flags.complete_positional`: where the last token is positional, the child completes it among the
  tokens that parsing gives to the child.
-/

namespace ArgGrammar.Flags

variable {f : Flags} {s t u : State}

/-! ## Passing over a flag -/

theorem going_completeValue {e : Element} (he : Framing false e.parse) (h : s.Framed false [] t)
    (hok : e.parse s = .ok u) (hleft : u.cursor.rest ≠ []) :
    ∃ w, completeValue e t = .going w ∧ u.Framed false [] w := by
  have htrial := he [] s t h
  rw [hok] at htrial
  unfold completeValue
  generalize e.parse t = o at htrial ⊢
  cases htrial with
  | @ok _ w hw =>
    refine ⟨w, ?_, hw⟩
    simp only [Outcome.isOk, Outcome.state, hw.hasNext_of_rest hleft, Bool.and_self, if_true]

/-- What a flag without a definition reads: a token if it takes a value, and nothing otherwise. -/
def Skips (policy : UnknownFlag) (c d : Cursor) : Prop :=
  policy ≠ .acceptValue ∧ d = c ∨
    policy = .acceptValue ∧ ∃ a ts, c.rest = a :: ts ∧ d = c.behind

theorem skips_string {name : String} (h : (Element.string name).parse s = .ok u) :
    Skips .acceptValue s.cursor u.cursor := by
  cases hrest : s.cursor.rest with
  | nil =>
    rw [Element.string, Element.parse_leaf_of_rest_nil hrest] at h
    cases h
  | cons a ts =>
    rw [Element.string, Reader.text, Element.parse_leaf_of_rest_cons hrest] at h
    cases h
    exact .inr ⟨rfl, a, ts, hrest, rfl⟩

theorem skips_parseShort {c : Char} (hdef : f.short? c = none) (h : f.parseShort c s = .ok u) :
    Skips f.unknownShort s.cursor u.cursor := by
  unfold parseShort at h
  rw [hdef] at h
  dsimp only at h
  split at h
  · cases h
  · next hpolicy => cases h; exact .inl ⟨by simp [hpolicy], rfl⟩
  · next hpolicy => cases h; exact .inl ⟨by simp [hpolicy], rfl⟩
  · next hpolicy => rw [hpolicy]; exact skips_string h

theorem skips_parseLong {name : String} {a : Token} (hdef : f.long? name = none)
    (h : f.parseLong name none a s = .ok u) : Skips f.unknownLong s.cursor u.cursor := by
  unfold parseLong at h
  rw [hdef] at h
  cases hpolicy : f.unknownLong with
  | reject => simp [hpolicy] at h
  | ignore => simp [hpolicy] at h; subst h; exact .inl ⟨nofun, rfl⟩
  | acceptNonvalue => simp [hpolicy] at h; subst h; exact .inl ⟨nofun, rfl⟩
  | acceptValue => simp [hpolicy] at h; exact skips_string h

theorem going_skipValue {policy : UnknownFlag} (h : s.Framed false [] t)
    (hskips : Skips policy s.cursor u.cursor) (hleft : u.cursor.rest ≠ []) :
    ∃ w, skipValue policy t = .going w ∧ u.Framed false [] w := by
  obtain ⟨hpolicy, hsame⟩ | ⟨rfl, a, ts, hrest, hbehind⟩ := hskips
  · refine ⟨t, ?_, hsame ▸ h.valid, by rw [hsame]; exact h.cursor, nofun⟩
    cases policy with
    | acceptValue => exact absurd rfl hpolicy
    | reject => rfl
    | ignore => rfl
    | acceptNonvalue => rfl
  · have hstep := h.behind hrest
    rw [hbehind] at hleft
    have hnext : t.cursor.behind.hasNext = true := hstep.hasNext_of_rest hleft
    refine ⟨t.behind, ?_, hbehind ▸ hstep.valid, by rw [hbehind]; exact hstep.cursor, nofun⟩
    simp only [skipValue, Cursor.next?_of_rest_cons (h.rest.trans hrest), hnext, if_true]
    rfl

variable (hshort : ∀ d ∈ f.short, d.2.Unlimited) (hlong : ∀ d ∈ f.long, d.2.Unlimited)

include hshort in
theorem going_parseShort {c : Char} (h : s.Framed false [] t) (hok : f.parseShort c s = .ok u)
    (hleft : u.cursor.rest ≠ []) :
    ∃ w, passValue (f.short? c) f.unknownShort t = .going w ∧ u.Framed false [] w := by
  cases hdef : f.short? c with
  | some e =>
    have he := blind_short? (fun d hd => (hshort d hd).blind) c e hdef
    unfold parseShort at hok
    rw [hdef] at hok
    exact going_completeValue he.parse h hok hleft
  | none => exact going_skipValue h (skips_parseShort hdef hok) hleft

include hlong in
theorem going_parseLong {name : String} {a : Token} (h : s.Framed false [] t)
    (hok : f.parseLong name none a s = .ok u) (hleft : u.cursor.rest ≠ []) :
    ∃ w, passValue (f.long? name) f.unknownLong t = .going w ∧ u.Framed false [] w := by
  cases hdef : f.long? name with
  | some e =>
    have he := blind_long? (fun d hd => (hlong d hd).blind) name e hdef
    unfold parseLong at hok
    rw [hdef] at hok
    exact going_completeValue he.parse h hok hleft
  | none => exact going_skipValue h (skips_parseLong hdef hok) hleft

include hshort in
theorem going_parseGroup {group : List Char} (h : s.Framed false [] t)
    (hok : f.parseGroup group s = .ok u) (hleft : u.cursor.rest ≠ []) :
    ∃ w, f.completeGroup group t = .going w ∧ u.Framed false [] w := by
  have hadvances := fun d hd => (hshort d hd).built.advances
  induction group generalizing s t with
  | nil =>
    cases hok
    exact ⟨t, rfl, h⟩
  | cons c cs ih =>
    obtain ⟨v, hfirst, hothers⟩ := Outcome.of_andThen_ok hok
    have hv := (advances_parseShort hadvances c).leads h.valid hfirst
    have hmiddle := (advances_parseGroup hadvances cs).leads hv.cursor.valid hothers
    obtain ⟨v', hgoing, hframed⟩ :=
      going_parseShort hshort h hfirst (hmiddle.rest_ne_nil hleft)
    rw [completeGroup_cons, hgoing]
    exact ih hframed hothers

/-! ## Rounds -/

include hshort hlong in
/-- A round of the scan for parsing that leaves tokens is a round of the scan for completing. -/
theorem completeScan_round (child : Element) (hanchored : f.anchored = false) {ps : List Token}
    (hround : f.Round s ps u) (hleft : u.cursor.rest ≠ []) (h : s.Framed false [] t) :
    ∃ w, u.Framed false [] w ∧ ∀ n positional,
      f.completeScan child (n + 1) positional t = f.completeScan child n (positional ++ ps) w := by
  have hmiddle : s.behind.cursor.rest ≠ [] :=
    (hround.leads_behind (fun d hd => (hshort d hd).built.advances)
      (fun d hd => (hlong d hd).built.advances) h.valid).rest_ne_nil hleft
  cases hround with
  | @positional a ts _ hrest hword =>
    have hbehind := h.behind hrest
    refine ⟨t.behind, hbehind, fun n positional => ?_⟩
    rw [completeScan_of_rest_cons n _ (h.rest.trans hrest), hword]
    simp only [hbehind.hasNext_of_rest hmiddle, hanchored, Bool.not_true, Bool.false_and,
      Bool.false_eq_true, if_false]
  | @long a ts name inline _ hrest hword hflag =>
    have hbehind := h.behind hrest
    cases inline with
    | none =>
      obtain ⟨w, hgoing, hw⟩ := going_parseLong hlong hbehind hflag hleft
      refine ⟨w, hw, fun n positional => ?_⟩
      rw [completeScan_of_rest_cons n _ (h.rest.trans hrest), hword, List.append_nil]
      simp only [hbehind.hasNext_of_rest hmiddle, if_true, hgoing]
      rfl
    | some value =>
      -- parsing reads the value off a cursor of its own, completing does not read it
      have hsame : u.cursor = s.behind.cursor := by
        refine cursor_parseLong ?_ hflag
        nofun
      refine ⟨t.behind, ⟨hsame ▸ hbehind.valid, by rw [hsame]; exact hbehind.cursor, nofun⟩,
        fun n positional => ?_⟩
      rw [completeScan_of_rest_cons n _ (h.rest.trans hrest), hword, List.append_nil]
      simp only [hbehind.hasNext_of_rest hmiddle, if_true]
  | @short a ts group _ hrest hword hflag =>
    have hbehind := h.behind hrest
    obtain ⟨w, hgoing, hw⟩ := going_parseGroup hshort hbehind hflag hleft
    refine ⟨w, hw, fun n positional => ?_⟩
    rw [completeScan_of_rest_cons n _ (h.rest.trans hrest), hword, List.append_nil]
    simp only [hbehind.hasNext_of_rest hmiddle, if_true, hgoing]
    rfl

include hshort hlong in
theorem completeScan_rounds (child : Element) (hanchored : f.anchored = false) {n : Nat}
    {ps : List Token} (hscan : f.scan n s = (.ok u, ps)) (hleft : u.cursor.rest ≠ [])
    (h : s.Framed false [] t) :
    ∃ w, u.Framed false [] w ∧ ∀ m positional,
      f.completeScan child (n + m) positional t = f.completeScan child m (positional ++ ps) w := by
  have hadvances := fun d hd => (hshort d hd).built.advances
  have hadvances' := fun d hd => (hlong d hd).built.advances
  induction n generalizing s t ps with
  | zero =>
    cases hscan
    exact ⟨t, h, fun m positional => by rw [Nat.zero_add, List.append_nil]⟩
  | succ n ih =>
    rcases scan_succ_ok hscan with ⟨hstops, rfl, rfl⟩ | ⟨qs, v, rs, hround, hlater, rfl⟩
    · exact absurd (hstops.of_unanchored hanchored) hleft
    · have hv := (hround.leads hadvances hadvances' h.valid).cursor.valid
      have hmiddle := (scan_leads hadvances hadvances' hv hlater).rest_ne_nil hleft
      obtain ⟨v', hframed, hfirst⟩ :=
        completeScan_round hshort hlong child hanchored hround hmiddle h
      obtain ⟨w, hw, hothers⟩ := ih hlater hframed
      refine ⟨w, hw, fun m positional => ?_⟩
      rw [Nat.add_right_comm, hfirst, hothers, List.append_assoc]

/-! ## The last token -/

/-- The scan of `s` comes to read `t` when no other token is left, and collects it. -/
def CollectsLast (f : Flags) (s : State) (t : Token) : Prop :=
  ∃ n ps u, f.scan n s = (.ok u, ps) ∧ u.cursor.rest = [t] ∧ FlagWord.ofText t.value = .positional

include hshort hlong in
theorem positional_of_last (hanchored : f.anchored = false) (hs : s.cursor.Valid) {s' : State}
    {positional ps : List Token} {a : Token} {n : Nat}
    (hscan : f.scan s.cursor.remaining s = (.ok s', positional)) (hn : f.scan n s = (.ok u, ps))
    (hlast : u.cursor.rest = [a]) (hword : FlagWord.ofText a.value = .positional) :
    positional = ps ++ [a] ∧ ∃ m, s.cursor.remaining = n + (m + 1) := by
  have hgoes : ¬ f.Stops u := fun hstops => by simp [hstops.of_unanchored hanchored] at hlast
  obtain ⟨m, hm⟩ := exists_remaining (fun d hd => (hshort d hd).built.advances)
    (fun d hd => (hlong d hd).built.advances) hs hn hgoes
  have hround : f.Round u [a] u.behind := .positional hanchored hlast hword
  have hnil : u.behind.cursor.rest = [] := Cursor.rest_behind hlast
  rw [hm, scan_add hn, hround.scan, scan_of_rest_nil _ hnil] at hscan
  exact ⟨(Prod.ext_iff.mp hscan).2.symm, m, hm⟩

/-- **Completing agrees with parsing on the positional tokens.** Let a scan for parsing succeed from
`s`, and let it collect the last token that is left. If that token is not two hyphens, the candidates
around a child without `onlyOne` are those that the child has, in any context, over exactly the
positional tokens that the scan has collected. -/
theorem complete_positional {f : Flags} {child : Element} (hanchored : f.anchored = false)
    (hshort : ∀ d ∈ f.short, d.2.Unlimited) (hlong : ∀ d ∈ f.long, d.2.Unlimited)
    (hchild : child.Unlimited) {s s' : State} {positional ts : List Token} {t : Token}
    (hs : s.cursor.Valid) (hrest : s.cursor.rest = ts ++ [t])
    (hscan : f.scan s.cursor.remaining s = (.ok s', positional)) :
    (t ∉ ts → (f.CollectsLast s t ↔ t ∈ positional)) ∧
    (f.CollectsLast s t → t.value ≠ "--" → ∀ context,
      (f.around child).complete s = child.complete ⟨s.cursor.onTokens positional, context⟩) := by
  have hadvances := fun d hd => (hshort d hd).built.advances
  have hadvances' := fun d hd => (hlong d hd).built.advances
  refine ⟨fun hfresh => ⟨?_, fun hmem => ?_⟩, ?_⟩
  · rintro ⟨n, ps, u, hn, hlast, hword⟩
    obtain ⟨rfl, -⟩ := positional_of_last hshort hlong hanchored hs hscan hn hlast hword
    simp
  · obtain ⟨ps, u, ⟨⟨n, hn⟩, hhead⟩, hword⟩ := meets_of_mem hscan hmem
    obtain ⟨us, hus⟩ := List.head?_eq_some_iff.mp hhead
    -- what is left where `t` is met is among the tokens at the start, where `t` is last
    have hsub := (scan_leads hadvances hadvances' hs hn).cursor.rest
    rw [hus, hrest] at hsub
    obtain ⟨before, after, heq, hbefore, hafter⟩ := List.sublist_append_iff.mp hsub
    cases before with
    | nil =>
      rw [List.nil_append] at heq
      rw [← heq] at hafter
      obtain rfl := List.sublist_nil.mp (List.cons_sublist_cons.mp hafter)
      exact ⟨n, ps, u, hn, hus, hword⟩
    | cons b before =>
      obtain ⟨rfl, -⟩ := List.cons.inj heq
      exact absurd (hbefore.subset (List.mem_cons_self ..)) hfresh
  · rintro ⟨n, ps, u, hn, hlast, hword⟩ hdashes context
    obtain ⟨rfl, m, hm⟩ := positional_of_last hshort hlong hanchored hs hscan hn hlast hword
    obtain ⟨w, hw, hrounds⟩ :=
      completeScan_rounds hshort hlong child hanchored hn (by simp [hlast]) (.refl false hs)
    have hrest' : w.cursor.rest = [t] := hw.rest.trans hlast
    have hnil : w.behind.cursor.rest = [] := Cursor.rest_behind hrest'
    have hnext : w.behind.cursor.hasNext = false := (Cursor.hasNext_eq_false_iff _).mpr hnil
    have hraw : w.behind.cursor.raw = s.cursor.raw := by
      show w.cursor.raw = s.cursor.raw
      rw [hw.cursor_eq, (scan_leads hadvances hadvances' hs hn).cursor.raw_eq]
    calc (f.around child).complete s
        = f.completeScan child (n + (m + 1)) [] s := by rw [← hm]; rfl
      _ = f.completeScan child (m + 1) ps w := hrounds (m + 1) []
      _ = f.completeScan child m (ps ++ [t]) w.behind := by
          rw [completeScan_of_rest_cons m _ hrest', hword]
          simp only [hnext, hdashes, hanchored, decide_false, Bool.and_false, Bool.false_eq_true,
            if_false]
      _ = child.complete ⟨w.behind.cursor.onTokens (ps ++ [t]), w.behind.context⟩ :=
          completeScan_of_rest_nil m _ hnil
      _ = child.complete ⟨s.cursor.onTokens (ps ++ [t]), context⟩ := by
          rw [Cursor.onTokens, hraw]
          exact hchild.blind.complete (State.framed_of_valid (Cursor.valid_ofTokens _ _) _ _)

open Element in
/-- A value flag, a positional token and a flag with its value behind an equals sign stand before the
token that is completed. -/
theorem complete_positional_mixed :
    let f : Flags := { short := [('n', integer "n")], long := [("all", string "all")] }
    let child := seq [string "verb", choices "what" [("file", .int 1), ("fish", .int 2)]]
    let s : State := ⟨.ofTokens "-n 1 add --all=yes fi" [⟨"-n", 0, 2⟩, ⟨"1", 3, 4⟩, ⟨"add", 5, 8⟩,
      ⟨"--all=yes", 9, 18⟩, ⟨"fi", 19, 21⟩], .empty⟩
    f.CollectsLast s ⟨"fi", 19, 21⟩ ∧
      (f.around child).complete s =
        child.complete ⟨s.cursor.onTokens [⟨"add", 5, 8⟩, ⟨"fi", 19, 21⟩], .empty⟩ ∧
      (f.around child).complete s = ["file", "fish"] := by
  intro f child s
  have hshort : ∀ d ∈ f.short, d.2.Unlimited := by
    simp only [f, List.forall_mem_cons, List.not_mem_nil, false_implies, implies_true, and_true]
    exact .token (.integer "n")
  have hlong : ∀ d ∈ f.long, d.2.Unlimited := by
    simp only [f, List.forall_mem_cons, List.not_mem_nil, false_implies, implies_true, and_true]
    exact .token (.string "all")
  have hchild : child.Unlimited := by
    refine .seq ?_
    simp only [List.forall_mem_cons, List.not_mem_nil, false_implies, implies_true, and_true]
    exact ⟨.token (.string "verb"), .token (.choices "what" _)⟩
  have hrun := complete_positional (t := ⟨"fi", 19, 21⟩) rfl hshort hlong hchild
    (Cursor.valid_ofTokens _ _) (show s.cursor.rest = [⟨"-n", 0, 2⟩, ⟨"1", 3, 4⟩, ⟨"add", 5, 8⟩,
      ⟨"--all=yes", 9, 18⟩] ++ [⟨"fi", 19, 21⟩] from rfl)
    (show f.scan s.cursor.remaining s = (.ok _, [⟨"add", 5, 8⟩, ⟨"fi", 19, 21⟩]) from rfl)
  have hlast : f.CollectsLast s ⟨"fi", 19, 21⟩ := (hrun.1 (by decide)).mpr (by simp)
  exact ⟨hlast, hrun.2 hlast (by decide) .empty, by decide +kernel⟩

end ArgGrammar.Flags
