import ArgGrammar.Proofs.Halting

/-!
# Failed attempts leave no trace

An alternation behaves as its first alternative that succeeds alone, and fails as the last one alone;
an element that may be skipped is either its child or nothing but the default.

* `Cursor.fresh`: a cursor at the same place of the same tokens, with no history.
* `Again start s`: the state in which an alternation tries its next alternative. It differs from
  `start` only in views that are out of sight.
* `parseFirst_append`: alternatives that fail alone are passed over, and the last of their errors is
  kept.
* `haltsFirst_append`: an alternation comes to an end if the alternatives that it tries do.
* `attempts_leave_no_trace`: both statements together, and `attempts_leave_no_trace_endless`: an
  alternative that comes to no end keeps a later one from being tried.

What a failed attempt read, wrote and spliced is undone by `State.backTo`; that the views it leaves
behind cannot be observed is `Built.uniform` for exact runs.
-/

namespace ArgGrammar

/-- A cursor over the same tokens of the same line, at the same index, with no other view. -/
def Cursor.fresh (c : Cursor) : Cursor := ⟨c.raw, [c.tokens], 0, c.index⟩

theorem Cursor.valid_fresh {c : Cursor} (h : c.Valid) : c.fresh.Valid :=
  ⟨Nat.zero_lt_one, h.index_le⟩

/-- The state `s` is `start` once more, after attempts that came to nothing. -/
structure Again (start s : State) : Prop where
  leads : start.Leads s
  alike : start.Alike true s
  position : s.cursor.position = start.cursor.position

theorem Again.refl {start : State} (h : start.cursor.Valid) : Again start start :=
  ⟨.refl h, .refl true h, rfl⟩

theorem again_backTo {start s : State} (hstart : start.cursor.Valid) (h : start.Leads s) :
    Again start (s.backTo start) where
  leads := State.leads_backTo hstart h
  position := State.position_backTo hstart h
  alike := by
    refine ⟨hstart, (State.leads_backTo hstart h).cursor.valid, ?_, (State.context_backTo h).symm⟩
    have htokens := State.tokens_backTo hstart h
    have hindex : (s.backTo start).cursor.index = start.cursor.index :=
      congrArg Cursor.Position.index (State.position_backTo hstart h)
    have hraw : (s.backTo start).cursor.raw = start.cursor.raw :=
      (State.leads_backTo hstart h).cursor.raw_eq
    refine ⟨?_, fun _ => ⟨hraw.symm, htokens.symm, hindex.symm⟩⟩
    rw [Cursor.rest, Cursor.rest, htokens, hindex]

namespace Element

variable {start s : State}

theorem failed_again {e : Element} (he : e.Built true) (hs : Again start s)
    (hfail : (e.parse start).isOk = false) :
    ∃ err t t', e.parse start = .failed err t ∧ e.parse s = .failed err t' ∧ start.Leads t' := by
  have hrun := he.uniform start s hs.alike
  have hleads := hs.leads.trans hrun.leadsRight
  revert hrun hleads hfail
  generalize e.parse start = o
  generalize e.parse s = p
  intro hfail hrun hleads
  cases hrun.alike with
  | ok _ => simp [Outcome.isOk] at hfail
  | @failed err err' t t' _ herror _ =>
    obtain rfl := herror rfl
    exact ⟨err, t, t', rfl, rfl, hleads⟩

theorem parseFirst_append (hstart : start.cursor.Valid) (before es : List Element)
    (hbuilt : ∀ e ∈ before, e.Built true) (hfail : ∀ e ∈ before, (e.parse start).isOk = false)
    (last : ParseError) (hs : Again start s) :
    ∃ last' s', parseFirst start (before ++ es) last s = parseFirst start es last' s' ∧
      Again start s' := by
  induction before generalizing last s with
  | nil => exact ⟨last, s, rfl, hs⟩
  | cons e before ih =>
    obtain ⟨err, t, t', -, hagain, hleads⟩ :=
      failed_again (hbuilt e (by simp)) hs (hfail e (by simp))
    obtain ⟨last', s', heq, hs'⟩ := ih (fun e' he' => hbuilt e' (by simp [he']))
      (fun e' he' => hfail e' (by simp [he'])) err (again_backTo hstart hleads)
    refine ⟨last', s', ?_, hs'⟩
    rw [List.cons_append, parseFirst, hagain]
    exact heq

theorem firstOf_failed {before : List Element} {e : Element} (hs : s.cursor.Valid)
    (hbuilt : ∀ a ∈ before ++ [e], a.Built true)
    (hfail : ∀ a ∈ before ++ [e], (a.parse s).isOk = false) :
    ∃ err t t', (firstOf (before ++ [e])).parse s = .failed err t ∧ e.parse s = .failed err t' ∧
      Again s t := by
  obtain ⟨last, s', heq, hs'⟩ := parseFirst_append hs before [e]
    (fun a ha => hbuilt a (by simp [ha])) (fun a ha => hfail a (by simp [ha]))
    (s.cursor.errorHere .noAlternatives) (.refl hs)
  obtain ⟨err, t, t', hparse, hagain, hleads⟩ :=
    failed_again (hbuilt e (by simp)) hs' (hfail e (by simp))
  refine ⟨err, t'.backTo s, t, ?_, hparse, again_backTo hs hleads⟩
  show parseFirst s (before ++ [e]) (s.cursor.errorHere .noAlternatives) s = _
  rw [heq, parseFirst, hagain]
  rfl

theorem firstOf_ok {before after : List Element} {e : Element} (hs : s.cursor.Valid)
    (hbuilt : ∀ a ∈ before ++ e :: after, a.Built true)
    (hfail : ∀ a ∈ before, (a.parse s).isOk = false) (hok : (e.parse s).isOk = true) :
    ∃ t u, (firstOf (before ++ e :: after)).parse s = .ok t ∧
      e.parse ⟨s.cursor.fresh, s.context⟩ = .ok u ∧ t.Alike true u := by
  obtain ⟨last, s', heq, hs'⟩ := parseFirst_append hs before (e :: after)
    (fun a ha => hbuilt a (by simp [ha])) hfail (s.cursor.errorHere .noAlternatives) (.refl hs)
  have he := hbuilt e (by simp)
  have hmiddle := (he.uniform s s' hs'.alike).alike
  have hfresh := (he.uniform s' ⟨s.cursor.fresh, s.context⟩ ?_).alike
  · have hparse : (firstOf (before ++ e :: after)).parse s = parseFirst s (e :: after) last s' := heq
    rw [hparse, parseFirst]
    revert hmiddle hfresh hok
    generalize e.parse s = o
    generalize e.parse s' = p
    generalize e.parse ⟨s.cursor.fresh, s.context⟩ = q
    intro hok hmiddle hfresh
    cases hmiddle with
    | failed _ _ _ => simp [Outcome.isOk] at hok
    | ok _ =>
      cases hfresh with
      | ok h => exact ⟨_, _, rfl, rfl, h⟩
  · obtain ⟨hraw, htokens, hindex⟩ := hs'.alike.cursor.same rfl
    refine ⟨hs'.alike.validRight, Cursor.valid_fresh hs, ⟨?_, fun _ => ?_⟩, hs'.alike.context.symm⟩
    · exact hs'.alike.cursor.values.symm
    · exact ⟨hraw.symm, htokens.symm, hindex.symm⟩

theorem exists_first_isOk {alts : List Element} (h : ∃ a ∈ alts, (a.parse s).isOk = true) :
    ∃ before a after, alts = before ++ a :: after ∧ (∀ b ∈ before, (b.parse s).isOk = false) ∧
      (a.parse s).isOk = true := by
  obtain ⟨a, ha, hok⟩ := h
  have hsome : (alts.find? fun a => (a.parse s).isOk).isSome := by
    rw [List.find?_isSome]
    exact ⟨a, ha, hok⟩
  obtain ⟨b, hb⟩ := Option.isSome_iff_exists.mp hsome
  obtain ⟨hbok, before, after, hsplit, hfail⟩ := List.find?_eq_some_iff_append.mp hb
  exact ⟨before, b, after, hsplit, fun c hc => by simpa using hfail c hc, hbok⟩

theorem firstOf_isOk_iff {alts : List Element} (hs : s.cursor.Valid)
    (hbuilt : ∀ a ∈ alts, a.Built true) :
    ((firstOf alts).parse s).isOk = true ↔ ∃ a ∈ alts, (a.parse s).isOk = true := by
  constructor
  · intro hok
    apply Classical.byContradiction
    intro hnone
    have hfail : ∀ a ∈ alts, (a.parse s).isOk = false := fun a ha =>
      Bool.eq_false_iff.mpr fun h => hnone ⟨a, ha, h⟩
    rcases List.eq_nil_or_concat alts with rfl | ⟨before, a, halts⟩
    · exact Bool.false_ne_true hok
    · rw [List.concat_eq_append] at halts
      subst halts
      obtain ⟨err, t, t', hparse, -, -⟩ := firstOf_failed hs hbuilt hfail
      rw [hparse] at hok
      exact Bool.false_ne_true hok
  · intro h
    obtain ⟨before, a, after, rfl, hfail, hok⟩ := exists_first_isOk h
    obtain ⟨t, u, hparse, -, -⟩ := firstOf_ok hs hbuilt hfail hok
    rw [hparse]
    rfl

theorem context_recordDefault (e : Element) (default : Option Value) (t : State) :
    (recordDefault e default t).context = match e.key, default with
      | some key, some v => t.context.put key v
      | _, _ => t.context := by
  unfold recordDefault
  cases e.key <;> cases default <;> rfl

/-! ## Coming to an end -/

theorem haltsFirst_append (hstart : start.cursor.Valid) (before es : List Element)
    (hbuilt : ∀ e ∈ before ++ es, e.Built true)
    (hfail : ∀ e ∈ before, (e.parse start).isOk = false) (hs : Again start s) :
    haltsFirst start (before ++ es) s = true ↔
      (∀ e ∈ before, e.halts start = true) ∧ haltsFirst start es start = true := by
  induction before generalizing s with
  | nil =>
    have hsame : haltsFirst start es start = haltsFirst start es s :=
      haltsFirst_eq (fun e he => (hbuilt e he).uniform) (fun e he => (hbuilt e he).halts_alike)
        (.refl true hstart) hs.alike (.refl hstart) hs.leads
    simp [hsame]
  | cons e before ih =>
    obtain ⟨err, t, t', -, hagain, hleads⟩ :=
      failed_again (hbuilt e (by simp)) hs (hfail e (by simp))
    have hlater := ih (fun e' he' => hbuilt e' (by simp [he'])) (fun e' he' => hfail e' (by simp [he']))
      (again_backTo hstart hleads)
    have hhere : e.halts s = e.halts start :=
      ((hbuilt e (by simp)).halts_alike start s hs.alike).symm
    rw [List.cons_append, haltsFirst, hagain, Bool.and_eq_true, hlater, hhere, List.forall_mem_cons,
      and_assoc]

/-- An alternation comes to an end exactly when the alternatives that it tries do. -/
theorem firstOf_halts_iff {alts : List Element} (hs : s.cursor.Valid)
    (hbuilt : ∀ a ∈ alts, a.Built true) :
    (firstOf alts).halts s = true ↔ ∀ before a after, alts = before ++ a :: after →
      (∀ b ∈ before, b.Fails s) → a.halts s = true := by
  constructor
  · rintro h before a after rfl hfail
    have hlater := ((haltsFirst_append hs before (a :: after) hbuilt
      (fun b hb => (fails_iff.mp (hfail b hb)).2) (.refl hs)).mp h).2
    rw [haltsFirst] at hlater
    exact (Bool.and_eq_true_iff.mp hlater).1
  · intro h
    show haltsFirst s alts s = true
    have hrest : ∀ before after, alts = before ++ after → (∀ b ∈ before, b.Fails s) →
        haltsFirst s after s = true := by
      intro before after
      induction after generalizing before with
      | nil => exact fun _ _ => rfl
      | cons a after ih =>
        intro hsplit hfail
        have hhere := h before a after hsplit hfail
        cases hok : (a.parse s).isOk with
        | true =>
          obtain ⟨t, -, hparse⟩ := succeeds_iff.mpr ⟨hhere, hok⟩
          rw [haltsFirst, hhere, hparse]
          rfl
        | false =>
          have hafail := fails_iff.mpr ⟨hhere, hok⟩
          have hlater := ih (before ++ [a]) (by simpa using hsplit) fun b hb => by
            rcases List.mem_append.mp hb with hb | hb
            · exact hfail b hb
            · exact List.mem_singleton.mp hb ▸ hafail
          refine (haltsFirst_append hs [a] after (fun b hb => hbuilt b ?_) ?_ (.refl hs)).mpr
            ⟨by simpa using hhere, hlater⟩
          · rw [hsplit]
            exact List.mem_append_right _ hb
          · simpa using hok
    exact hrest [] alts rfl (List.forall_mem_nil _)

theorem optional_halts_iff {e : Element} {default : Option Value} {weak : Bool}
    (hnext : s.cursor.hasNext = true) :
    (optional e default weak).halts s = true ↔ e.halts s = true := by
  simp [optional, ofStep, hnext]

theorem firstOf_succeeds_iff {alts : List Element} (hs : s.cursor.Valid)
    (hbuilt : ∀ a ∈ alts, a.Built true) (h : (firstOf alts).halts s = true) :
    (firstOf alts).Succeeds s ↔ ∃ a ∈ alts, a.Succeeds s := by
  constructor
  · intro hsucceeds
    obtain ⟨before, a, after, rfl, hfail, hok⟩ :=
      exists_first_isOk ((firstOf_isOk_iff hs hbuilt).mp (succeeds_iff.mp hsucceeds).2)
    obtain ⟨hbefore, hlater⟩ :=
      (haltsFirst_append hs before (a :: after) hbuilt hfail (.refl hs)).mp h
    rw [haltsFirst] at hlater
    exact ⟨a, by simp, succeeds_iff.mpr ⟨(Bool.and_eq_true_iff.mp hlater).1, hok⟩⟩
  · rintro ⟨a, ha, hsucceeds⟩
    refine succeeds_iff.mpr ⟨h, ?_⟩
    exact (firstOf_isOk_iff hs hbuilt).mpr ⟨a, ha, (succeeds_iff.mp hsucceeds).2⟩

theorem firstOf_returns_ok {before after : List Element} {a : Element} (hs : s.cursor.Valid)
    (hbuilt : ∀ b ∈ before ++ a :: after, b.Built true) (hfail : ∀ b ∈ before, b.Fails s)
    (hok : a.Succeeds s) :
    ∃ t u, (firstOf (before ++ a :: after)).Returns s (.ok t) ∧
      a.Returns ⟨s.cursor.fresh, s.context⟩ (.ok u) ∧ t.Alike true u := by
  have hfail' : ∀ b ∈ before, b.halts s = true ∧ (b.parse s).isOk = false :=
    fun b hb => fails_iff.mp (hfail b hb)
  obtain ⟨hhalts, hisOk⟩ := succeeds_iff.mp hok
  obtain ⟨t, u, hparse, halone, halike⟩ :=
    firstOf_ok hs hbuilt (fun b hb => (hfail' b hb).2) hisOk
  have hfresh : a.halts ⟨s.cursor.fresh, s.context⟩ = true := by
    have hsame : s.Alike true ⟨s.cursor.fresh, s.context⟩ :=
      ⟨hs, Cursor.valid_fresh hs, ⟨rfl, fun _ => ⟨rfl, rfl, rfl⟩⟩, rfl⟩
    exact ((hbuilt a (by simp)).halts_alike _ _ hsame).symm.trans hhalts
  refine ⟨t, u, ⟨?_, hparse⟩, ⟨hfresh, halone⟩, halike⟩
  refine (haltsFirst_append hs before (a :: after) hbuilt (fun b hb => (hfail' b hb).2)
    (.refl hs)).mpr ⟨fun b hb => (hfail' b hb).1, ?_⟩
  obtain ⟨v, -, hv⟩ := hok
  rw [haltsFirst, hhalts, hv]
  rfl

theorem firstOf_returns_failed {before : List Element} {a : Element} (hs : s.cursor.Valid)
    (hbuilt : ∀ b ∈ before ++ [a], b.Built true) (hfail : ∀ b ∈ before ++ [a], b.Fails s) :
    ∃ err t u, (firstOf (before ++ [a])).Returns s (.failed err t) ∧ a.Returns s (.failed err u) ∧
      Again s t := by
  have hfail' : ∀ b ∈ before ++ [a], b.halts s = true ∧ (b.parse s).isOk = false :=
    fun b hb => fails_iff.mp (hfail b hb)
  obtain ⟨err, t, u, hparse, halone, hagain⟩ :=
    firstOf_failed hs hbuilt fun b hb => (hfail' b hb).2
  have hall : haltsFirst s (before ++ [a]) s = true := by
    have hnone := haltsFirst_append hs (before ++ [a]) [] (by simpa using hbuilt)
      (fun b hb => (hfail' b hb).2) (.refl hs)
    rw [List.append_nil] at hnone
    exact hnone.mpr ⟨fun b hb => (hfail' b hb).1, rfl⟩
  exact ⟨err, t, u, ⟨hall, hparse⟩, ⟨(hfail' a (by simp)).1, halone⟩, hagain⟩

end Element

open Element in
/-- **Failed attempts leave no trace.** An alternation that comes to an end succeeds exactly when an
alternative does when run alone from the same state, and it comes to an end exactly when the
alternatives do that it tries. The first that succeeds alone, after others that fail alone, decides:
context, tokens and index are those of running it alone on a fresh cursor. If all fail alone, the
error is that of the last one alone, and the context and the place are those at the start. With
input left, an element that may be skipped does what its child does when that succeeds; when the
child fails and the element is weak or the attempt left input, it succeeds at the place where it
started, with the default as the only thing recorded; in the remaining case the failure is the
child's. -/
theorem attempts_leave_no_trace {alts : List Element} (hbuilt : ∀ a ∈ alts, a.Built true)
    {e : Element} (he : e.Built true) (default : Option Value) (weak : Bool) {s : State}
    (hs : s.cursor.Valid) :
    ((firstOf alts).halts s = true → ((firstOf alts).Succeeds s ↔ ∃ a ∈ alts, a.Succeeds s)) ∧
    ((firstOf alts).halts s = true ↔ ∀ before a after, alts = before ++ a :: after →
      (∀ b ∈ before, b.Fails s) → a.halts s = true) ∧
    (∀ before a after, alts = before ++ a :: after → (∀ b ∈ before, b.Fails s) → a.Succeeds s →
      ∃ t u, (firstOf alts).Returns s (.ok t) ∧ a.Returns ⟨s.cursor.fresh, s.context⟩ (.ok u) ∧
        t.context = u.context ∧ t.cursor.tokens = u.cursor.tokens ∧
        t.cursor.index = u.cursor.index) ∧
    (∀ before a, alts = before ++ [a] → (∀ b ∈ alts, b.Fails s) →
      ∃ err t u, (firstOf alts).Returns s (.failed err t) ∧ a.Returns s (.failed err u) ∧
        t.context = s.context ∧ t.cursor.position = s.cursor.position ∧
        t.cursor.tokens = s.cursor.tokens) ∧
    (s.cursor.hasNext = true →
      (∀ t, e.Returns s (.ok t) → (optional e default weak).Returns s (.ok t)) ∧
      ∀ err t, e.Returns s (.failed err t) →
        (weak = true ∨ t.cursor.hasNext = true →
          ∃ u, (optional e default weak).Returns s (.ok u) ∧
            u.cursor.position = s.cursor.position ∧ u.cursor.tokens = s.cursor.tokens ∧
            u.context = match e.key, default with
              | some key, some v => s.context.put key v
              | _, _ => s.context) ∧
        (¬ (weak = true ∨ t.cursor.hasNext = true) →
          (optional e default weak).Returns s (.failed err t))) := by
  refine ⟨firstOf_succeeds_iff hs hbuilt, firstOf_halts_iff hs hbuilt, ?_, ?_, fun hnext =>
    ⟨fun t ht => ⟨(optional_halts_iff hnext).mpr ht.1, optional_ok hnext ht.2⟩, ?_⟩⟩
  · rintro before a after rfl hfail hok
    obtain ⟨t, u, hreturns, halone, halike⟩ := firstOf_returns_ok hs hbuilt hfail hok
    obtain ⟨-, htokens, hindex⟩ := halike.cursor.same rfl
    exact ⟨t, u, hreturns, halone, halike.context, htokens, hindex⟩
  · rintro before a rfl hfail
    obtain ⟨err, t, u, hreturns, halone, hagain⟩ := firstOf_returns_failed hs hbuilt hfail
    obtain ⟨-, htokens, -⟩ := hagain.alike.cursor.same rfl
    exact ⟨err, t, u, hreturns, halone, hagain.alike.context.symm, hagain.position, htokens.symm⟩
  · rintro err t ⟨hhalts, ht⟩
    have hends : (optional e default weak).halts s = true := (optional_halts_iff hnext).mpr hhalts
    have hleads : s.Leads t := by
      have := he.advances s hs
      rwa [ht] at this
    refine ⟨fun hskip => ?_, fun hskip => ⟨hends, ?_⟩⟩
    · refine ⟨recordDefault e default (t.backTo s), ⟨hends, ?_⟩, ?_, ?_, ?_⟩
      · rw [optional_failed hnext ht, if_pos hskip]
      · rw [recordDefault_cursor]
        exact State.position_backTo hs hleads
      · rw [recordDefault_cursor]
        exact State.tokens_backTo hs hleads
      · rw [context_recordDefault, State.context_backTo hleads]
    · rw [optional_failed hnext ht, if_neg hskip]

open Element in
/-- The first alternative reads and records both tokens before it fails, and the second one does not
see it; the number that may be skipped leaves its default. -/
theorem attempts_leave_no_trace_xy :
    let s : State := ⟨.ofTokens "x y" [⟨"x", 0, 1⟩, ⟨"y", 2, 3⟩], .empty⟩
    let first := seq [allOf (string "a"), integer "b"]
    let second := seq [string "c", string "d"]
    (firstOf [first, second]).Succeeds s ∧
    (∃ t u, (firstOf [first, second]).Returns s (.ok t) ∧
      second.Returns ⟨s.cursor.fresh, s.context⟩ (.ok u) ∧ t.context = u.context ∧
      t.cursor.tokens = u.cursor.tokens ∧ t.cursor.index = u.cursor.index) ∧
    ∃ u, (optional (integer "n") (some (.int 7)) true).Returns s (.ok u) ∧
      u.cursor.position = s.cursor.position ∧ u.cursor.tokens = s.cursor.tokens ∧
      u.context = s.context.put "n" (.int 7) := by
  intro s first second
  have hs : s.cursor.Valid := Cursor.valid_ofTokens _ _
  have hpaced : ∀ a ∈ [first, second], a.BuiltWith Flags.Paced := by
    simp only [List.forall_mem_cons, List.not_mem_nil, false_implies, implies_true, and_true]
    refine ⟨.seq ?_, .seq ?_⟩ <;>
      simp only [List.forall_mem_cons, List.not_mem_nil, false_implies, implies_true, and_true]
    · exact ⟨.allOf _ (.token (.string "a")), .token (.integer "b")⟩
    · exact ⟨.token (.string "c"), .token (.string "d")⟩
  have hfails : first.Fails s := by
    -- it fails in the rounds that the tokens give, and so with any number of others
    have hlonger : Lengthened (seq [allOf (string "a") 0, integer "b"]) first := by
      have hpairs : ∀ p ∈ [(allOf (string "a") 0, allOf (string "a")), (integer "b", integer "b")],
          Lengthened p.1 p.2 := by
        simp only [List.forall_mem_cons, List.not_mem_nil, false_implies, implies_true, and_true]
        exact ⟨.allOf (Nat.zero_le _) (.refl _), .refl _⟩
      exact .seq hpairs
    obtain ⟨err, t, hshort⟩ : (seq [allOf (string "a") 0, integer "b"]).Fails s :=
      fails_iff.mpr ⟨by decide +kernel, by decide +kernel⟩
    exact ⟨err, t, hlonger.returns hshort⟩
  have hsucceeds : second.Succeeds s := succeeds_iff.mpr ⟨by decide +kernel, by decide +kernel⟩
  obtain ⟨hends, -, hfirst, -, hskip⟩ := attempts_leave_no_trace
    (fun a ha => (hpaced a ha).built) (.token (.integer "n")) (some (.int 7)) true hs
  refine ⟨(hends ((BuiltWith.firstOf hpaced).halts s hs)).mpr ⟨second, by simp, hsucceeds⟩,
    hfirst [first] second [] rfl (by simpa using hfails) hsucceeds, ?_⟩
  obtain ⟨err, t, hn⟩ : (integer "n").Fails s :=
    fails_iff.mpr ⟨by decide +kernel, by decide +kernel⟩
  exact ((hskip (by decide)).2 err t hn).1 (.inl rfl)

open Element in
/-- The second alternative succeeds alone. The first one, the repetition of flags around nothing, is
never done with `a`, however many rounds it has, and so nothing comes of the alternation. -/
theorem attempts_leave_no_trace_endless :
    let s : State := ⟨.ofTokens "a" [⟨"a", 0, 1⟩], .empty⟩
    let flags := ({} : Flags).around none
    (string "x").Succeeds s ∧ (∀ k o, ¬ Rounds flags s k o) ∧
      ∀ n o, ¬ (firstOf [allOf flags n, string "x"]).Returns s o := by
  intro s flags
  have hs : s.cursor.Valid := Cursor.valid_ofTokens _ _
  have hrest : s.cursor.rest ≠ [] := by decide
  have hwords : ∀ a ∈ s.cursor.rest, FlagWord.ofText a.value = .positional := by decide
  refine ⟨succeeds_iff.mpr ⟨by decide +kernel, by decide +kernel⟩,
    fun k o => Flags.not_rounds rfl hs hrest hwords k o, fun n o ho => ?_⟩
  have hends : haltsFirst s [allOf flags n, string "x"] s = true := ho.1
  rw [haltsFirst, Flags.halts_allOf rfl hs hrest hwords n] at hends
  cases hends

end ArgGrammar
