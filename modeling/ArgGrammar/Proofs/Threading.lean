import ArgGrammar.Proofs.Candidate

/-!
# Completion through sequences and repetitions

Completion follows several places at once. All of them lie in one view, at or behind the place where
the element starts and before the last token.

* `Cursor.Ahead c p`: the place `p` lies there.
* `Reached parse c rs found`: what one element finds from the places `rs`; `stepFrom_reached`.
* `thread_sound`: elements one after another, behind a parse that passes to all the places.
* `OffersAll`: a value lets repetition finish from a place; it is carried back over every round that
  passes from an earlier place (`OffersAll.of_passes`), and `stepAll_sound` follows.
-/

namespace ArgGrammar

/-- The place lies in the view of the cursor, at or behind its index and before the last token. -/
structure Cursor.Ahead (c : Cursor) (p : Cursor.Position) : Prop where
  view : p.view = c.view
  le : c.index ≤ p.index
  lt : p.index < c.tokens.length

theorem Cursor.ahead_self {c : Cursor} (h : c.rest ≠ []) : c.Ahead c.position :=
  ⟨rfl, Nat.le_refl _, by simpa [rest, position] using h⟩

theorem Resume.mem_union {rs more : List Resume} {r : Resume} (h : r ∈ union rs more) :
    r ∈ rs ∨ r ∈ more := by
  induction more generalizing rs with
  | nil => exact .inl h
  | cons m more ih =>
    rcases ih h with hadd | hmore
    · unfold addTo at hadd
      split at hadd
      · exact .inl hadd
      · rcases List.mem_append.mp hadd with hrs | hm
        · exact .inl hrs
        · exact .inr (List.mem_cons.mpr (.inl (List.mem_singleton.mp hm)))
    · exact .inr (List.mem_cons.mpr (.inr hmore))

theorem mem_of_mem_distinct {texts : List String} {q : String} (h : q ∈ distinct texts) :
    q ∈ texts := by
  have hfold : ∀ (seen texts : List String),
      q ∈ texts.foldl (fun seen t => if t ∈ seen then seen else seen ++ [t]) seen →
      q ∈ seen ∨ q ∈ texts := by
    intro seen texts
    induction texts generalizing seen with
    | nil => exact .inl
    | cons t texts ih =>
      intro hq
      rcases ih _ hq with hseen | htexts
      · dsimp only at hseen
        split at hseen
        · exact .inl hseen
        · rcases List.mem_append.mp hseen with hold | hnew
          · exact .inl hold
          · exact .inr (List.mem_cons.mpr (.inl (List.mem_singleton.mp hnew)))
      · exact .inr (List.mem_cons.mpr (.inr htexts))
  rcases hfold [] texts h with hnil | htexts
  · cases hnil
  · exact htexts

theorem Outcome.andThen_assoc (o : Outcome) (f g : State → Outcome) :
    (o.andThen f).andThen g = o.andThen fun s => (f s).andThen g := by
  cases o <;> rfl

theorem Outcome.andThen_ok (o : Outcome) : o.andThen .ok = o := by
  cases o <;> rfl

namespace Element

variable {e : Element} {c : Cursor}

/-! ## One element from several places -/

/-- What is found from the places `rs` of the view of `c`. -/
structure Reached (parse : State → Outcome) (c : Cursor) (rs : List Resume) (found : Step) :
    Prop where
  cursor : ∃ i, found.cursor = c.moveTo i
  candidates : ∀ q ∈ found.candidates, ∃ r ∈ rs,
    Offers parse (settled (c.tokens.drop r.position.index)) q
  resumes : ∀ r' ∈ found.resumes, c.Ahead r'.position ∧ ∃ r ∈ rs,
    r.position.index ≤ r'.position.index ∧
      Passes parse (settled (c.tokens.drop r.position.index))
        (settled (c.tokens.drop r'.position.index))

theorem Reached.merge (h : Sound e) (hc : c.Valid) {rs : List Resume} {found : Step}
    (hfound : Reached e.parse c rs found) {r : Resume} (hr : r ∈ rs) (hahead : c.Ahead r.position) :
    Reached e.parse c rs
      (found.merge (e.step ⟨found.cursor.restore r.position, r.context⟩)) := by
  obtain ⟨i, hi⟩ := hfound.cursor
  have hle : r.position.index ≤ c.tokens.length := Nat.le_of_lt hahead.lt
  rw [hi, Cursor.restore_moveTo hc i hahead.view hle]
  have hrest : (c.moveTo r.position.index).rest ≠ [] := by
    simpa [Cursor.rest_moveTo] using hahead.lt
  have hstep := h.step ⟨c.moveTo r.position.index, r.context⟩ (hc.moveTo hle) hrest
  refine ⟨⟨_, hstep.cursor⟩, fun q hq => ?_, fun r' hr' => ?_⟩
  · rcases List.mem_append.mp hq with hold | hnew
    · exact hfound.candidates q hold
    · exact ⟨r, hr, hstep.candidates q hnew⟩
  · rcases Resume.mem_union hr' with hold | hnew
    · exact hfound.resumes r' hold
    · obtain ⟨hfrom, hlt⟩ := hstep.index r' hnew
      exact ⟨⟨(hstep.view r' hnew).trans rfl, Nat.le_trans hahead.le hfrom, hlt⟩, r, hr, hfrom,
        hstep.resumes r' hnew⟩

theorem stepFrom_reached (h : Sound e) (hc : c.Valid) (i : Nat) {rs : List Resume}
    (hrs : ∀ r ∈ rs, c.Ahead r.position) : Reached e.parse c rs (stepFrom e (c.moveTo i) rs) := by
  have hfold : ∀ (todo : List Resume) (found : Step), (∀ r ∈ todo, r ∈ rs) →
      Reached e.parse c rs found →
      Reached e.parse c rs (todo.foldl
        (fun found r => found.merge (e.step ⟨found.cursor.restore r.position, r.context⟩)) found) := by
    intro todo
    induction todo with
    | nil => exact fun _ _ hfound => hfound
    | cons r todo ih =>
      intro found hsub hfound
      have hr := hsub r (by simp)
      exact ih _ (fun r' hr' => hsub r' (by simp [hr'])) (hfound.merge h hc hr (hrs r hr))
  exact hfold rs _ (fun _ hr => hr) ⟨⟨i, rfl⟩, nofun, nofun⟩

/-! ## One after another -/

theorem ends_parseSeq {es : List Element} (hes : ∀ e ∈ es, Sound e) : Ends (parseSeq es) := by
  induction es with
  | nil => exact fun s hs hrest => .ok hs hrest
  | cons e es ih => exact (hes e (by simp)).ends.andThen (ih fun e' he' => hes e' (by simp [he']))

/-- Behind a parse that passes to all the places `rs`, the elements pass to all the places that are
reached from there, and candidates found on the way let the whole finish. -/
theorem thread_sound {es : List Element} (hes : ∀ e ∈ es, Sound e) (hc : c.Valid)
    {pre : State → Outcome} {vs : List String} (i : Nat) {rs : List Resume}
    (hrs : ∀ r ∈ rs, c.Ahead r.position ∧
      Passes pre vs (settled (c.tokens.drop r.position.index))) :
    (∃ j, (thread es (c.moveTo i) rs).cursor = c.moveTo j) ∧
    (∀ q ∈ (thread es (c.moveTo i) rs).candidates,
      Offers (fun s => (pre s).andThen (parseSeq es)) vs q) ∧
    ∀ r ∈ (thread es (c.moveTo i) rs).resumes, c.Ahead r.position ∧
      Passes (fun s => (pre s).andThen (parseSeq es)) vs
        (settled (c.tokens.drop r.position.index)) := by
  induction es generalizing pre i rs with
  | nil =>
    have hpre : (fun s => (pre s).andThen (parseSeq [])) = pre :=
      funext fun s => Outcome.andThen_ok (pre s)
    rw [hpre]
    exact ⟨⟨i, rfl⟩, nofun, hrs⟩
  | cons e es ih =>
    have he := hes e (by simp)
    have hlater : ∀ e' ∈ es, Sound e' := fun e' he' => hes e' (by simp [he'])
    have hreached := stepFrom_reached he hc i fun r hr => (hrs r hr).1
    have hassoc : (fun s => (pre s).andThen (parseSeq (e :: es))) =
        fun s => ((pre s).andThen e.parse).andThen (parseSeq es) :=
      funext fun s => (Outcome.andThen_assoc _ _ _).symm
    have hcandidates : ∀ q ∈ (stepFrom e (c.moveTo i) rs).candidates,
        Offers (fun s => ((pre s).andThen e.parse).andThen (parseSeq es)) vs q := by
      intro q hq
      obtain ⟨r, hr, hoffers⟩ := hreached.candidates q hq
      exact ((hrs r hr).2.offers hoffers he.ends).andThen (ends_parseSeq hlater)
    have hresumes : ∀ r ∈ (stepFrom e (c.moveTo i) rs).resumes, c.Ahead r.position ∧
        Passes (fun s => (pre s).andThen e.parse) vs (settled (c.tokens.drop r.position.index)) := by
      intro r' hr'
      obtain ⟨hahead, r, hr, -, hpasses⟩ := hreached.resumes r' hr'
      exact ⟨hahead, (hrs r hr).2.trans hpasses he.ends⟩
    obtain ⟨j, hj⟩ := hreached.cursor
    rw [hassoc, thread]
    split
    · next hnone =>
      refine ⟨⟨j, hj⟩, hcandidates, fun r hr => ?_⟩
      rw [List.isEmpty_iff.mp hnone] at hr
      cases hr
    · rw [hj]
      obtain ⟨hcursor, hoffers, hpasses⟩ := ih hlater j hresumes
      refine ⟨hcursor, fun q hq => ?_, hpasses⟩
      rcases List.mem_append.mp hq with hhere | hthere
      · exact hcandidates q hhere
      · exact hoffers q hthere

theorem stepSound_stepSeq {es : List Element} (hes : ∀ e ∈ es, Sound e) {s : State}
    (hs : s.cursor.Valid) (hrest : s.cursor.rest ≠ []) :
    StepSound (parseSeq es) s (stepSeq es s) := by
  have hidles : Idles .ok := fun t => ⟨t, rfl, rfl⟩
  have hstart : ∀ r ∈ [(⟨s.cursor.position, s.context⟩ : Resume)], s.cursor.Ahead r.position ∧
      Passes .ok (settled s.cursor.rest) (settled (s.cursor.tokens.drop r.position.index)) := by
    intro r hr
    obtain rfl := List.mem_singleton.mp hr
    exact ⟨Cursor.ahead_self hrest, hidles.passes _⟩
  have hself : s.cursor.moveTo s.cursor.index = s.cursor := rfl
  obtain ⟨⟨i, hi⟩, hoffers, hpasses⟩ := thread_sound hes hs s.cursor.index hstart
  rw [hself] at hi hoffers hpasses
  refine ⟨?_, fun q hq => ?_, fun r hr => ?_, fun r hr => ?_, fun r hr => ?_⟩
  · rw [stepSeq, hi]
    exact Cursor.restore_moveTo hs i rfl hs.index_le
  · exact hoffers q (mem_of_mem_distinct hq)
  · exact (hpasses r (List.mem_filter.mp hr).1).1.view
  · have hahead := (hpasses r (List.mem_filter.mp hr).1).1
    exact ⟨hahead.le, hahead.lt⟩
  · exact (hpasses r (List.mem_filter.mp hr).1).2

theorem sound_ofStep_seq (key : Option String) {es : List Element} (hes : ∀ e ∈ es, Sound e) :
    Sound (ofStep key (parseSeq es) (haltsSeq es) (stepSeq es)) where
  advances := advances_parseSeq fun e he => (hes e he).advances
  ends := ends_parseSeq hes
  offers _ hs hrest := (stepSound_stepSeq hes hs hrest).candidates
  step _ hs hrest := stepSound_stepSeq hes hs hrest

/-! ## Repetition -/

theorem parseAll_of_rest_nil (n : Nat) {s : State} (h : s.cursor.rest = []) :
    parseAll e n s = .ok s := by
  have hnext : ¬ s.cursor.hasNext = true := by simp [Cursor.hasNext_iff, h]
  cases n with
  | zero => rfl
  | succ n => rw [parseAll, if_neg hnext]

/-- Behind the values `vs`, the value `q` lets repetition finish, in as many rounds as there are
tokens. -/
def OffersAll (e : Element) (vs : List String) (q : String) : Prop :=
  ∀ (n : Nat) (s : State), s.cursor.Valid → s.cursor.rest.map (·.value) = vs ++ [q] →
    vs.length < n → (parseAll e n s).Finished

variable {vs ws : List String} {q : String}

theorem finished_parseAll {n : Nat} {s : State} (hnext : s.cursor.hasNext = true)
    (h : (e.parse s).Finished) : (parseAll e (n + 1) s).Finished := by
  rw [parseAll, if_pos hnext]
  revert h
  generalize e.parse s = o
  intro h
  cases h with
  | ok hs hrest =>
    dsimp only
    split
    · exact .ok hs hrest
    · rw [parseAll_of_rest_nil n hrest]
      exact .ok hs hrest
  | missing hkind => exact .missing hkind

theorem hasNext_of_values {c : Cursor} (h : c.rest.map (·.value) = vs ++ [q]) :
    c.hasNext = true := by
  rw [Cursor.hasNext_iff]
  intro hnil
  simp [hnil] at h

theorem offersAll_of_offers (h : Offers e.parse vs q) : OffersAll e vs q := by
  intro n s hs hrest hn
  obtain ⟨m, rfl⟩ : ∃ m, n = m + 1 := ⟨n - 1, by omega⟩
  exact finished_parseAll (hasNext_of_values hrest) (h s hs hrest)

theorem OffersAll.of_passes (ha : Advances e.parse) (h : Passes e.parse vs ws)
    (hlen : ws.length < vs.length) (hq : OffersAll e ws q) : OffersAll e vs q := by
  intro n s hs hrest hn
  obtain ⟨m, rfl⟩ : ∃ m, n = m + 1 := ⟨n - 1, by omega⟩
  have hnext := hasNext_of_values hrest
  rcases h q s hs hrest with hfin | ⟨t, ht, hvalid, hleft⟩
  · exact finished_parseAll hnext hfin
  · have hmoved : t.cursor.position ≠ s.cursor.position := by
      intro hpos
      have hfollows : s.cursor.Follows t.cursor := by
        have := (ha s hs).cursor
        rwa [ht] at this
      have hsame : ws ++ [q] = vs ++ [q] := by
        rw [← hleft, ← hrest, hfollows.rest_eq hs hpos]
      have hvalues := congrArg List.length hsame
      simp only [List.length_append] at hvalues
      omega
    rw [parseAll, if_pos hnext, ht]
    dsimp only
    rw [if_neg hmoved]
    exact hq m t hvalid hleft (by omega)

/-- From places that are known, and from which what is offered is carried back, all candidates are
offered. The places that are followed next are new, so they lie behind those they come from. -/
theorem stepAll_sound (h : Sound e) (hc : c.Valid) (n : Nat) {seen : List Cursor.Position} (i : Nat)
    {rs : List Resume} (hrs : ∀ r ∈ rs, c.Ahead r.position ∧ r.position ∈ seen ∧
      ∀ q, OffersAll e (settled (c.tokens.drop r.position.index)) q → OffersAll e vs q) :
    (∃ j, (stepAll e n seen (c.moveTo i) rs).2 = c.moveTo j) ∧
      ∀ q ∈ (stepAll e n seen (c.moveTo i) rs).1, OffersAll e vs q := by
  induction n generalizing seen i rs with
  | zero => exact ⟨⟨i, rfl⟩, nofun⟩
  | succ n ih =>
    rw [stepAll]
    split
    · exact ⟨⟨i, rfl⟩, nofun⟩
    · have hreached := stepFrom_reached h hc i fun r hr => (hrs r hr).1
      obtain ⟨j, hj⟩ := hreached.cursor
      dsimp only
      rw [hj]
      generalize hfresh : List.filter _ (stepFrom e (c.moveTo i) rs).resumes = fresh
      have hnext : ∀ r ∈ fresh, c.Ahead r.position ∧
          r.position ∈ seen ++ fresh.map (·.position) ∧
          ∀ q, OffersAll e (settled (c.tokens.drop r.position.index)) q → OffersAll e vs q := by
        intro r' hr'
        have hmem := hr'
        rw [← hfresh, List.mem_filter, decide_eq_true_eq] at hmem
        obtain ⟨hahead, r, hr, hle, hpasses⟩ := hreached.resumes r' hmem.1
        obtain ⟨hrahead, hseen, hback⟩ := hrs r hr
        have hlt : r.position.index < r'.position.index := by
          refine Nat.lt_of_le_of_ne hle fun heq => hmem.2 ?_
          have hsame : r'.position = r.position := by
            rw [Cursor.Position.mk.injEq]
            exact ⟨hahead.view.trans hrahead.view.symm, heq.symm⟩
          rw [hsame]
          exact hseen
        refine ⟨hahead, ?_, fun q hq => hback q (.of_passes h.advances hpasses ?_ hq)⟩
        · exact List.mem_append.mpr (.inr (List.mem_map.mpr ⟨r', hr', rfl⟩))
        · have := hahead.lt
          rw [length_settled, length_settled, List.length_drop, List.length_drop]
          omega
      obtain ⟨hcursor, hoffers⟩ := ih j hnext
      refine ⟨hcursor, fun q hq => ?_⟩
      rcases List.mem_append.mp hq with hhere | hthere
      · obtain ⟨r, hr, hoff⟩ := hreached.candidates q hhere
        exact (hrs r hr).2.2 q (offersAll_of_offers hoff)
      · exact hoffers q hthere

theorem sound_allOf (n : Nat) (h : Sound e) : Sound (allOf e n) := by
  have hstep : ∀ s : State, s.cursor.Valid → s.cursor.rest ≠ [] →
      StepSound (allOf e n).parse s ((allOf e n).step s) := by
    intro s hs hrest
    have hstart : ∀ r ∈ [(⟨s.cursor.position, s.context⟩ : Resume)], s.cursor.Ahead r.position ∧
        r.position ∈ [s.cursor.position] ∧
        ∀ q, OffersAll e (settled (s.cursor.tokens.drop r.position.index)) q →
          OffersAll e (settled s.cursor.rest) q := by
      intro r hr
      obtain rfl := List.mem_singleton.mp hr
      exact ⟨Cursor.ahead_self hrest, by simp, fun _ hq => hq⟩
    have hrun := stepAll_sound h hs (s.cursor.remaining + 1 + n) s.cursor.index hstart
    have hself : s.cursor.moveTo s.cursor.index = s.cursor := rfl
    rw [hself] at hrun
    simp only [allOf, ofStep]
    generalize stepAll e (s.cursor.remaining + 1 + n) [s.cursor.position] s.cursor
      [⟨s.cursor.position, s.context⟩] = run at hrun ⊢
    obtain ⟨⟨i, hi⟩, hoffers⟩ := hrun
    rw [hi, Cursor.restore_moveTo hs i rfl hs.index_le]
    refine stepSound_offer fun q hq t ht hvalues => ?_
    have hrounds : t.cursor.remaining = (settled s.cursor.rest).length + 1 := by
      have := congrArg List.length hvalues
      rw [Cursor.remaining_eq]
      simpa using this
    have hbound : (settled s.cursor.rest).length < t.cursor.remaining + 1 + n := by omega
    exact hoffers q (mem_of_mem_distinct hq) _ t ht hvalues hbound
  refine ⟨fun s hs => advances_parseAll h.advances _ s hs, fun s hs hrest => ?_,
    fun s hs hrest => (hstep s hs hrest).candidates, hstep⟩
  show (parseAll e _ s).Finished
  rw [parseAll_of_rest_nil _ hrest]
  exact .ok hs hrest

end Element

end ArgGrammar
