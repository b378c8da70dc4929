import ArgGrammar.Proofs.Grammar
import ArgGrammar.Proofs.Spans

/-!
# The tokens that a grammar gets to see

A grammar sees no tokens but those of the line and the values of flags `--name=value` in them. All
others that it puts into a view it has read before.

* `Stock`: tokens of a line that hold the values of all the flags among them.
* `Stock.Covers K c`: every view of the cursor is made of tokens of the stock.
* `Stock.Located K e`: an error at one of those tokens, or at an end of the line.
* `Stock.Agree K e e'`: on cursors that the stock covers, two elements do the same, they report errors
  of this kind only, and the stock still covers the cursor.

Agreement is kept by every combinator. There is one lemma for each function, about any parts that
agree; in each of them the parts are called only on cursors that the stock covers.
-/

namespace ArgGrammar

/-- Complaints that an element may make: neither about an open quote nor about input left over. -/
def Complaint.Inner (c : Complaint) : Prop := c.kind ≠ .tokenize ∧ c.kind ≠ .tooManyArguments

instance (c : Complaint) : Decidable c.Inner :=
  inferInstanceAs (Decidable (c.kind ≠ .tokenize ∧ c.kind ≠ .tooManyArguments))

/-- Tokens of a line, with the values of all flags among them. -/
structure Stock where
  line : String
  has : Token → Prop
  inline : ∀ t name value, has t → FlagWord.ofText t.value = .long name (some value) →
    has (Flags.inlineToken line t value)

namespace Stock

/-- The cursor is on the line, and every token in one of its views is in the stock. -/
structure Covers (K : Stock) (c : Cursor) : Prop where
  raw : c.raw = K.line
  views : ∀ view ∈ c.views, ∀ t ∈ view, K.has t

/-- An error that elements report: at the start of a token, or at an end of the line. -/
structure Located (K : Stock) (e : ParseError) : Prop where
  raw : e.raw = K.line
  position : e.position = 0 ∨ e.position = Text.size K.line ∨
    ∃ t, K.has t ∧ e.position = min t.start (Text.size K.line)
  inner : e.complaint.Inner

inductive Admits (K : Stock) : Outcome → Prop where
  | ok {s : State} (h : K.Covers s.cursor) : Admits K (.ok s)
  | failed {e : ParseError} {s : State} (he : K.Located e) (h : K.Covers s.cursor) :
      Admits K (.failed e s)

/-- On covered states both parses do the same, and end in a covered state. -/
def AgreeParse (K : Stock) (parse parse' : State → Outcome) : Prop :=
  ∀ s : State, K.Covers s.cursor → parse' s = parse s ∧ K.Admits (parse s)

structure Agree (K : Stock) (e e' : Element) : Prop where
  key : e'.key = e.key
  parse : K.AgreeParse e.parse e'.parse
  complete : ∀ s : State, K.Covers s.cursor → e'.complete s = e.complete s
  step : ∀ s : State, K.Covers s.cursor → e'.step s = e.step s ∧ K.Covers (e.step s).cursor

variable {K : Stock} {c : Cursor} {s : State}

/-! ## Cursors -/

namespace Covers

theorem moved (h : K.Covers c) (i : Nat) : K.Covers { c with index := i } := ⟨h.raw, h.views⟩

theorem tokens (h : K.Covers c) : ∀ t ∈ c.tokens, K.has t := by
  intro t ht
  rw [Cursor.tokens, List.getD_eq_getElem?_getD] at ht
  cases hview : c.views[c.view]? with
  | none => simp [hview] at ht
  | some view =>
    rw [hview] at ht
    exact h.views view (List.mem_of_getElem? hview) t ht

theorem rest (h : K.Covers c) : ∀ t ∈ c.rest, K.has t :=
  fun t ht => h.tokens t (List.mem_of_mem_drop ht)

theorem next (h : K.Covers c) {t : Token} {c' : Cursor} (hnext : c.next? = some (t, c')) :
    K.has t ∧ K.Covers c' := by
  obtain ⟨u, hu, heq⟩ := Option.map_eq_some_iff.mp hnext
  obtain ⟨rfl, rfl⟩ := Prod.mk.inj heq
  exact ⟨h.tokens _ (List.mem_of_getElem? hu), h.moved _⟩

theorem restore (h : K.Covers c) (p : Cursor.Position) : K.Covers (c.restore p) := by
  unfold Cursor.restore
  dsimp only
  split <;> exact ⟨h.raw, h.views⟩

theorem onTokens (h : K.Covers c) {ts : List Token} (hts : ∀ t ∈ ts, K.has t) :
    K.Covers (c.onTokens ts) := by
  refine ⟨h.raw, fun view hview => ?_⟩
  obtain rfl := List.mem_singleton.mp hview
  exact hts

theorem splice (h : K.Covers c) (p : Cursor.Position) {ts : List Token}
    (hts : ∀ t ∈ ts, K.has t) : K.Covers (c.splice p ts) := by
  refine ⟨h.raw, fun view hview t ht => ?_⟩
  rcases List.mem_append.mp hview with hold | hnew
  · exact h.views view hold t ht
  · obtain rfl := List.mem_singleton.mp hnew
    rcases List.mem_append.mp ht with hbefore | hrest
    · exact h.tokens t (List.mem_of_mem_take hbefore)
    · exact hts t hrest

theorem inline (h : K.Covers c) {t : Token} (ht : K.has t) {name value : String}
    (hword : FlagWord.ofText t.value = .long name (some value)) :
    K.Covers (Flags.inlineCursor c t value) := by
  rw [Flags.inlineCursor_eq, h.raw]
  refine h.onTokens fun u hu => ?_
  obtain rfl := List.mem_singleton.mp hu
  exact K.inline t name value ht hword

theorem errorHere (h : K.Covers c) {complaint : Complaint} (hinner : complaint.Inner) :
    K.Located (c.errorHere complaint) := by
  refine ⟨h.raw, ?_, hinner⟩
  rw [Cursor.errorHere, ParseError.located, Cursor.errorPosition, h.raw]
  dsimp only
  split
  · next t ht => exact .inr (.inr ⟨t, h.tokens t (List.mem_of_getElem? ht), rfl⟩)
  · exact .inl (Nat.zero_min _)

theorem errorAtEnd (h : K.Covers c) {complaint : Complaint} (hinner : complaint.Inner) :
    K.Located (c.errorAtEnd complaint) := by
  refine ⟨h.raw, .inr (.inl ?_), hinner⟩
  rw [Cursor.errorAtEnd, ParseError.located, h.raw]
  exact Nat.min_self _

end Covers

theorem Admits.cases {o : Outcome} (h : K.Admits o) :
    (∃ t, o = .ok t ∧ K.Covers t.cursor) ∨
      ∃ err t, o = .failed err t ∧ K.Located err ∧ K.Covers t.cursor := by
  cases h with
  | ok h => exact .inl ⟨_, rfl, h⟩
  | failed he h => exact .inr ⟨_, _, rfl, he, h⟩

theorem Admits.cursor {o : Outcome} (h : K.Admits o) : K.Covers o.state.cursor := by
  cases h with
  | ok h => exact h
  | failed _ h => exact h

theorem Covers.backTo {t : State} (h : K.Covers t.cursor) (start : State) :
    K.Covers (t.backTo start).cursor := h.restore start.cursor.position

theorem AgreeParse.andThen {parse parse' next next' : State → Outcome}
    (h : K.AgreeParse parse parse') (hnext : K.AgreeParse next next') :
    K.AgreeParse (fun s => (parse s).andThen next) (fun s => (parse' s).andThen next') := by
  intro s hs
  obtain ⟨heq, hadmits⟩ := h s hs
  dsimp only
  rw [heq]
  rcases hadmits.cases with ⟨t, ho, ht⟩ | ⟨err, t, ho, he, ht⟩
  · rw [ho]
    exact hnext t ht
  · rw [ho]
    exact ⟨rfl, .failed he ht⟩

/-! ## Trials -/

theorem agree_speculate {parse parse' : State → Outcome} {complete complete' : State → List String}
    (h : K.AgreeParse parse parse')
    (hcomplete : ∀ s : State, K.Covers s.cursor → complete' s = complete s)
    (hs : K.Covers s.cursor) :
    Element.speculate parse' complete' s = Element.speculate parse complete s ∧
      K.Covers (Element.speculate parse complete s).cursor := by
  obtain ⟨heq, hadmits⟩ := h s hs
  have hback := hadmits.cursor.restore s.cursor.position
  have hoffers := hcomplete ⟨(parse s).state.cursor.restore s.cursor.position, s.context⟩ hback
  simp only [Element.speculate, heq, hoffers, true_and]
  split <;> exact hback

theorem agree_ofTrial (key : Option String) {parse : State → Outcome}
    {complete : State → List String} (h : ∀ s : State, K.Covers s.cursor → K.Admits (parse s)) :
    K.Agree (.ofTrial key parse complete) (.ofTrial key parse complete) where
  key := rfl
  parse s hs := ⟨rfl, h s hs⟩
  complete _ _ := rfl
  step _ hs := agree_speculate (fun s hs => ⟨rfl, h s hs⟩) (fun _ _ => rfl) hs

theorem agree_ofStep {key key' : Option String} {parse parse' : State → Outcome}
    {halts halts' : State → Bool} {step step' : State → Step} (hkey : key' = key)
    (h : K.AgreeParse parse parse')
    (hstep : ∀ s : State, K.Covers s.cursor → step' s = step s ∧ K.Covers (step s).cursor) :
    K.Agree (.ofStep key parse halts step) (.ofStep key' parse' halts' step') where
  key := hkey
  parse := h
  complete s hs := congrArg Step.candidates (hstep s hs).1
  step := hstep

/-! ## Leaves -/

theorem agree_none : K.Agree .none .none := agree_ofTrial _ fun _ hs => .ok hs

theorem agree_markTrue (key : String) : K.Agree (.markTrue key) (.markTrue key) :=
  agree_ofTrial _ fun _ hs => .ok hs

theorem agree_leaf (key : String) {r : Reader}
    (hcursor : ∀ c : Cursor, K.Covers c → K.Covers (r.read c).2)
    (herror : ∀ c : Cursor, K.Covers c → ∀ e, (r.read c).1 = .error e → K.Located e) :
    K.Agree (.leaf key r) (.leaf key r) := by
  refine agree_ofTrial _ fun s hs => ?_
  split
  · have hread := hcursor s.cursor hs
    have hfail := herror s.cursor hs
    revert hread hfail
    rcases r.read s.cursor with ⟨err | v, c⟩
    · exact fun hread hfail => .failed (hfail err rfl) hread
    · exact fun hread _ => .ok hread
  · exact .failed (hs.errorAtEnd (by decide)) hs

theorem agree_ofToken (key : String) {convert : String → Except Complaint Value}
    (complete : String → List String)
    (h : ∀ text complaint, convert text = .error complaint → complaint.Inner) :
    K.Agree (.leaf key (.ofToken convert complete)) (.leaf key (.ofToken convert complete)) := by
  have hread : ∀ c : Cursor, K.Covers c →
      K.Covers ((Reader.ofToken convert complete).read c).2 ∧
        ∀ e, ((Reader.ofToken convert complete).read c).1 = .error e → K.Located e := by
    intro c hc
    simp only [Reader.ofToken, Cursor.next]
    cases hnext : c.next? with
    | none =>
      refine ⟨hc, fun e he => ?_⟩
      cases he
      exact hc.errorAtEnd (by decide)
    | some r =>
      obtain ⟨t, c'⟩ := r
      obtain ⟨-, hc'⟩ := hc.next hnext
      dsimp only
      cases hconvert : convert t.value with
      | ok v => exact ⟨hc', fun e he => by cases he⟩
      | error complaint =>
        refine ⟨hc', fun e he => ?_⟩
        cases he
        exact hc'.errorHere (h _ _ hconvert)
  exact agree_leaf key (fun c hc => (hread c hc).1) fun c hc => (hread c hc).2

theorem agree_tokenLeaf {e : Element} (h : e.TokenLeaf) : K.Agree e e := by
  have hinteger : ∀ key w, K.Agree (.leaf key (.integer w)) (.leaf key (.integer w)) := by
    intro key w
    refine agree_ofToken key _ fun text complaint hconvert => ?_
    split at hconvert <;> cases hconvert
    simp [Complaint.Inner, Complaint.kind]
  have hchoice : ∀ key fold table,
      K.Agree (.leaf key (.choice fold table)) (.leaf key (.choice fold table)) := by
    intro key fold table
    unfold Reader.choice
    refine agree_ofToken key _ fun text complaint hconvert => ?_
    split at hconvert <;> cases hconvert
    simp [Complaint.Inner, Complaint.kind]
  cases h with
  | string key => exact agree_ofToken key _ fun text complaint hconvert => by cases hconvert
  | integer key => exact hinteger key _
  | long key => exact hinteger key _
  | double key =>
    refine agree_ofToken key _ fun text complaint hconvert => ?_
    split at hconvert <;> cases hconvert
    simp [Complaint.Inner, Complaint.kind]
  | boolean key => exact hchoice ..
  | choices key table => exact hchoice ..
  | choicesFolded key table => exact hchoice ..
  | enumeration key names => exact hchoice ..

theorem agree_rest (key : String) : K.Agree (.rest key) (.rest key) := by
  have hread : ∀ c : Cursor, K.Covers c → K.Covers (Reader.joined.read c).2 ∧
      ∀ e, (Reader.joined.read c).1 = .error e → K.Located e := by
    intro c hc
    simp only [Reader.joined, Cursor.next]
    cases c.next? with
    | none =>
      refine ⟨hc, fun e he => ?_⟩
      cases he
      exact hc.errorAtEnd (by decide)
    | some r => exact ⟨hc.moved _, fun e he => by cases he⟩
  exact agree_leaf key (fun c hc => (hread c hc).1) fun c hc => (hread c hc).2

theorem agree_rawRest (key : String) : K.Agree (.rawRest key) (.rawRest key) :=
  agree_leaf key (fun _ hc => hc.moved _) fun _ _ _ he => by cases he

theorem admits_parseWords (words : List String) (hs : K.Covers s.cursor) :
    K.Admits (Literal.parseWords words s) := by
  induction words generalizing s with
  | nil => exact .ok hs
  | cons word words ih =>
    rw [Literal.parseWords]
    cases hnext : s.cursor.next? with
    | none => exact .failed (hs.errorAtEnd (by decide)) hs
    | some r =>
      obtain ⟨t, c⟩ := r
      obtain ⟨-, hc⟩ := hs.next hnext
      dsimp only
      split
      · exact ih hc
      · exact .failed (hc.errorHere (by simp [Complaint.Inner, Complaint.kind])) hc

theorem agree_literal (key : String) (value : Value) (words : List String) :
    K.Agree (.literal key value words) (.literal key value words) := by
  refine agree_ofTrial _ fun s hs => ?_
  have hwords : K.AgreeParse (Literal.parseWords words) (Literal.parseWords words) :=
    fun _ ht => ⟨rfl, admits_parseWords words ht⟩
  have hput : K.AgreeParse (fun s => .ok (s.put key value)) fun s => .ok (s.put key value) :=
    fun _ ht => ⟨rfl, .ok ht⟩
  exact (hwords.andThen hput s hs).2

/-! ## One after another -/

variable {ps : List (Element × Element)} {e e' : Element}

theorem agree_parseSeq (h : ∀ p ∈ ps, K.Agree p.1 p.2) :
    K.AgreeParse (Element.parseSeq (ps.map (·.1))) (Element.parseSeq (ps.map (·.2))) := by
  induction ps with
  | nil => exact fun s hs => ⟨rfl, .ok hs⟩
  | cons p ps ih => exact (h p (by simp)).parse.andThen (ih fun q hq => h q (by simp [hq]))

theorem agree_stepFrom (h : K.Agree e e') (hc : K.Covers c) (rs : List Resume) :
    Element.stepFrom e' c rs = Element.stepFrom e c rs ∧
      K.Covers (Element.stepFrom e c rs).cursor := by
  -- the fold goes on from the cursor of what is found so far
  have hfold : ∀ (rs : List Resume) (found : Step), K.Covers found.cursor →
      rs.foldl (fun found r => found.merge (e'.step ⟨found.cursor.restore r.position, r.context⟩))
          found =
        rs.foldl (fun found r => found.merge (e.step ⟨found.cursor.restore r.position, r.context⟩))
          found ∧
      K.Covers (rs.foldl
        (fun found r => found.merge (e.step ⟨found.cursor.restore r.position, r.context⟩))
        found).cursor := by
    intro rs
    induction rs with
    | nil => exact fun found hfound => ⟨rfl, hfound⟩
    | cons r rs ih =>
      intro found hfound
      obtain ⟨hstep, hcursor⟩ := h.step ⟨found.cursor.restore r.position, r.context⟩
        (hfound.restore r.position)
      rw [List.foldl_cons, List.foldl_cons, hstep]
      exact ih _ hcursor
  exact hfold rs _ hc

theorem agree_thread (h : ∀ p ∈ ps, K.Agree p.1 p.2) (hc : K.Covers c) (rs : List Resume) :
    Element.thread (ps.map (·.2)) c rs = Element.thread (ps.map (·.1)) c rs ∧
      K.Covers (Element.thread (ps.map (·.1)) c rs).cursor := by
  induction ps generalizing c rs with
  | nil => exact ⟨rfl, hc⟩
  | cons p ps ih =>
    obtain ⟨hhere, hcursor⟩ := agree_stepFrom (h p (by simp)) hc rs
    obtain ⟨hlater, hend⟩ := ih (fun q hq => h q (by simp [hq])) hcursor
      (Element.stepFrom p.1 c rs).resumes
    simp only [List.map_cons, Element.thread, hhere, hlater, true_and]
    split
    · exact hcursor
    · exact hend

theorem agree_stepSeq (h : ∀ p ∈ ps, K.Agree p.1 p.2) (hs : K.Covers s.cursor) :
    Element.stepSeq (ps.map (·.2)) s = Element.stepSeq (ps.map (·.1)) s ∧
      K.Covers (Element.stepSeq (ps.map (·.1)) s).cursor := by
  obtain ⟨heq, hcursor⟩ := agree_thread h hs [⟨s.cursor.position, s.context⟩]
  simp only [Element.stepSeq, heq, true_and]
  exact hcursor.restore _

theorem agree_seq (h : ∀ p ∈ ps, K.Agree p.1 p.2) :
    K.Agree (.seq (ps.map (·.1))) (.seq (ps.map (·.2))) :=
  agree_ofStep rfl (agree_parseSeq h) fun _ hs => agree_stepSeq h hs

theorem agree_times (n : Nat) (h : K.Agree e e') : K.Agree (.times n e) (.times n e') := by
  have hmany : ∀ p ∈ List.replicate n (e, e'), K.Agree p.1 p.2 := by
    intro p hp
    obtain rfl := (List.mem_replicate.mp hp).2
    exact h
  have hparse := agree_parseSeq hmany
  have hstep := fun (s : State) (hs : K.Covers s.cursor) => agree_stepSeq hmany hs
  simp only [List.map_replicate] at hparse hstep
  exact agree_ofStep h.key hparse hstep

/-! ## Elements that may be skipped -/

theorem recordDefault_eq (h : K.Agree e e') (default : Option Value) (s : State) :
    Element.recordDefault e' default s = Element.recordDefault e default s := by
  simp only [Element.recordDefault, h.key]

theorem covers_recordDefault (hs : K.Covers s.cursor) (default : Option Value) :
    K.Covers (Element.recordDefault e default s).cursor := by
  unfold Element.recordDefault
  split <;> exact hs

theorem agree_parseOptional (h : K.Agree e e') (default : Option Value) (weak : Bool) :
    K.AgreeParse (Element.parseOptional e default weak) (Element.parseOptional e' default weak) := by
  intro s hs
  obtain ⟨heq, hadmits⟩ := h.parse s hs
  simp only [Element.parseOptional, heq, recordDefault_eq h, true_and]
  split
  · rcases hadmits.cases with ⟨t, ho, ht⟩ | ⟨err, t, ho, he, ht⟩
    · rw [ho]
      exact .ok ht
    · rw [ho]
      dsimp only
      split
      · exact .ok (covers_recordDefault (ht.backTo s) default)
      · exact .failed he ht
  · exact .ok (covers_recordDefault hs default)

theorem agree_stepOptional (h : K.Agree e e') (default : Option Value) (weak : Bool)
    (hs : K.Covers s.cursor) :
    Element.stepOptional e' default weak s = Element.stepOptional e default weak s ∧
      K.Covers (Element.stepOptional e default weak s).cursor := by
  obtain ⟨heq, hadmits⟩ := h.parse s hs
  have hback := hadmits.cursor.restore s.cursor.position
  obtain ⟨hstep, hcursor⟩ :=
    h.step ⟨(e.parse s).state.cursor.restore s.cursor.position, s.context⟩ hback
  simp only [Element.stepOptional, heq, recordDefault_eq h, hstep, true_and]
  split
  · split
    · split
      · exact hcursor
      · exact hback
    · split <;> exact hcursor.restore _
  · exact hs

theorem agree_optional (h : K.Agree e e') (default : Option Value) (weak : Bool) :
    K.Agree (.optional e default weak) (.optional e' default weak) :=
  agree_ofStep h.key (agree_parseOptional h default weak) fun _ hs =>
    agree_stepOptional h default weak hs

/-! ## Alternatives -/

theorem agree_parseFirst (h : ∀ p ∈ ps, K.Agree p.1 p.2) (start : State) {last : ParseError}
    (hlast : K.Located last) (hs : K.Covers s.cursor) :
    Element.parseFirst start (ps.map (·.2)) last s =
        Element.parseFirst start (ps.map (·.1)) last s ∧
      K.Admits (Element.parseFirst start (ps.map (·.1)) last s) := by
  induction ps generalizing last s with
  | nil => exact ⟨rfl, .failed hlast hs⟩
  | cons p ps ih =>
    obtain ⟨heq, hadmits⟩ := (h p (by simp)).parse s hs
    simp only [List.map_cons, Element.parseFirst, heq]
    rcases hadmits.cases with ⟨t, ho, ht⟩ | ⟨err, t, ho, he, ht⟩
    · rw [ho]
      exact ⟨rfl, .ok ht⟩
    · rw [ho]
      exact ih (fun q hq => h q (by simp [hq])) he (ht.backTo start)

theorem agree_stepFirst (h : ∀ p ∈ ps, K.Agree p.1 p.2) (start : Cursor.Position)
    (context : Context) (hc : K.Covers c) :
    Element.stepFirst start context (ps.map (·.2)) c =
        Element.stepFirst start context (ps.map (·.1)) c ∧
      K.Covers (Element.stepFirst start context (ps.map (·.1)) c).cursor := by
  induction ps generalizing c with
  | nil => exact ⟨rfl, hc⟩
  | cons p ps ih =>
    obtain ⟨hstep, hcursor⟩ :=
      (h p (by simp)).step ⟨c.restore start, context⟩ (hc.restore start)
    obtain ⟨hothers, hend⟩ := ih (fun q hq => h q (by simp [hq])) hcursor
    simp only [List.map_cons, Element.stepFirst, hstep, hothers, true_and]
    exact hend

theorem agree_firstOf (h : ∀ p ∈ ps, K.Agree p.1 p.2) :
    K.Agree (.firstOf (ps.map (·.1))) (.firstOf (ps.map (·.2))) := by
  refine agree_ofStep rfl (fun s hs => ?_) fun s hs => ?_
  · exact agree_parseFirst h s (hs.errorHere (by decide)) hs
  · obtain ⟨heq, hcursor⟩ := agree_stepFirst h s.cursor.position s.context hs
    simp only [heq, true_and]
    exact hcursor.restore _

/-! ## Repetition -/

theorem agree_parseAll (h : K.Agree e e') (n : Nat) :
    K.AgreeParse (Element.parseAll e n) (Element.parseAll e' n) := by
  induction n with
  | zero => exact fun s hs => ⟨rfl, .ok hs⟩
  | succ n ih =>
    intro s hs
    obtain ⟨heq, hadmits⟩ := h.parse s hs
    simp only [Element.parseAll, heq]
    split
    · rcases hadmits.cases with ⟨t, ho, ht⟩ | ⟨err, t, ho, he, ht⟩
      · rw [ho]
        dsimp only
        split
        · exact ⟨rfl, .ok ht⟩
        · exact ih t ht
      · rw [ho]
        exact ⟨rfl, .failed he ht⟩
    · exact ⟨rfl, .ok hs⟩

theorem agree_stepAll (h : K.Agree e e') (n : Nat) (seen : List Cursor.Position) (hc : K.Covers c)
    (rs : List Resume) :
    Element.stepAll e' n seen c rs = Element.stepAll e n seen c rs ∧
      K.Covers (Element.stepAll e n seen c rs).2 := by
  induction n generalizing seen c rs with
  | zero => exact ⟨rfl, hc⟩
  | succ n ih =>
    obtain ⟨hhere, hcursor⟩ := agree_stepFrom h hc rs
    rw [Element.stepAll, Element.stepAll, hhere]
    split
    · exact ⟨rfl, hc⟩
    · dsimp only
      obtain ⟨hlater, hend⟩ := ih (seen ++ (((Element.stepFrom e c rs).resumes.filter
        (·.position ∉ seen)).map (·.position))) hcursor
        ((Element.stepFrom e c rs).resumes.filter (·.position ∉ seen))
      rw [hlater]
      exact ⟨rfl, hend⟩

theorem agree_allOf (n : Nat) (h : K.Agree e e') : K.Agree (.allOf e n) (.allOf e' n) := by
  refine agree_ofStep h.key (fun s hs => agree_parseAll h _ s hs) fun s hs => ?_
  obtain ⟨heq, hcursor⟩ := agree_stepAll h (s.cursor.remaining + 1 + n)
    [s.cursor.position] hs [⟨s.cursor.position, s.context⟩]
  simp only [heq, true_and]
  exact hcursor.restore _

theorem agree_onlyOne (h : K.Agree e e') : K.Agree (.onlyOne e) (.onlyOne e') where
  key := h.key
  parse := by
    refine h.parse.andThen fun s hs => ?_
    rw [h.key]
    refine ⟨rfl, ?_⟩
    split
    · split
      · exact .failed (hs.errorHere (by simp [Complaint.Inner, Complaint.kind])) hs
      · exact .ok hs
    · exact .ok hs
  complete := h.complete
  step := h.step

/-! ## Flags -/

variable {f f' : Flags}

theorem admits_string (name : String) (hs : K.Covers s.cursor) :
    K.Admits ((Element.string name).parse s) := ((agree_tokenLeaf (.string name)).parse s hs).2

theorem admits_onCursor (hc : K.Covers c) {o : Outcome} (h : K.Admits o) :
    K.Admits (Flags.onCursor c o) := by
  cases h with
  | ok _ => exact .ok hc
  | failed he _ => exact .failed he hc

theorem agree_parseLong (hf : Flags.Related K.Agree f f') {t : Token} (ht : K.has t) {name : String}
    {inline : Option String} (hword : FlagWord.ofText t.value = .long name inline)
    (hs : K.Covers s.cursor) :
    f'.parseLong name inline t s = f.parseLong name inline t s ∧
      K.Admits (f.parseLong name inline t s) := by
  unfold Flags.parseLong
  rcases hf.long name with ⟨h, h'⟩ | ⟨e, e', h, h', he⟩
  · rw [h, h', hf.unknownLong]
    refine ⟨rfl, ?_⟩
    dsimp only
    split
    · exact .failed (hs.errorHere (by simp [Complaint.Inner, Complaint.kind])) hs
    · exact .ok hs
    · exact .ok hs
    · exact .ok hs
    · exact .ok hs
    · exact admits_string name hs
  · rw [h, h']
    cases inline with
    | none => exact he.parse s hs
    | some value =>
      obtain ⟨heq, hadmits⟩ :=
        he.parse ⟨Flags.inlineCursor s.cursor t value, s.context⟩ (hs.inline ht hword)
      dsimp only
      rw [heq]
      exact ⟨rfl, admits_onCursor hs hadmits⟩

theorem agree_parseShort (hf : Flags.Related K.Agree f f') (name : Char) :
    K.AgreeParse (f.parseShort name) (f'.parseShort name) := by
  intro s hs
  unfold Flags.parseShort
  rcases hf.short name with ⟨h, h'⟩ | ⟨e, e', h, h', he⟩
  · rw [h, h', hf.unknownShort]
    refine ⟨rfl, ?_⟩
    dsimp only
    split
    · exact .failed (hs.errorHere (by simp [Complaint.Inner, Complaint.kind])) hs
    · exact .ok hs
    · exact .ok hs
    · exact admits_string _ hs
  · rw [h, h']
    exact he.parse s hs

theorem agree_parseGroup (hf : Flags.Related K.Agree f f') (group : List Char) :
    K.AgreeParse (f.parseGroup group) (f'.parseGroup group) := by
  induction group with
  | nil => exact fun s hs => ⟨rfl, .ok hs⟩
  | cons name group ih => exact (agree_parseShort hf name).andThen ih

theorem agree_scan (hf : Flags.Related K.Agree f f') (n : Nat) (hs : K.Covers s.cursor) :
    f'.scan n s = f.scan n s ∧ K.Admits (f.scan n s).1 ∧ ∀ t ∈ (f.scan n s).2, K.has t := by
  induction n generalizing s with
  | zero => exact ⟨rfl, .ok hs, by simp [Flags.scan]⟩
  | succ n ih =>
    rw [Flags.scan, Flags.scan]
    cases hnext : s.cursor.next? with
    | none => exact ⟨rfl, .ok hs, by simp⟩
    | some r =>
      obtain ⟨t, c⟩ := r
      obtain ⟨ht, hc⟩ := hs.next hnext
      dsimp only
      cases hword : FlagWord.ofText t.value with
      | positional =>
        obtain ⟨heq, hadmits, htokens⟩ := ih (s := ⟨c, s.context⟩) hc
        simp only [hf.anchored, heq, true_and]
        split
        · exact ⟨.ok hs, by simp⟩
        · refine ⟨hadmits, fun u hu => ?_⟩
          rcases List.mem_cons.mp hu with rfl | hu
          · exact ht
          · exact htokens u hu
      | long name inline =>
        obtain ⟨heq, hadmits⟩ := agree_parseLong (s := ⟨c, s.context⟩) hf ht hword hc
        dsimp only
        rw [heq]
        rcases hadmits.cases with ⟨u, ho, hu⟩ | ⟨err, u, ho, he, hu⟩
        · rw [ho]
          exact ih hu
        · rw [ho]
          exact ⟨rfl, .failed he hu, by simp⟩
      | short group =>
        obtain ⟨heq, hadmits⟩ := agree_parseGroup hf group ⟨c, s.context⟩ hc
        dsimp only
        rw [heq]
        rcases hadmits.cases with ⟨u, ho, hu⟩ | ⟨err, u, ho, he, hu⟩
        · rw [ho]
          exact ih hu
        · rw [ho]
          exact ⟨rfl, .failed he hu, by simp⟩

theorem agree_parseFlags (hf : Flags.Related K.Agree f f') (h : K.Agree e e') :
    K.AgreeParse (f.parse e) (f'.parse e') := by
  intro s hs
  obtain ⟨hscan, hadmits, htokens⟩ := agree_scan hf s.cursor.remaining hs
  rw [Flags.parse, Flags.parse, hscan]
  revert hadmits htokens
  rcases f.scan s.cursor.remaining s with ⟨o, positional⟩
  intro hadmits htokens
  rcases hadmits.cases with ⟨t, rfl, ht⟩ | ⟨err, t, rfl, he, ht⟩
  · simp only [Outcome.andThen, hf.anchored]
    split
    · exact h.parse t ht
    · obtain ⟨heq, hinner⟩ :=
        h.parse ⟨t.cursor.onTokens positional, t.context⟩ (ht.onTokens htokens)
      rw [heq]
      refine ⟨rfl, admits_onCursor ?_ hinner⟩
      split
      · exact ht.splice _ hinner.cursor.rest
      · exact ht
  · exact ⟨rfl, .failed he ht⟩

theorem agree_completeInline (hf : Flags.Related K.Agree f f') {t : Token} (ht : K.has t)
    {name value : String} (hword : FlagWord.ofText t.value = .long name (some value))
    (hs : K.Covers s.cursor) :
    f'.completeInline name value t s = f.completeInline name value t s := by
  unfold Flags.completeInline
  rcases hf.long name with ⟨h, h'⟩ | ⟨e, e', h, h', he⟩
  · rw [h, h']
  · rw [h, h']
    dsimp only
    rw [he.complete ⟨Flags.inlineCursor s.cursor t value, s.context⟩ (hs.inline ht hword)]

/-- A scan that goes on does so with a cursor that the stock covers. -/
def Carries (K : Stock) (p : Flags.Progress) : Prop := ∀ s, p = .going s → K.Covers s.cursor

theorem agree_completeValue (h : K.Agree e e') (hs : K.Covers s.cursor) :
    Flags.completeValue e' s = Flags.completeValue e s ∧ K.Carries (Flags.completeValue e s) := by
  obtain ⟨heq, hadmits⟩ := h.parse s hs
  have hback := hadmits.cursor.restore s.cursor.position
  have hoffers :=
    h.complete ⟨(e.parse s).state.cursor.restore s.cursor.position, s.context⟩ hback
  simp only [Flags.completeValue, heq, hoffers, true_and]
  intro t ht
  split at ht
  · cases ht
    exact hadmits.cursor
  · cases ht

theorem carries_skipValue (policy : UnknownFlag) (hs : K.Covers s.cursor) :
    K.Carries (Flags.skipValue policy s) := by
  intro t ht
  unfold Flags.skipValue at ht
  split at ht
  · next r c hnext =>
    split at ht
    · cases ht
      exact (hs.next hnext).2
    · cases ht
  · cases ht
    exact hs

theorem agree_completeGroup (hf : Flags.Related K.Agree f f') (group : List Char) (hs : K.Covers s.cursor) :
    f'.completeGroup group s = f.completeGroup group s ∧ K.Carries (f.completeGroup group s) := by
  induction group generalizing s with
  | nil =>
    refine ⟨rfl, fun t ht => ?_⟩
    cases ht
    exact hs
  | cons name group ih =>
    rw [Flags.completeGroup, Flags.completeGroup]
    rcases hf.short name with ⟨h, h'⟩ | ⟨e, e', h, h', he⟩
    · have hcarries := carries_skipValue f.unknownShort hs
      rw [h, h', hf.unknownShort]
      dsimp only
      cases hp : Flags.skipValue f.unknownShort s with
      | reached candidates => exact ⟨rfl, fun t ht => by cases ht⟩
      | going t => exact ih (hcarries t hp)
    · obtain ⟨heq, hcarries⟩ := agree_completeValue he hs
      rw [h, h']
      dsimp only
      rw [heq]
      cases hp : Flags.completeValue e s with
      | reached candidates => exact ⟨rfl, fun t ht => by cases ht⟩
      | going t => exact ih (hcarries t hp)

theorem longNames_eq (hf : Flags.Related K.Agree f f') (typed : String) :
    f'.longNames typed = f.longNames typed := by
  simp only [Flags.longNames, hf.names]

theorem agree_completeScan (hf : Flags.Related K.Agree f f') (h : K.Agree e e') (n : Nat)
    {positional : List Token} (htokens : ∀ t ∈ positional, K.has t) (hs : K.Covers s.cursor) :
    f'.completeScan e' n positional s = f.completeScan e n positional s := by
  induction n generalizing positional s with
  | zero => exact h.complete ⟨_, s.context⟩ (hs.onTokens htokens)
  | succ n ih =>
    rw [Flags.completeScan, Flags.completeScan]
    cases hnext : s.cursor.next? with
    | none => exact h.complete ⟨_, s.context⟩ (hs.onTokens htokens)
    | some r =>
      obtain ⟨t, c⟩ := r
      obtain ⟨ht, hc⟩ := hs.next hnext
      dsimp only
      cases hword : FlagWord.ofText t.value with
      | positional =>
        have hmore : ∀ u ∈ positional ++ [t], K.has u := by
          intro u hu
          rcases List.mem_append.mp hu with hold | hnew
          · exact htokens u hold
          · obtain rfl := List.mem_singleton.mp hnew
            exact ht
        simp only [hf.anchored, longNames_eq hf, h.complete s hs,
          ih (s := ⟨c, s.context⟩) hmore hc]
      | long name inline =>
        cases inline with
        | none =>
          simp only [longNames_eq hf]
          split
          · rcases hf.long name with ⟨hl, hl'⟩ | ⟨v, v', hl, hl', hv⟩
            · have hcarries := carries_skipValue (s := ⟨c, s.context⟩) f.unknownLong hc
              rw [hl, hl', hf.unknownLong]
              dsimp only
              cases hp : Flags.skipValue f.unknownLong ⟨c, s.context⟩ with
              | reached candidates => rfl
              | going u => exact ih htokens (hcarries u hp)
            · obtain ⟨heq, hcarries⟩ := agree_completeValue (s := ⟨c, s.context⟩) hv hc
              rw [hl, hl']
              dsimp only
              rw [heq]
              cases hp : Flags.completeValue v ⟨c, s.context⟩ with
              | reached candidates => rfl
              | going u => exact ih htokens (hcarries u hp)
          · rfl
        | some value =>
          simp only [ih (s := ⟨c, s.context⟩) htokens hc,
            agree_completeInline (s := ⟨c, s.context⟩) hf ht hword hc]
      | short group =>
        dsimp only
        split
        · obtain ⟨heq, hcarries⟩ := agree_completeGroup (s := ⟨c, s.context⟩) hf group hc
          rw [heq]
          cases hp : f.completeGroup group ⟨c, s.context⟩ with
          | reached candidates => rfl
          | going u => exact ih htokens (hcarries u hp)
        · rfl

theorem agree_around (hf : Flags.Related K.Agree f f') (h : K.Agree e e') :
    K.Agree (f.around e) (f'.around e') := by
  have hcomplete : ∀ s : State, K.Covers s.cursor → f'.complete e' s = f.complete e s :=
    fun s hs => agree_completeScan hf h _ (by simp) hs
  refine ⟨rfl, agree_parseFlags hf h, hcomplete, fun s hs => ?_⟩
  obtain ⟨heq, hcursor⟩ := agree_speculate (agree_parseFlags hf h) hcomplete hs
  show f'.step e' s = f.step e s ∧ K.Covers (f.step e s).cursor
  simp only [Flags.step, heq, hf.anchored, longNames_eq hf, true_and]
  split <;> exact hcursor

end Stock

end ArgGrammar
