import ArgGrammar.Proofs.Commitment
import ArgGrammar.Proofs.Placement
import ArgGrammar.Proofs.Recording

/-!
# What a grammar accepts

A *reading* says, without cursors, which values a grammar accepts, what it records for them and which
values it leaves. The reading of a grammar is put together from those of its parts.

* `Reading`, with `Reading.Next`, `Reading.andThen`, `Reading.Optionally`, `Reading.Each`,
  `Reading.oneOf` and `Reading.Scan`: what leaves, sequences, leaves that may be skipped, repetitions,
  alternatives and flags read.
* `Realizes parse R`: the runs of `parse` that succeed are those that `R` allows. There is one lemma
  for each of these parts.
* `Parser.parse_eq_ok_iff`: the lines that a parser accepts.
-/

namespace ArgGrammar

/-- The values that are not read yet. -/
def State.values (s : State) : List String := s.cursor.rest.map (·.value)

/-- Which values are accepted, what is recorded for them, and which values are left. -/
abbrev Reading := List String → List (String × Value) → List String → Prop

namespace Reading

/-- Nothing is accepted. -/
def never : Reading := fun _ _ _ => False

/-- Nothing is read or recorded. -/
def nothing : Reading := fun vs records rest => records = [] ∧ rest = vs

/-- Nothing is read, and a value is recorded. -/
def record (key : String) (x : Value) : Reading := fun vs records rest =>
  records = [(key, x)] ∧ rest = vs

/-- The next value is read, and what it means is recorded. -/
inductive Next (key : String) (means : String → Value → Prop) : Reading where
  | intro {v : String} {x : Value} {vs : List String} (h : means v x) :
      Next key means (v :: vs) [(key, x)] vs

/-- All values are read, and recorded as one text with single blanks between them. -/
inductive Joined (key : String) : Reading where
  | intro {v : String} {vs : List String} :
      Joined key (v :: vs) [(key, .text (Text.joinWith " " (v :: vs)))] []

/-- One reading after another. -/
def andThen (R S : Reading) : Reading := fun vs records rest =>
  ∃ first ws later, R vs first ws ∧ S ws later rest ∧ records = first ++ later

/-- A reading of some values on their own; the values at hand are left. -/
def within (own : List String) (R : Reading) : Reading := fun vs records rest =>
  (∃ left, R own records left) ∧ rest = vs

/-- One of several readings. -/
def oneOf (readings : List Reading) : Reading := fun vs records rest =>
  ∃ R ∈ readings, R vs records rest

/-- The next value is read if it has a meaning. Otherwise it is left and a default is recorded; unless
this is `weak`, other values have to follow then. -/
inductive Optionally (key : String) (means : String → Value → Prop) (default : Option Value)
    (weak : Bool) : Reading where
  | absent : Optionally key means default weak [] (default.toList.map (key, ·)) []
  | read {v : String} {x : Value} {vs : List String} (h : means v x) :
      Optionally key means default weak (v :: vs) [(key, x)] vs
  | skipped {v : String} {vs : List String} (h : ∀ x, ¬ means v x) (hskip : weak = true ∨ vs ≠ []) :
      Optionally key means default weak (v :: vs) (default.toList.map (key, ·)) (v :: vs)

/-- All values are read one by one. -/
inductive Each (key : String) (means : String → Value → Prop) : Reading where
  | nil : Each key means [] [] []
  | cons {v : String} {x : Value} {vs rest : List String} {records : List (String × Value)}
      (h : means v x) (hs : Each key means vs records rest) :
      Each key means (v :: vs) ((key, x) :: records) rest

/-- A flag without a definition, perhaps with a value behind an equals sign. -/
def unknown (policy : UnknownFlag) (name : String) (inline : Option String) : Reading :=
  match policy, inline with
  | .reject, _ => never
  | .ignore, _ => nothing
  | .acceptNonvalue, none => record name (.bool true)
  | .acceptValue, none => Next name fun v x => x = .text v
  | .acceptNonvalue, some value => record name (.text value)
  | .acceptValue, some value => record name (.text value)

/-- A group of flags of one character, read one after another. -/
def group (short : Char → Reading) : List Char → Reading
  | [] => nothing
  | c :: cs => (short c).andThen (group short cs)

/-- A scan for flags: they may read the values behind them, and the positional values are left. -/
inductive Scan (short : Char → Reading) (long : String → Option String → Reading) : Reading where
  | done : Scan short long [] [] []
  | positional {v : String} {vs rest : List String} {records : List (String × Value)}
      (hword : FlagWord.ofText v = .positional) (h : Scan short long vs records rest) :
      Scan short long (v :: vs) records (v :: rest)
  | long {v name : String} {inline : Option String} {vs ws rest : List String}
      {first later : List (String × Value)} (hword : FlagWord.ofText v = .long name inline)
      (hflag : long name inline vs first ws) (h : Scan short long ws later rest) :
      Scan short long (v :: vs) (first ++ later) rest
  | short {v : String} {cs : List Char} {vs ws rest : List String}
      {first later : List (String × Value)} (hword : FlagWord.ofText v = .short cs)
      (hflag : group short cs vs first ws) (h : Scan short long ws later rest) :
      Scan short long (v :: vs) (first ++ later) rest

end Reading

/-! ## Runs -/

/-- The runs of the parse that succeed are those that the reading allows. -/
structure Realizes (parse : State → Outcome) (R : Reading) : Prop where
  advances : Advances parse
  sound : ∀ {s t}, s.cursor.Valid → parse s = .ok t →
    ∃ records, R s.values records t.values ∧ t.context = s.context.putAll records
  complete : ∀ {s records rest}, s.cursor.Valid → R s.values records rest →
    ∃ t, parse s = .ok t ∧ t.values = rest ∧ t.context = s.context.putAll records

variable {f g : State → Outcome} {R S : Reading} {s t : State} {key : String}

theorem State.values_of_rest_cons {a : Token} {as : List Token} (h : s.cursor.rest = a :: as) :
    s.values = a.value :: s.behind.values := by
  rw [values, values, behind, Cursor.rest_behind h, h, List.map_cons]

theorem State.exists_of_values {v : String} {vs : List String} (h : s.values = v :: vs) :
    ∃ a as, s.cursor.rest = a :: as ∧ a.value = v ∧ s.behind.values = vs := by
  obtain ⟨a, as, ha, hv, hvs⟩ := List.map_eq_cons_iff.mp h
  refine ⟨a, as, ha, hv, ?_⟩
  rw [values, behind, Cursor.rest_behind ha]
  exact hvs

theorem State.values_of_rest_nil (h : s.cursor.rest = []) : s.values = [] := by
  rw [values, h, List.map_nil]

theorem State.values_put (s : State) (key : String) (x : Value) : (s.put key x).values = s.values := rfl

theorem State.rest_of_values_nil (h : s.values = []) : s.cursor.rest = [] := List.map_eq_nil_iff.mp h

theorem Realizes.congr (h : Realizes g R) (hfg : ∀ s, f s = g s) : Realizes f R :=
  funext hfg ▸ h

/-- In front of the values `vs`, the outcome is a success with the only result that the reading allows,
or a failure where it allows none. -/
inductive Decided (R : Reading) (vs : List String) (context : Context) : Outcome → Prop where
  | ok {t : State} (records : List (String × Value)) (hcontext : t.context = context.putAll records)
      (hreads : R vs records t.values) (honly : ∀ q ws, R vs q ws → q = records ∧ ws = t.values) :
      Decided R vs context (.ok t)
  | failed {err : ParseError} {t : State} (h : ∀ q ws, ¬ R vs q ws) :
      Decided R vs context (.failed err t)

theorem Realizes.of_decided (ha : Advances f)
    (h : ∀ s : State, s.cursor.Valid → Decided R s.values s.context (f s)) : Realizes f R where
  advances := ha
  sound {s t} hs hok := by
    have hdecided := h s hs
    rw [hok] at hdecided
    cases hdecided with
    | ok records hcontext hreads _ => exact ⟨records, hreads, hcontext⟩
  complete {s q ws} hs hreads := by
    have hdecided := h s hs
    cases hparse : f s with
    | ok t =>
      rw [hparse] at hdecided
      cases hdecided with
      | ok records hcontext _ honly =>
        obtain ⟨rfl, rfl⟩ := honly _ _ hreads
        exact ⟨t, rfl, rfl, hcontext⟩
    | failed err t =>
      rw [hparse] at hdecided
      cases hdecided with
      | failed hnone => exact absurd hreads (hnone _ _)

theorem realizes_ok : Realizes .ok .nothing :=
  .of_decided (fun _ hs => .refl hs) fun _ _ => .ok [] rfl ⟨rfl, rfl⟩ fun _ _ => id

theorem realizes_never (h : ∀ s, ∃ err, f s = .failed err s) : Realizes f .never := by
  refine .of_decided (fun s hs => ?_) fun s _ => ?_ <;> obtain ⟨err, hfail⟩ := h s <;> rw [hfail]
  · exact .refl hs
  · exact .failed fun _ _ => id

theorem realizes_put (key : String) (x : Value) :
    Realizes (fun s => .ok (s.put key x)) (.record key x) :=
  .of_decided (fun _ hs => State.leads_put hs key x) fun _ _ =>
    .ok [(key, x)] rfl ⟨rfl, rfl⟩ fun _ _ => id

theorem Realizes.andThen (hf : Realizes f R) (hg : Realizes g S) :
    Realizes (fun s => (f s).andThen g) (R.andThen S) where
  advances s hs := leads_andThen (hf.advances s hs) hg.advances
  sound {s u} hs hok := by
    obtain ⟨t, ht, hu⟩ := Outcome.of_andThen_ok hok
    obtain ⟨first, hfirst, hcontext⟩ := hf.sound hs ht
    obtain ⟨later, hlater, hcontext'⟩ := hg.sound (hf.advances.leads hs ht).cursor.valid hu
    refine ⟨first ++ later, ⟨first, t.values, later, hfirst, hlater, rfl⟩, ?_⟩
    rw [hcontext', hcontext, Context.putAll_append]
  complete {s records rest} hs h := by
    obtain ⟨first, ws, later, hfirst, hlater, rfl⟩ := h
    obtain ⟨t, ht, rfl, hcontext⟩ := hf.complete hs hfirst
    obtain ⟨u, hu, hrest, hcontext'⟩ := hg.complete (hf.advances.leads hs ht).cursor.valid hlater
    refine ⟨u, ?_, hrest, ?_⟩
    · simp only [ht, Outcome.andThen, hu]
    · rw [hcontext', hcontext, Context.putAll_append]

namespace Element

/-! ## Leaves -/

variable {means : String → Value → Prop} {convert : String → Except Complaint Value}
  {complete : String → List String}

theorem eq_of_means (h : ∀ v x, convert v = .ok x ↔ means v x) {v : String} {x y : Value}
    (hx : convert v = .ok x) (hy : means v y) : y = x :=
  Except.ok.inj (((h v y).mpr hy).symm.trans hx)

theorem not_means (h : ∀ v x, convert v = .ok x ↔ means v x) {v : String} {complaint : Complaint}
    (hx : convert v = .error complaint) (y : Value) : ¬ means v y := by
  intro hy
  rw [(h v y).mpr hy] at hx
  cases hx

theorem realizes_leaf (h : ∀ v x, convert v = .ok x ↔ means v x) :
    Realizes (leaf key (.ofToken convert complete)).parse (.Next key means) := by
  refine .of_decided (advances_leaf key (follows_ofToken convert complete)) fun s _ => ?_
  cases hrest : s.cursor.rest with
  | nil =>
    rw [parse_leaf_of_rest_nil hrest, State.values_of_rest_nil hrest]
    exact .failed fun q ws hR => by cases hR
  | cons a as =>
    rw [parse_leaf_of_rest_cons hrest, State.values_of_rest_cons hrest]
    cases hx : convert a.value with
    | ok x =>
      refine .ok [(key, x)] rfl (.intro ((h _ _).mp hx)) ?_
      rintro q ws ⟨hy⟩
      obtain rfl := eq_of_means h hx hy
      exact ⟨rfl, rfl⟩
    | error complaint =>
      refine .failed ?_
      rintro q ws ⟨hy⟩
      exact not_means h hx _ hy

theorem integer_iff (w : Width) (v : String) (x : Value) :
    (match Numeral.read w v with
      | .ok z => .ok (.int z)
      | .error fault => .error (.notInteger w v fault) : Except Complaint Value) = .ok x ↔
      ∃ z, Numeral.read w v = .ok z ∧ x = .int z := by
  cases Numeral.read w v <;> simp [eq_comm]

theorem realizes_string (key : String) :
    Realizes (string key).parse (.Next key fun v x => x = .text v) :=
  realizes_leaf fun v x => by simp [eq_comm]

theorem realizes_integer (key : String) :
    Realizes (integer key).parse
      (.Next key fun v x => ∃ z, Numeral.read .word32 v = .ok z ∧ x = .int z) :=
  realizes_leaf (integer_iff .word32)

theorem realizes_word (key : String) (x : Value) (word : String) :
    Realizes (literal key x [word]).parse
      (.Next key fun v y => Text.lower v = Text.lower word ∧ y = x) := by
  refine .of_decided (advances_literal key x [word]) fun s _ => ?_
  cases hrest : s.cursor.rest with
  | nil =>
    have hnext := Cursor.next?_of_rest_nil hrest
    rw [State.values_of_rest_nil hrest]
    simp only [literal, ofTrial, Literal.parseWords, hnext]
    exact .failed fun q ws hR => by cases hR
  | cons a as =>
    rw [parse_word hrest, State.values_of_rest_cons hrest]
    split
    · next hword =>
      refine .ok [(key, x)] rfl (.intro ⟨hword, rfl⟩) ?_
      rintro q ws ⟨-, rfl⟩
      exact ⟨rfl, rfl⟩
    · next hword =>
      refine .failed ?_
      rintro q ws ⟨hother, -⟩
      exact hword hother

theorem realizes_rest (key : String) : Realizes (rest key).parse (.Joined key) := by
  refine .of_decided (advances_leaf key follows_joined) fun s _ => ?_
  cases hrest : s.cursor.rest with
  | nil =>
    rw [rest, parse_leaf_of_rest_nil hrest, State.values_of_rest_nil hrest]
    exact .failed fun q ws hR => by cases hR
  | cons a as =>
    let t : State := ⟨s.cursor.moveTo s.cursor.tokens.length, s.context⟩
    have hparse : (rest key).parse s = .ok (t.put key (.text (Text.joinWith " " s.values))) := by
      simp only [rest, leaf, ofTrial, if_pos (Cursor.hasNext_of_rest_cons hrest), Reader.joined,
        Cursor.next, Cursor.next?_of_rest_cons hrest]
      rfl
    have hend : t.values = [] := by
      rw [State.values, Cursor.rest_moveTo, List.drop_length, List.map_nil]
    rw [hparse, State.values_of_rest_cons hrest]
    refine .ok _ rfl (by rw [State.values_put, hend]; exact .intro) ?_
    rintro q ws ⟨⟩
    exact ⟨rfl, hend.symm⟩

/-! ## Sequences -/

theorem realizes_parseSeq_single {e : Element} (he : Realizes e.parse R) :
    Realizes (parseSeq [e]) R :=
  he.congr fun _ => Outcome.andThen_ok _

theorem realizes_parseSeq_cons {e : Element} {es : List Element} (he : Realizes e.parse R)
    (hes : Realizes (parseSeq es) S) : Realizes (parseSeq (e :: es)) (R.andThen S) := he.andThen hes

/-! ## Leaves that may be skipped -/

section

variable {default : Option Value} {weak : Bool} {e : Element}

theorem backTo_behind (hs : s.cursor.Valid) : s.behind.backTo s = s := by
  have hcursor : s.behind.cursor.restore s.cursor.position = s.cursor :=
    Cursor.restore_position hs List.prefix_rfl
  obtain ⟨cursor, context⟩ := s
  exact congrArg₂ State.mk hcursor (Context.rollback_mark context)

theorem exists_skipped (e : Element) (default : Option Value) (hkey : e.key = some key) (s : State) :
    ∃ t, recordDefault e default s = t ∧ t.values = s.values ∧
      t.context = s.context.putAll (default.toList.map (key, ·)) := by
  refine ⟨_, rfl, ?_, ?_⟩
  · rw [State.values, recordDefault_cursor, State.values]
  · rw [context_recordDefault, hkey]
    cases default <;> rfl

theorem realizes_optional (h : ∀ v x, convert v = .ok x ↔ means v x) :
    Realizes (optional (leaf key (.ofToken convert complete)) default weak).parse
      (.Optionally key means default weak) := by
  generalize he : leaf key (.ofToken convert complete) = e
  have ha : Advances e.parse := he ▸ advances_leaf key (follows_ofToken convert complete)
  refine .of_decided (advances_parseOptional default weak ha) fun s hs => ?_
  obtain ⟨t, ht, hvalues, hcontext⟩ := exists_skipped e default (he ▸ rfl : e.key = some key) s
  cases hrest : s.cursor.rest with
  | nil =>
    have hnext : ¬ s.cursor.hasNext = true := by simp [Cursor.hasNext_iff, hrest]
    rw [State.values_of_rest_nil hrest] at hvalues ⊢
    simp only [optional, ofStep, parseOptional, if_neg hnext, ht]
    refine .ok _ hcontext (by rw [hvalues]; exact .absent) ?_
    rintro q ws ⟨⟩
    exact ⟨rfl, hvalues.symm⟩
  | cons a as =>
    have hnext := Cursor.hasNext_of_rest_cons hrest
    have hread := he ▸ parse_leaf_of_rest_cons hrest
    rw [State.values_of_rest_cons hrest] at hvalues ⊢
    cases hx : convert a.value with
    | ok x =>
      simp only [hx] at hread
      rw [optional_ok hnext hread]
      refine .ok [(key, x)] rfl (.read ((h _ _).mp hx)) fun q ws hR => ?_
      cases hR with
      | read hy =>
        obtain rfl := eq_of_means h hx hy
        exact ⟨rfl, rfl⟩
      | skipped hnone _ => exact absurd ((h _ _).mp hx) (hnone x)
    | error complaint =>
      simp only [hx] at hread
      have hnone := not_means h hx
      have hmore : s.behind.cursor.hasNext = true ↔ s.behind.values ≠ [] := by
        rw [Cursor.hasNext_iff, State.values, ne_eq, ne_eq, List.map_eq_nil_iff]
      rw [optional_failed hnext hread, backTo_behind hs, ht]
      split
      · next hskip =>
        refine .ok _ hcontext ?_ fun q ws hR => ?_
        · rw [hvalues]
          exact .skipped hnone (hskip.imp_right hmore.mp)
        · cases hR with
          | read hy => exact absurd hy (hnone _)
          | skipped _ _ => exact ⟨rfl, hvalues.symm⟩
      · next hkept =>
        refine .failed fun q ws hR => ?_
        cases hR with
        | read hy => exact hnone _ hy
        | skipped _ hskip => exact hkept (hskip.imp_right hmore.mpr)

theorem realizes_optional_integer (key : String) :
    Realizes (optional (integer key) default weak).parse
      (.Optionally key (fun v x => ∃ z, Numeral.read .word32 v = .ok z ∧ x = .int z) default weak) :=
  realizes_optional (integer_iff .word32)

theorem realizes_optional_choices {words : List (String × Value)}
    (h : ∀ v x, (OrderedMap.ofList words).get? v = some x ↔ means v x) :
    Realizes (optional (choices key words) default weak).parse
      (.Optionally key means default weak) := by
  unfold choices Reader.choice
  refine realizes_optional fun v x => ?_
  rw [← h]
  cases hx : (OrderedMap.ofList words).get? v <;> simp [hx]

end

/-! ## Repetition -/

theorem decided_each_nil (ht : t.values = []) :
    Decided (.Each key means) [] t.context (.ok t) := by
  refine .ok [] rfl (by rw [ht]; exact .nil) ?_
  rintro q ws ⟨⟩
  exact ⟨rfl, ht.symm⟩

/-- Each round reads a value, so as many rounds as there are values read them all. -/
theorem decided_parseAll (h : ∀ v x, convert v = .ok x ↔ means v x) (n : Nat) {s : State}
    (hn : s.values.length ≤ n) : Decided (.Each key means) s.values s.context
      (parseAll (leaf key (.ofToken convert complete)) n s) := by
  induction n generalizing s with
  | zero =>
    have hnil := List.eq_nil_of_length_eq_zero (Nat.le_zero.mp hn)
    rw [hnil]
    exact decided_each_nil hnil
  | succ n ih =>
    cases hrest : s.cursor.rest with
    | nil =>
      have hnil := State.values_of_rest_nil hrest
      rw [parseAll_of_rest_nil _ hrest, hnil]
      exact decided_each_nil hnil
    | cons a as =>
      rw [parseAll, if_pos (Cursor.hasNext_of_rest_cons hrest), parse_leaf_of_rest_cons hrest]
      rw [State.values_of_rest_cons hrest] at hn ⊢
      cases hx : convert a.value with
      | ok x =>
        have hmoved : ¬ (s.behind.put key x).cursor.position = s.cursor.position := by
          simp [State.put, State.behind, Cursor.behind, Cursor.position]
        have hlater := ih (s := s.behind.put key x) (Nat.le_of_succ_le_succ hn)
        simp only [if_neg hmoved]
        generalize parseAll _ n (s.behind.put key x) = o at hlater ⊢
        cases hlater with
        | ok records hcontext hreads honly =>
          refine .ok ((key, x) :: records) hcontext (.cons ((h _ _).mp hx) hreads) fun q ws hall => ?_
          cases hall with
          | cons hy hall =>
            obtain rfl := eq_of_means h hx hy
            obtain ⟨rfl, rfl⟩ := honly _ _ hall
            exact ⟨rfl, rfl⟩
        | failed hnone =>
          refine .failed fun q ws hall => ?_
          cases hall with
          | cons hy hall => exact hnone _ _ hall
      | error complaint =>
        refine .failed fun q ws hR => ?_
        cases hR with
        | cons hy _ => exact not_means h hx _ hy

theorem realizes_allOf (h : ∀ v x, convert v = .ok x ↔ means v x) (n : Nat) :
    Realizes (allOf (leaf key (.ofToken convert complete)) n).parse (.Each key means) := by
  have ha := advances_leaf key (follows_ofToken convert complete)
  refine .of_decided (fun s hs => advances_parseAll ha _ s hs) fun s _ => decided_parseAll h _ ?_
  rw [State.values, List.length_map, ← Cursor.remaining_eq]
  omega

theorem realizes_allOf_string (key : String) (n : Nat) :
    Realizes (allOf (string key) n).parse (.Each key fun v x => x = .text v) :=
  realizes_allOf (fun v x => by simp [eq_comm]) n

/-! ## Alternatives -/

theorem firstOf_table_ok {before after : List (Element × Reading)} {p : Element × Reading}
    (hbuilt : ∀ q ∈ before ++ p :: after, q.1.Built true) (hs : s.cursor.Valid)
    (hfail : ∀ q ∈ before, (q.1.parse s).isOk = false) (hok : (p.1.parse s).isOk = true) :
    ∃ t u, (firstOf ((before ++ p :: after).map (·.1))).parse s = .ok t ∧
      p.1.parse ⟨s.cursor.fresh, s.context⟩ = .ok u ∧ t.values = u.values ∧ t.context = u.context := by
  have hall : ∀ e ∈ (before ++ p :: after).map (·.1), e.Built true := by
    simpa only [List.forall_mem_map] using hbuilt
  have hfailed : ∀ e ∈ before.map (·.1), (e.parse s).isOk = false := by
    simpa only [List.forall_mem_map] using hfail
  rw [List.map_append, List.map_cons] at hall ⊢
  obtain ⟨t, u, ht, hu, halike⟩ := firstOf_ok hs hall hfailed hok
  exact ⟨t, u, ht, hu, halike.cursor.values, halike.context⟩

/-- Alternatives of which no two accept the same values. The first one that succeeds is then the only
one. -/
theorem realizes_firstOf (table : List (Element × Reading)) (hbuilt : ∀ p ∈ table, p.1.Built true)
    (h : ∀ p ∈ table, Realizes p.1.parse p.2)
    (hapart : table.Pairwise fun p q => ∀ vs r ws r' ws', p.2 vs r ws → ¬ q.2 vs r' ws') :
    Realizes (firstOf (table.map (·.1))).parse (.oneOf (table.map (·.2))) := by
  have hall : ∀ e ∈ table.map (·.1), e.Built true := by
    simpa only [List.forall_mem_map] using hbuilt
  refine ⟨(Built.firstOf hall).advances, fun {s t} hs hok => ?_, fun {s records rest} hs hreads => ?_⟩
  · have hsome : ∃ p ∈ table, (p.1.parse s).isOk = true := by
      have hisOk : ((firstOf (table.map (·.1))).parse s).isOk = true := by rw [hok]; rfl
      simpa using (firstOf_isOk_iff hs hall).mp hisOk
    obtain ⟨p, hp⟩ := Option.isSome_iff_exists.mp (List.find?_isSome.mpr hsome)
    obtain ⟨hpok, before, after, rfl, hfail⟩ := List.find?_eq_some_iff_append.mp hp
    obtain ⟨t', u, ht', hu, hvalues, hcontext⟩ :=
      firstOf_table_ok hbuilt hs (fun q hq => by simpa using hfail q hq) hpok
    rw [hok] at ht'
    cases ht'
    obtain ⟨records, hR, hput⟩ := (h p (by simp)).sound (Cursor.valid_fresh hs) hu
    refine ⟨records, ⟨p.2, by simp, ?_⟩, hcontext.trans hput⟩
    rw [hvalues]
    exact hR
  · obtain ⟨R, hR, hreads⟩ := hreads
    obtain ⟨p, hp, rfl⟩ := List.mem_map.mp hR
    obtain ⟨before, after, rfl⟩ := List.append_of_mem hp
    obtain ⟨t, ht, -, -⟩ := (h p hp).complete hs hreads
    have hfail : ∀ q ∈ before, (q.1.parse s).isOk = false := by
      intro q hq
      cases hparse : q.1.parse s with
      | failed err u => rfl
      | ok u =>
        obtain ⟨records', hreads', -⟩ := (h q (by simp [hq])).sound hs hparse
        have hpair := (List.pairwise_append.mp hapart).2.2 q hq p (by simp)
        exact absurd hreads (hpair _ _ _ _ _ hreads')
    obtain ⟨t', u, ht', hu, hvalues, hcontext⟩ := firstOf_table_ok hbuilt hs hfail (by rw [ht]; rfl)
    obtain ⟨u', hu', hrest, hput⟩ :=
      (h p hp).complete (s := ⟨s.cursor.fresh, s.context⟩) (Cursor.valid_fresh hs) hreads
    rw [hu] at hu'
    cases hu'
    exact ⟨t', ht', hvalues.trans hrest, hcontext.trans hput⟩

end Element

/-! ## Flags -/

namespace Flags

variable {f : Flags} {short : Char → Reading} {long : String → Option String → Reading}

theorem realizes_group (hshort : ∀ c, Realizes (f.parseShort c) (short c)) (cs : List Char) :
    Realizes (f.parseGroup cs) (Reading.group short cs) := by
  induction cs with
  | nil => exact realizes_ok
  | cons c cs ih => exact (hshort c).andThen ih

theorem realizes_unknownShort {c : Char} (h : f.short? c = none) :
    Realizes (f.parseShort c) (.unknown f.unknownShort (String.singleton c) none) := by
  cases hpolicy : f.unknownShort with
  | reject =>
    exact realizes_never fun s =>
      ⟨s.cursor.errorHere (.unknownShort c), by simp only [parseShort, h, hpolicy]⟩
  | ignore => exact realizes_ok.congr fun s => by simp only [parseShort, h, hpolicy]
  | acceptNonvalue =>
    exact (realizes_put _ _).congr fun s => by simp only [parseShort, h, hpolicy]
  | acceptValue =>
    exact (Element.realizes_string _).congr fun s => by simp only [parseShort, h, hpolicy]

theorem realizes_unknownLong {name : String} (h : f.long? name = none) (inline : Option String)
    (t : Token) : Realizes (f.parseLong name inline t) (.unknown f.unknownLong name inline) := by
  cases hpolicy : f.unknownLong with
  | reject =>
    exact realizes_never fun s =>
      ⟨s.cursor.errorHere (.unknownLong name), by simp only [parseLong, h, hpolicy]⟩
  | ignore => exact realizes_ok.congr fun s => by simp only [parseLong, h, hpolicy]
  | acceptNonvalue =>
    cases inline <;> exact (realizes_put _ _).congr fun s => by simp only [parseLong, h, hpolicy]
  | acceptValue =>
    cases inline with
    | none => exact (Element.realizes_string _).congr fun s => by simp only [parseLong, h, hpolicy]
    | some value => exact (realizes_put _ _).congr fun s => by simp only [parseLong, h, hpolicy]

theorem realizes_inline {e : Element} (h : Realizes e.parse R) (t : Token) (value : String) :
    Realizes (fun s => onCursor s.cursor (e.parse ⟨inlineCursor s.cursor t value, s.context⟩))
      (R.within [value]) where
  advances s hs := by
    have hleads := h.advances ⟨inlineCursor s.cursor t value, s.context⟩ (Cursor.valid_ofTokens _ _)
    exact leads_onCursor (.refl hs) hleads.context
  sound {s u} hs hok := by
    cases hparse : e.parse ⟨inlineCursor s.cursor t value, s.context⟩ with
    | failed err v => simp [hparse, onCursor] at hok
    | ok v =>
      simp only [hparse, onCursor, Outcome.ok.injEq] at hok
      subst hok
      obtain ⟨records, hR, hcontext⟩ := h.sound (Cursor.valid_ofTokens _ _) hparse
      rw [State.values, values_inlineCursor] at hR
      exact ⟨records, ⟨⟨v.values, hR⟩, rfl⟩, hcontext⟩
  complete {s records rest} hs hreads := by
    obtain ⟨⟨left, hR⟩, rfl⟩ := hreads
    rw [← values_inlineCursor s.cursor t value] at hR
    obtain ⟨v, hv, -, hcontext⟩ :=
      h.complete (s := ⟨inlineCursor s.cursor t value, s.context⟩) (Cursor.valid_ofTokens _ _) hR
    exact ⟨⟨s.cursor, v.context⟩, by simp only [hv, onCursor], rfl, hcontext⟩

theorem exists_of_reading {run : Token → State → Outcome} (h : ∀ a, Realizes (run a) R) {n : Nat}
    {s : State} (hs : s.cursor.Valid) (hn : s.cursor.rest.length ≤ n) {v : String} {vs ws : List String}
    {records : List (String × Value)} (hvs : s.values = v :: vs) (hreads : R vs records ws) :
    ∃ a as m u, s.cursor.rest = a :: as ∧ a.value = v ∧ n = m + 1 ∧ run a s.behind = .ok u ∧
      u.cursor.Valid ∧ u.cursor.rest.length ≤ m ∧ u.values = ws ∧
      u.context = s.context.putAll records := by
  obtain ⟨a, as, hrest, hv, rfl⟩ := State.exists_of_values hvs
  have hbehind : s.behind.cursor.Valid := hs.behind hrest
  obtain ⟨u, hu, hvalues, hcontext⟩ := (h a).complete hbehind hreads
  have hleads := (h a).advances.leads hbehind hu
  have hlen : u.cursor.rest.length ≤ as.length := by
    have hle := hleads.cursor.rest.length_le
    rwa [State.behind, Cursor.rest_behind hrest] at hle
  rw [hrest, List.length_cons] at hn
  exact ⟨a, as, n - 1, u, hrest, hv, by omega, hu, hleads.cursor.valid, by omega, hvalues, hcontext⟩

variable (hanchored : f.anchored = false) (hshort : ∀ c, Realizes (f.parseShort c) (short c))
  (hlong : ∀ name inline t, Realizes (f.parseLong name inline t) (long name inline))

include hanchored hshort hlong

theorem scan_sound {n : Nat} {s u : State} {ps : List Token} (hs : s.cursor.Valid)
    (hn : s.cursor.rest.length ≤ n) (h : f.scan n s = (.ok u, ps)) :
    u.cursor.rest = [] ∧ ∃ records, Reading.Scan short long s.values records (ps.map (·.value)) ∧
      u.context = s.context.putAll records := by
  induction n generalizing s ps with
  | zero =>
    have hrest := List.eq_nil_of_length_eq_zero (Nat.le_zero.mp hn)
    cases h
    rw [State.values_of_rest_nil hrest]
    exact ⟨hrest, [], .done, rfl⟩
  | succ n ih =>
    rcases scan_succ_ok h with ⟨hstops, rfl, rfl⟩ | ⟨qs, v, rs, hround, hscan, rfl⟩
    · have hrest := hstops.of_unanchored hanchored
      rw [State.values_of_rest_nil hrest]
      exact ⟨hrest, [], .done, rfl⟩
    · have hlen : ∀ {a as}, s.cursor.rest = a :: as → s.behind.cursor.rest.length ≤ n := by
        intro a as hrest
        rw [hrest] at hn
        rw [State.behind, Cursor.rest_behind hrest]
        exact Nat.le_of_succ_le_succ hn
      -- a flag that is read, and the scan behind it
      have hflag : ∀ {run S a as}, Realizes run S → s.cursor.rest = a :: as → run s.behind = .ok v →
          u.cursor.rest = [] ∧ ∃ first ws later, S s.behind.values first ws ∧
            Reading.Scan short long ws later (rs.map (·.value)) ∧
            u.context = s.context.putAll (first ++ later) := by
        intro run S a as hreal hrest hrun
        have hleads := hreal.advances.leads (hs.behind hrest) hrun
        obtain ⟨first, hfirst, hput⟩ := hreal.sound (hs.behind hrest) hrun
        obtain ⟨hend, later, hscanned, hcontext⟩ := ih hleads.cursor.valid
          (Nat.le_trans hleads.cursor.rest.length_le (hlen hrest)) hscan
        refine ⟨hend, first, v.values, later, hfirst, hscanned, ?_⟩
        rw [hcontext, hput, Context.putAll_append]
        rfl
      cases hround with
      | positional _ hrest hword =>
        obtain ⟨hend, records, hscanned, hcontext⟩ := ih (hs.behind hrest) (hlen hrest) hscan
        rw [State.values_of_rest_cons hrest]
        exact ⟨hend, records, .positional hword hscanned, hcontext⟩
      | long hrest hword hrun =>
        obtain ⟨hend, first, ws, later, hfirst, hscanned, hcontext⟩ := hflag (hlong _ _ _) hrest hrun
        rw [State.values_of_rest_cons hrest]
        exact ⟨hend, first ++ later, .long hword hfirst hscanned, hcontext⟩
      | short hrest hword hrun =>
        obtain ⟨hend, first, ws, later, hfirst, hscanned, hcontext⟩ :=
          hflag (realizes_group hshort _) hrest hrun
        rw [State.values_of_rest_cons hrest]
        exact ⟨hend, first ++ later, .short hword hfirst hscanned, hcontext⟩

theorem scan_complete {n : Nat} {s : State} {vs rest : List String}
    {records : List (String × Value)} (hs : s.cursor.Valid) (hn : s.cursor.rest.length ≤ n)
    (hvs : s.values = vs) (h : Reading.Scan short long vs records rest) :
    ∃ u ps, f.scan n s = (.ok u, ps) ∧ ps.map (·.value) = rest ∧
      u.context = s.context.putAll records := by
  induction h generalizing n s with
  | done => exact ⟨s, [], scan_of_rest_nil n (State.rest_of_values_nil hvs), rfl, rfl⟩
  | positional hword _ ih =>
    obtain ⟨a, as, m, w, hrest, rfl, rfl, hw, hvalid, hlen, hvalues, -⟩ :=
      exists_of_reading (fun _ => realizes_ok) hs hn hvs ⟨rfl, rfl⟩
    cases hw
    obtain ⟨u, ps, hscan, rfl, hcontext⟩ := ih hvalid hlen hvalues
    refine ⟨u, a :: ps, ?_, rfl, hcontext⟩
    rw [(Round.positional hanchored hrest hword).scan, hscan]
    rfl
  | long hword hflag _ ih =>
    obtain ⟨a, as, m, w, hrest, rfl, rfl, hw, hvalid, hlen, hvalues, hput⟩ :=
      exists_of_reading (hlong _ _) hs hn hvs hflag
    obtain ⟨u, ps, hscan, hps, hcontext⟩ := ih hvalid hlen hvalues
    refine ⟨u, ps, ?_, hps, ?_⟩
    · rw [(Round.long hrest hword hw).scan, hscan]
      rfl
    · rw [hcontext, hput, Context.putAll_append]
  | short hword hflag _ ih =>
    obtain ⟨a, as, m, w, hrest, rfl, rfl, hw, hvalid, hlen, hvalues, hput⟩ :=
      exists_of_reading (fun _ => realizes_group hshort _) hs hn hvs hflag
    obtain ⟨u, ps, hscan, hps, hcontext⟩ := ih hvalid hlen hvalues
    refine ⟨u, ps, ?_, hps, ?_⟩
    · rw [(Round.short hrest hword hw).scan, hscan]
      rfl
    · rw [hcontext, hput, Context.putAll_append]

omit hshort hlong in
theorem parse_of_scan (child : Element) {s u : State} {ps : List Token}
    (hscan : f.scan s.cursor.remaining s = (.ok u, ps)) (hend : u.cursor.rest = []) :
    ∃ c : Cursor, f.parse child s = onCursor c (child.parse ⟨u.cursor.onTokens ps, u.context⟩) ∧
      c.rest = (child.parse ⟨u.cursor.onTokens ps, u.context⟩).state.cursor.rest := by
  let left := (child.parse ⟨u.cursor.onTokens ps, u.context⟩).state.cursor
  refine ⟨if left.hasNext then u.cursor.splice s.cursor.position left.rest else u.cursor, ?_, ?_⟩
  · simp only [parse, hscan, Outcome.andThen, hanchored, Bool.false_eq_true, if_false, left]
  · split
    · exact Cursor.rest_splice _ _ _
    · next hnext =>
      rw [Bool.not_eq_true, Cursor.hasNext_eq_false_iff] at hnext
      exact hend.trans hnext.symm

omit hanchored hshort hlong in
theorem values_onTokens (c : Cursor) (ts : List Token) (context : Context) :
    State.values ⟨c.onTokens ts, context⟩ = ts.map (·.value) := by
  rw [State.values, Cursor.onTokens, Cursor.rest_ofTokens]

/-- Flags around an element: it reads the positional values. -/
theorem realizes_around {child : Element} (ha : Advances (f.around child).parse)
    (hchild : Realizes child.parse R) :
    Realizes (f.around child).parse ((Reading.Scan short long).andThen R) where
  advances := ha
  sound {s t} hs hok := by
    have hremaining := Nat.le_of_eq (Cursor.remaining_eq s.cursor).symm
    change f.parse child s = _ at hok
    obtain ⟨u, ps, hscan, -⟩ := parse_ok hok
    obtain ⟨hend, first, hscanned, hcontext⟩ := scan_sound hanchored hshort hlong hs hremaining hscan
    obtain ⟨c, hparse, hrest⟩ := parse_of_scan hanchored child hscan hend
    rw [hok] at hparse
    cases hinner : child.parse ⟨u.cursor.onTokens ps, u.context⟩ with
    | failed err v => simp [hinner, onCursor] at hparse
    | ok v =>
      simp only [hinner, onCursor, Outcome.ok.injEq] at hparse
      rw [hinner] at hrest
      obtain ⟨later, hR, hput⟩ := hchild.sound (Cursor.valid_ofTokens _ _) hinner
      rw [values_onTokens] at hR
      have hvalues : t.values = v.values := by
        rw [hparse]
        exact congrArg (List.map (·.value)) hrest
      refine ⟨first ++ later, ⟨first, _, later, hscanned, hvalues ▸ hR, rfl⟩, ?_⟩
      rw [hparse, hput, hcontext, Context.putAll_append]
  complete {s records rest} hs hreads := by
    have hremaining := Nat.le_of_eq (Cursor.remaining_eq s.cursor).symm
    obtain ⟨first, ws, later, hscanned, hR, rfl⟩ := hreads
    obtain ⟨u, ps, hscan, rfl, hcontext⟩ :=
      scan_complete hanchored hshort hlong hs hremaining rfl hscanned
    obtain ⟨hend, -⟩ := scan_sound hanchored hshort hlong hs hremaining hscan
    rw [← values_onTokens u.cursor ps u.context] at hR
    obtain ⟨v, hv, hvalues, hput⟩ := hchild.complete (Cursor.valid_ofTokens _ _) hR
    obtain ⟨c, hparse, hrest⟩ := parse_of_scan hanchored child hscan hend
    rw [hv] at hparse hrest
    refine ⟨⟨c, v.context⟩, hparse, ?_, ?_⟩
    · rw [← hvalues]
      exact congrArg (List.map (·.value)) hrest
    · rw [hput, hcontext, Context.putAll_append]

end Flags

/-! ## Lines -/

/-- What a parser makes of a line: a reading of its values that leaves none. -/
theorem Parser.parse_eq_ok_iff {p : Parser} (h : Realizes p.element.parse R) {input : String}
    {tokens : List Token} (htokens : p.tokenizer.tokenize input false = .ok tokens)
    (context : Context) :
    p.parse input = .ok context ↔
      ∃ records, R (tokens.map (·.value)) records [] ∧ context = Context.empty.putAll records := by
  let start : State := ⟨.ofTokens input tokens, .empty⟩
  have hstart : start.cursor.Valid := Cursor.valid_ofTokens _ _
  have hvalues : start.values = tokens.map (·.value) := Flags.values_onTokens start.cursor tokens .empty
  have hparse : p.parse input = run p.element input tokens := by rw [parse, htokens]
  rw [hparse]
  constructor
  · intro hrun
    unfold run at hrun
    split at hrun
    · cases hrun
    · next t ht =>
      split at hrun
      · next hnone =>
        cases hrun
        obtain ⟨records, hR, hcontext⟩ := h.sound hstart ht
        have hend : t.values = [] := by
          cases hrest : t.cursor.rest with
          | nil => exact State.values_of_rest_nil hrest
          | cons a as => simp [Cursor.next?_of_rest_cons hrest] at hnone
        rw [hvalues, hend] at hR
        exact ⟨records, hR, hcontext⟩
      · cases hrun
  · rintro ⟨records, hR, rfl⟩
    rw [← hvalues] at hR
    obtain ⟨t, ht, hend, hcontext⟩ := h.complete hstart hR
    have hnone := Cursor.next?_of_rest_nil (State.rest_of_values_nil hend)
    unfold run
    rw [show p.element.parse ⟨.ofTokens input tokens, .empty⟩ = _ from ht]
    simp only [hnone, hcontext, start]

end ArgGrammar
