import ArgGrammar.Demo
import ArgGrammar.Proofs.Readings

/-!
# The lines of the demonstration grammar

* `Demo.shortFlag`, `Demo.longFlag`: what the flags of `set` read and record.
* `Demo.Accepts`: which values make up a command, and what is recorded for it.
* `Demo.parse_iff_accepts`: the grammar accepts these lines and no others.

The four commands start with different words, so no attempt at another one comes in the way.
-/

namespace ArgGrammar.Demo

open Element (markTrue integer realizes_word realizes_integer realizes_string realizes_rest
  realizes_optional_integer realizes_optional_choices realizes_allOf_string
  realizes_parseSeq_single realizes_parseSeq_cons)

/-! ## The language -/

/-- The value is a numeral. -/
def IsNumber (v : String) (x : Value) : Prop := ∃ z, Numeral.read .word32 v = .ok z ∧ x = .int z

/-- A flag of `set` of one character. -/
def shortFlag (st : ParserSettings) (c : Char) : Reading :=
  if c = 'f' then .record "f" (.bool true)
  else if c = 't' then .Next "ttl" IsNumber
  else .unknown st.unknownShort (String.singleton c) none

/-- A long flag of `set`. A value behind an equals sign is the number of `ttl`; `force` drops it. -/
def longFlag (st : ParserSettings) (name : String) (inline : Option String) : Reading :=
  if Text.lower name = "force" then .record "f" (.bool true)
  else if Text.lower name = "ttl" then
    match inline with
    | none => .Next "ttl" IsNumber
    | some value => .within [value] (.Next "ttl" IsNumber)
  else .unknown st.unknownLong name inline

/-- A scan for the flags of `set`. -/
abbrev FlagScan (st : ParserSettings) : Reading := .Scan (shortFlag st) (longFlag st)

/-- The arguments of `list`: how many, and in which order. -/
inductive Listing : List String → List (String × Value) → Prop where
  | all : Listing [] [("limit", .int 10)]
  | limit {n : String} {z : Int} (hn : Numeral.read .word32 n = .ok z) :
      Listing [n] [("limit", .int z)]
  | order {o : String} (ho : o = "asc" ∨ o = "desc") :
      Listing [o] [("limit", .int 10), ("order", .text o)]
  | both {n o : String} {z : Int} (hn : Numeral.read .word32 n = .ok z)
      (ho : o = "asc" ∨ o = "desc") :
      Listing [n, o] [("limit", .int z), ("order", .text o)]

/-- The values that make up a command, and what is recorded for them in this order. -/
inductive Accepts (st : ParserSettings) : List String → List (String × Value) → Prop where
  | get {w key : String} (hw : Text.lower w = "get") :
      Accepts st [w, key] [("get", .bool true), ("key", .text key)]
  | list {w : String} {args : List String} {records : List (String × Value)}
      (hw : Text.lower w = "list") (h : Listing args records) :
      Accepts st (w :: args) (("list", .bool true) :: records)
  | del {w : String} {keys : List String} (hw : Text.lower w = "del") :
      Accepts st (w :: keys) (("del", .bool true) :: keys.map fun key => ("keys", .text key))
  | set {w key value : String} {args values : List String} {flags : List (String × Value)}
      (hw : Text.lower w = "set") (h : FlagScan st args flags (key :: value :: values)) :
      Accepts st (w :: args) (("set", .bool true) :: flags ++
        [("key", .text key), ("value", .text (Text.joinWith " " (value :: values)))])

/-! ## The grammar reads it -/

variable {st : ParserSettings} {R : Reading}

/-- A word that names a command. -/
def Named (word : String) : Reading := .Next word fun v x => Text.lower v = word ∧ x = .bool true

theorem realizes_command {word : String} (h : Text.lower word = word) :
    Realizes (command word).parse (Named word) := by
  have hword := realizes_word word (.bool true) word
  rwa [h] at hword

theorem setFlags_eq (st : ParserSettings) : setFlags st =
    { short := [('f', markTrue "f"), ('t', integer "ttl")]
      long := [("force", markTrue "f"), ("ttl", integer "ttl")]
      unknownShort := st.unknownShort
      unknownLong := st.unknownLong } := by
  cbv

theorem realizes_shortFlag (st : ParserSettings) (c : Char) :
    Realizes ((setFlags st).parseShort c) (shortFlag st c) := by
  rw [setFlags_eq, shortFlag]
  split
  · next hf =>
    subst hf
    exact realizes_put _ _
  · next hf =>
    split
    · next ht =>
      subst ht
      exact realizes_integer "ttl"
    · next ht =>
      refine Flags.realizes_unknownShort ?_
      simp [Flags.short?, OrderedMap.get?, Ne.symm hf, Ne.symm ht]

theorem realizes_longFlag (st : ParserSettings) (name : String) (inline : Option String) (t : Token) :
    Realizes ((setFlags st).parseLong name inline t) (longFlag st name inline) := by
  have hmark := realizes_put "f" (.bool true)
  have hnumber := realizes_integer "ttl"
  unfold longFlag
  split
  · next hforce =>
    have hdef : (setFlags st).long? name = some (markTrue "f") := by
      simp [setFlags_eq, Flags.long?, OrderedMap.get?, hforce]
    cases inline <;> refine hmark.congr fun s => ?_ <;> simp only [Flags.parseLong, hdef] <;> rfl
  · next hforce =>
    split
    · next httl =>
      have hdef : (setFlags st).long? name = some (integer "ttl") := by
        simp [setFlags_eq, Flags.long?, OrderedMap.get?, httl]
      cases inline with
      | none => exact hnumber.congr fun s => by simp only [Flags.parseLong, hdef]
      | some value =>
        exact (Flags.realizes_inline hnumber t value).congr fun s => by
          simp only [Flags.parseLong, hdef]
    · next httl =>
      rw [setFlags_eq]
      refine Flags.realizes_unknownLong ?_ inline t
      simp [Flags.long?, OrderedMap.get?, Ne.symm hforce, Ne.symm httl]

/-- The order of a listing. -/
def IsOrder (v : String) (x : Value) : Prop := (v = "asc" ∨ v = "desc") ∧ x = .text v

/-- A text as it is. -/
def IsText (v : String) (x : Value) : Prop := x = .text v

/-- The commands with their readings, in the order of the grammar. -/
def table (st : ParserSettings) : List (Element × Reading) :=
  [(set st, (Named "set").andThen
      ((FlagScan st).andThen ((Reading.Next "key" IsText).andThen (.Joined "value")))),
   (get, (Named "get").andThen (.Next "key" IsText)),
   (list, (Named "list").andThen
      ((Reading.Optionally "limit" IsNumber (some (.int 10)) true).andThen
        (.Optionally "order" IsOrder none false))),
   (del, (Named "del").andThen (.Each "keys" IsText))]

theorem built_command (word : String) : (command word).Built true := .literal word _ _

theorem built_flags (st : ParserSettings) :
    ((setFlags st).around (.seq [.string "key", .rest "value"])).Built true := by
  have hinner : ∀ e ∈ [Element.string "key", Element.rest "value"], e.Built true := by
    simp only [List.forall_mem_cons, List.not_mem_nil, false_implies, implies_true, and_true]
    exact ⟨.token (.string "key"), .rest "value"⟩
  rw [setFlags_eq]
  refine .flags ?_ ?_ (.seq hinner) <;>
    simp only [List.forall_mem_cons, List.not_mem_nil, false_implies, implies_true, and_true] <;>
    exact ⟨.markTrue "f", .token (.integer "ttl")⟩

theorem built_table (st : ParserSettings) : ∀ p ∈ table st, p.1.Built true := by
  simp only [table, List.forall_mem_cons, List.not_mem_nil, false_implies, implies_true, and_true]
  refine ⟨.seq ?_, .seq ?_, .seq ?_, .seq ?_⟩ <;>
    simp only [List.forall_mem_cons, List.not_mem_nil, false_implies, implies_true, and_true]
  · exact ⟨built_command "set", built_flags st⟩
  · exact ⟨built_command "get", .token (.string "key")⟩
  · exact ⟨built_command "list", .optional _ _ (.token (.integer "limit")),
      .optional _ _ (.token (.choices "order" _))⟩
  · exact ⟨built_command "del", .allOf _ (.token (.string "keys"))⟩

theorem realizes_set (st : ParserSettings) : Realizes (set st).parse
    ((Named "set").andThen
      ((FlagScan st).andThen ((Reading.Next "key" IsText).andThen (.Joined "value")))) := by
  have hchild : Realizes (Element.seq [.string "key", .rest "value"]).parse
      ((Reading.Next "key" IsText).andThen (.Joined "value")) :=
    realizes_parseSeq_cons (realizes_string "key") (realizes_parseSeq_single (realizes_rest "value"))
  have hflags := Flags.realizes_around (f := setFlags st) rfl (realizes_shortFlag st)
    (realizes_longFlag st) (built_flags st).advances hchild
  exact realizes_parseSeq_cons (realizes_command (by decide +kernel))
    (realizes_parseSeq_single hflags)

theorem realizes_get : Realizes get.parse ((Named "get").andThen (.Next "key" IsText)) :=
  realizes_parseSeq_cons (realizes_command (by decide +kernel))
    (realizes_parseSeq_single (realizes_string "key"))

theorem isOrder_iff (v : String) (x : Value) :
    (OrderedMap.ofList [("asc", Value.text "asc"), ("desc", .text "desc")]).get? v = some x ↔
      IsOrder v x := by
  have htable : OrderedMap.ofList [("asc", Value.text "asc"), ("desc", .text "desc")] =
      [("asc", .text "asc"), ("desc", .text "desc")] := by decide
  rw [htable, IsOrder]
  by_cases hasc : "asc" = v
  · subst hasc
    simp [OrderedMap.get?, eq_comm]
  · by_cases hdesc : "desc" = v
    · subst hdesc
      simp [OrderedMap.get?, eq_comm]
    · simp [OrderedMap.get?, hasc, hdesc, Ne.symm hasc, Ne.symm hdesc]

theorem realizes_list : Realizes list.parse ((Named "list").andThen
    ((Reading.Optionally "limit" IsNumber (some (.int 10)) true).andThen
      (.Optionally "order" IsOrder none false))) :=
  realizes_parseSeq_cons (realizes_command (by decide +kernel))
    (realizes_parseSeq_cons (realizes_optional_integer "limit")
      (realizes_parseSeq_single (realizes_optional_choices isOrder_iff)))

theorem realizes_del : Realizes del.parse ((Named "del").andThen (.Each "keys" IsText)) :=
  realizes_parseSeq_cons (realizes_command (by decide +kernel))
    (realizes_parseSeq_single (realizes_allOf_string "keys" _))

theorem realizes_table (st : ParserSettings) : ∀ p ∈ table st, Realizes p.1.parse p.2 := by
  simp only [table, List.forall_mem_cons, List.not_mem_nil, false_implies, implies_true, and_true]
  exact ⟨realizes_set st, realizes_get, realizes_list, realizes_del⟩

theorem named_apart {w w' : String} (h : w ≠ w') {R S : Reading} :
    ∀ vs r ws r' ws', (Named w).andThen R vs r ws → ¬ (Named w').andThen S vs r' ws' := by
  rintro vs r ws r' ws' ⟨_, _, _, ⟨hw, -⟩, -, -⟩ ⟨_, _, _, hnamed, -, -⟩
  cases hnamed with
  | intro hw' => exact h (hw.symm.trans hw'.1)

theorem realizes_grammar (st : ParserSettings) :
    Realizes (grammar st).parse (.oneOf ((table st).map (·.2))) := by
  refine Element.realizes_firstOf (table st) (built_table st) (realizes_table st) ?_
  simp only [table, List.pairwise_cons, List.forall_mem_cons, List.not_mem_nil, false_implies,
    implies_true, and_true, List.Pairwise.nil]
  exact ⟨⟨named_apart (by decide), named_apart (by decide), named_apart (by decide)⟩,
    ⟨named_apart (by decide), named_apart (by decide)⟩, named_apart (by decide)⟩

/-! ## The readings make up the language -/

theorem each_text_iff {key : String} {vs rest : List String} {records : List (String × Value)} :
    Reading.Each key IsText vs records rest ↔
      records = vs.map (fun v => (key, .text v)) ∧ rest = [] := by
  induction vs generalizing records with
  | nil =>
    refine ⟨?_, ?_⟩
    · rintro ⟨⟩
      exact ⟨rfl, rfl⟩
    · rintro ⟨rfl, rfl⟩
      exact .nil
  | cons v vs ih =>
    refine ⟨fun h => ?_, ?_⟩
    · cases h with
      | cons hv hvs =>
        obtain rfl := hv
        obtain ⟨rfl, rfl⟩ := ih.mp hvs
        exact ⟨rfl, rfl⟩
    · rintro ⟨rfl, rfl⟩
      exact .cons rfl (ih.mpr ⟨rfl, rfl⟩)

theorem not_isNumber_of_order {o : String} (ho : o = "asc" ∨ o = "desc") (x : Value) :
    ¬ IsNumber o x := by
  rintro ⟨z, hz, -⟩
  rcases ho with rfl | rfl
  · have hbad : Numeral.read .word32 "asc" = .error .badDigit := by decide +kernel
    rw [hbad] at hz
    cases hz
  · have hbad : Numeral.read .word32 "desc" = .error .badDigit := by decide +kernel
    rw [hbad] at hz
    cases hz

theorem listing_iff {args : List String} {records : List (String × Value)} :
    (Reading.Optionally "limit" IsNumber (some (.int 10)) true).andThen
        (.Optionally "order" IsOrder none false) args records [] ↔ Listing args records := by
  constructor
  · rintro ⟨first, ws, later, hlimit, horder, rfl⟩
    cases hlimit with
    | absent =>
      cases horder with
      | absent => exact .all
    | read hn =>
      obtain ⟨z, hz, rfl⟩ := hn
      cases horder with
      | absent => exact .limit hz
      | read ho =>
        obtain ⟨ho, rfl⟩ := ho
        exact .both hz ho
    | skipped _ _ =>
      cases horder with
      | read ho =>
        obtain ⟨ho, rfl⟩ := ho
        exact .order ho
  · intro h
    cases h with
    | all => exact ⟨_, _, _, .absent, .absent, rfl⟩
    | limit hn => exact ⟨_, _, _, .read ⟨_, hn, rfl⟩, .absent, rfl⟩
    | order ho =>
      exact ⟨_, _, _, .skipped (not_isNumber_of_order ho) (.inl rfl), .read ⟨ho, rfl⟩, rfl⟩
    | both hn ho => exact ⟨_, _, _, .read ⟨_, hn, rfl⟩, .read ⟨ho, rfl⟩, rfl⟩

theorem accepts_iff {vs : List String} {records : List (String × Value)} :
    Reading.oneOf ((table st).map (·.2)) vs records [] ↔ Accepts st vs records := by
  simp only [Reading.oneOf, table, List.map_cons, List.map_nil, List.mem_cons, List.not_mem_nil,
    or_false, exists_eq_or_imp, exists_eq_left]
  constructor
  · rintro (⟨_, _, _, ⟨hw, rfl⟩, hset, rfl⟩ | ⟨_, _, _, ⟨hw, rfl⟩, ⟨hkey⟩, rfl⟩ |
      ⟨_, _, _, ⟨hw, rfl⟩, hlist, rfl⟩ | ⟨_, _, _, ⟨hw, rfl⟩, hdel, rfl⟩)
    · obtain ⟨flags, _, _, hscan, ⟨_, _, _, ⟨rfl⟩, ⟨⟩, rfl⟩, rfl⟩ := hset
      exact .set hw hscan
    · obtain rfl := hkey
      exact .get hw
    · exact .list hw (listing_iff.mp hlist)
    · obtain ⟨rfl, -⟩ := each_text_iff.mp hdel
      exact .del hw
  · intro h
    cases h with
    | get hw => exact .inr (.inl ⟨_, _, _, .intro ⟨hw, rfl⟩, .intro rfl, rfl⟩)
    | list hw hlist =>
      exact .inr (.inr (.inl ⟨_, _, _, .intro ⟨hw, rfl⟩, listing_iff.mpr hlist, rfl⟩))
    | del hw =>
      exact .inr (.inr (.inr ⟨_, _, _, .intro ⟨hw, rfl⟩, each_text_iff.mpr ⟨rfl, rfl⟩, rfl⟩))
    | set hw hscan =>
      exact .inl ⟨_, _, _, .intro ⟨hw, rfl⟩,
        ⟨_, _, _, hscan, ⟨_, _, _, .intro rfl, .intro, rfl⟩, rfl⟩, rfl⟩

/-- **The lines that the demonstration grammar accepts.** Whatever the settings and the line: if the
line splits into values, it parses exactly if these make up a command, and then the context holds what
is recorded for the command, in this order, and nothing else. -/
theorem parse_iff_accepts (st : ParserSettings) {input : String} {tokens : List Token}
    (htokens : st.tokenizer.tokenize input false = .ok tokens) (context : Context) :
    (parser st).parse input = .ok context ↔
      ∃ records, Accepts st (tokens.map (·.value)) records ∧
        context = Context.empty.putAll records := by
  have hread := Parser.parse_eq_ok_iff (p := parser st) (realizes_grammar st) htokens context
  simpa only [accepts_iff] using hread

/-- Grouped flags, a flag without a definition that takes what looks like a flag, two values behind
equals signs, and two hyphens among the positional values. -/
theorem parse_iff_accepts_set :
    let st : ParserSettings := { unknownShort := .acceptNonvalue, unknownLong := .acceptValue }
    let input := "SET -xf k --mode -t a --Other=1 -- \"b c\" --TTL=0x1F"
    let values := ["SET", "-xf", "k", "--mode", "-t", "a", "--Other=1", "--", "b c", "--TTL=0x1F"]
    let records : List (String × Value) :=
      [("set", .bool true), ("x", .bool true), ("f", .bool true), ("mode", .text "-t"),
       ("Other", .text "1"), ("ttl", .int 31), ("key", .text "k"), ("value", .text "a -- b c")]
    Accepts st values records ∧
      ∃ tokens, st.tokenizer.tokenize input false = .ok tokens ∧ tokens.map (·.value) = values ∧
        (parser st).parse input = .ok (Context.empty.putAll records) := by
  intro st input values records
  have hgroup : Reading.group (shortFlag st) ['x', 'f'] (values.drop 2)
      [("x", .bool true), ("f", .bool true)] (values.drop 2) :=
    ⟨[("x", .bool true)], _, _, ⟨rfl, rfl⟩,
      ⟨[("f", .bool true)], _, _, ⟨rfl, rfl⟩, ⟨rfl, rfl⟩, rfl⟩, rfl⟩
  have hmode : longFlag st "mode" none (values.drop 4) [("mode", .text "-t")] (values.drop 5) := by
    have hlower : Text.lower "mode" = "mode" := by decide +kernel
    simp only [longFlag, hlower]
    exact .intro rfl
  have hother :
      longFlag st "Other" (some "1") (values.drop 7) [("Other", .text "1")] (values.drop 7) := by
    have hlower : Text.lower "Other" = "other" := by decide +kernel
    simp only [longFlag, hlower]
    exact ⟨rfl, rfl⟩
  have httl : longFlag st "TTL" (some "0x1F") [] [("ttl", .int 31)] [] := by
    have hlower : Text.lower "TTL" = "ttl" := by decide +kernel
    have hnumber : IsNumber "0x1F" (.int 31) := ⟨31, by decide +kernel, rfl⟩
    simp only [longFlag, hlower]
    exact ⟨⟨[], .intro hnumber⟩, rfl⟩
  have hscan : FlagScan st values.tail
      [("x", .bool true), ("f", .bool true), ("mode", .text "-t"), ("Other", .text "1"),
       ("ttl", .int 31)]
      ["k", "a", "--", "b c"] :=
    .short (by decide) hgroup <| .positional (by decide) <| .long (by decide) hmode <|
      .positional (by decide) <| .long (by decide) hother <| .positional (by decide) <|
      .positional (by decide) <| .long (by decide) httl .done
  have haccepts : Accepts st values records := .set (by decide +kernel) hscan
  have htokens : st.tokenizer.tokenize input false = .ok
      [⟨"SET", 0, 3⟩, ⟨"-xf", 4, 7⟩, ⟨"k", 8, 9⟩, ⟨"--mode", 10, 16⟩, ⟨"-t", 17, 19⟩, ⟨"a", 20, 21⟩,
       ⟨"--Other=1", 22, 31⟩, ⟨"--", 32, 34⟩, ⟨"b c", 35, 40⟩, ⟨"--TTL=0x1F", 41, 51⟩] := by
    decide +kernel
  exact ⟨haccepts, _, htokens, rfl, (parse_iff_accepts st htokens _).mpr ⟨records, haccepts, rfl⟩⟩

end ArgGrammar.Demo
