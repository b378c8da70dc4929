import ArgGrammar.Element.Combine
import ArgGrammar.Element.Flags
import ArgGrammar.Element.Literal
import ArgGrammar.Proofs.Context
import ArgGrammar.Proofs.Cursor
import ArgGrammar.Proofs.Lowercase

/-!
# What every grammar does to a state

* `Element.TokenLeaf`: the leaves that read exactly one token.
* `Element.Built raw`: the elements made with the constructors of this library, nested to any depth;
  `raw` tells whether the rest of the line as it was written may be recorded.
* `State.Leads s t`: parsing can take the state `s` to `t`: the cursor follows and the context grows.
* `Built.advances`: parsing an element leads from where it started to where it ends, whether it
  succeeds or fails. There is one lemma for each constructor, about any parts that advance.
-/

namespace ArgGrammar

/-- The state `t` can be reached from `s` by parsing. -/
structure State.Leads (s t : State) : Prop where
  cursor : s.cursor.Follows t.cursor
  context : s.context.Extends t.context

namespace State

/-- The state behind the next token. -/
def behind (s : State) : State := ⟨s.cursor.behind, s.context⟩

theorem Leads.refl {s : State} (hs : s.cursor.Valid) : s.Leads s := ⟨.refl hs, .refl _⟩

theorem Leads.trans {s t u : State} (hst : s.Leads t) (htu : t.Leads u) : s.Leads u :=
  ⟨hst.cursor.trans htu.cursor, hst.context.trans htu.context⟩

theorem leads_behind {s : State} (hs : s.cursor.Valid) {t : Token} {ts : List Token}
    (h : s.cursor.rest = t :: ts) : s.Leads s.behind := ⟨.behind hs h, .refl _⟩

theorem leads_put {s : State} (hs : s.cursor.Valid) (key : String) (v : Value) :
    s.Leads (s.put key v) := ⟨.refl hs, Context.extends_put _ _ _⟩

theorem context_backTo {s t : State} (h : s.Leads t) : (t.backTo s).context = s.context :=
  Context.rollback_of_extends h.context

theorem leads_backTo {s t : State} (hs : s.cursor.Valid) (h : s.Leads t) : s.Leads (t.backTo s) :=
  ⟨h.cursor.back hs, by rw [context_backTo h]; exact .refl _⟩

theorem position_backTo {s t : State} (hs : s.cursor.Valid) (h : s.Leads t) :
    (t.backTo s).cursor.position = s.cursor.position := by
  rw [backTo, Cursor.restore_position hs h.cursor.views]
  rfl

theorem tokens_backTo {s t : State} (hs : s.cursor.Valid) (h : s.Leads t) :
    (t.backTo s).cursor.tokens = s.cursor.tokens :=
  Cursor.tokens_restore_position hs h.cursor.views

end State

/-- Wherever the parse starts, it leads to where it ends. -/
def Advances (parse : State → Outcome) : Prop :=
  ∀ s : State, s.cursor.Valid → s.Leads (parse s).state

theorem leads_andThen {s : State} {o : Outcome} {f : State → Outcome} (ho : s.Leads o.state)
    (hf : Advances f) : s.Leads (o.andThen f).state := by
  cases o with
  | ok t => exact ho.trans (hf t ho.cursor.valid)
  | failed e t => exact ho

/-! ## Maps -/

namespace OrderedMap

variable {α β : Type} [DecidableEq α]

theorem mem_of_get? {m : OrderedMap α β} {k : α} {v : β} (h : m.get? k = some v) :
    ∃ d ∈ m, d.2 = v := by
  induction m with
  | nil => simp [get?] at h
  | cons p m ih =>
    obtain ⟨k', v'⟩ := p
    rw [get?] at h
    split at h
    · exact ⟨(k', v'), by simp, by simpa using h⟩
    · obtain ⟨d, hd, hv⟩ := ih h
      exact ⟨d, by simp [hd], hv⟩

theorem isSome_get?_of_mem_keys {m : OrderedMap α β} {k : α} (h : k ∈ m.keys) :
    (m.get? k).isSome = true := by
  induction m with
  | nil => cases h
  | cons p m ih =>
    obtain ⟨k', v'⟩ := p
    rw [get?]
    split
    · rfl
    · next hne =>
      rcases List.mem_cons.mp h with rfl | hm
      · exact absurd rfl hne
      · exact ih hm

theorem mem_of_mem_keys_ofList {pairs : List (α × β)} {k : α} (h : k ∈ (ofList pairs).keys) :
    ∃ p ∈ pairs, p.1 = k := by
  have hfold : ∀ (m : OrderedMap α β) (pairs : List (α × β)),
      k ∈ keys (pairs.foldl (fun m p => insert m p.1 p.2) m) → k ∈ m.keys ∨ ∃ p ∈ pairs, p.1 = k := by
    intro m pairs
    induction pairs generalizing m with
    | nil => exact .inl
    | cons p pairs ih =>
      intro hk
      rcases ih _ hk with hin | ⟨p', hp', rfl⟩
      · rw [keys_insert] at hin
        split at hin
        · exact .inl hin
        · rcases List.mem_append.mp hin with hm | hlast
          · exact .inl hm
          · exact .inr ⟨p, by simp, (List.mem_singleton.mp hlast).symm⟩
      · exact .inr ⟨p', by simp [hp'], rfl⟩
  rcases hfold [] pairs h with hnil | hpair
  · cases hnil
  · exact hpair

end OrderedMap

/-! ## Maps of pairs -/

namespace OrderedMap

variable {α β γ : Type}

def mapValues (g : β → γ) (m : OrderedMap α β) : OrderedMap α γ := m.map fun d => (d.1, g d.2)

theorem get?_mapValues [DecidableEq α] (g : β → γ) (m : OrderedMap α β) (k : α) :
    (m.mapValues g).get? k = (m.get? k).map g := by
  induction m with
  | nil => rfl
  | cons d m ih =>
    obtain ⟨k', v⟩ := d
    show (if k' = k then some (g v) else (mapValues g m).get? k) = _
    rw [get?, ih]
    split <;> rfl

theorem keys_mapValues (g : β → γ) (m : OrderedMap α β) : (m.mapValues g).keys = m.keys := by
  simp [keys, mapValues]

theorem exists_mapValues {R : β → γ → Prop} {m : OrderedMap α β} (h : ∀ d ∈ m, ∃ c, R d.2 c) :
    ∃ m' : OrderedMap α (β × γ), m'.mapValues (·.1) = m ∧ ∀ d ∈ m', R d.2.1 d.2.2 := by
  induction m with
  | nil => exact ⟨[], rfl, by simp⟩
  | cons d m ih =>
    obtain ⟨c, hc⟩ := h d (by simp)
    obtain ⟨m', rfl, hm'⟩ := ih fun d' hd' => h d' (by simp [hd'])
    refine ⟨(d.1, d.2, c) :: m', rfl, fun d' hd' => ?_⟩
    rcases List.mem_cons.mp hd' with rfl | hd'
    · exact hc
    · exact hm' d' hd'

theorem get?_pairs [DecidableEq α] {R : β → γ → Prop} {m : OrderedMap α (β × γ)}
    (h : ∀ d ∈ m, R d.2.1 d.2.2) (k : α) :
    ((m.mapValues (·.1)).get? k = none ∧ (m.mapValues (·.2)).get? k = none) ∨
      ∃ b c, (m.mapValues (·.1)).get? k = some b ∧ (m.mapValues (·.2)).get? k = some c ∧ R b c := by
  rw [get?_mapValues, get?_mapValues]
  cases hk : m.get? k with
  | none => exact .inl ⟨rfl, rfl⟩
  | some p =>
    obtain ⟨d, hd, rfl⟩ := mem_of_get? hk
    exact .inr ⟨_, _, rfl, rfl, h d hd⟩

end OrderedMap

/-- Definitions of the same flags with the same policies, whose elements are related. -/
structure Flags.Related (R : Element → Element → Prop) (f f' : Flags) : Prop where
  short : ∀ name, (f.short? name = none ∧ f'.short? name = none) ∨
    ∃ e e', f.short? name = some e ∧ f'.short? name = some e' ∧ R e e'
  long : ∀ name, (f.long? name = none ∧ f'.long? name = none) ∨
    ∃ e e', f.long? name = some e ∧ f'.long? name = some e' ∧ R e e'
  names : f'.long.keys = f.long.keys
  unknownShort : f'.unknownShort = f.unknownShort
  unknownLong : f'.unknownLong = f.unknownLong
  anchored : f'.anchored = f.anchored

theorem Flags.related_mapValues {R : Element → Element → Prop} (f : Flags)
    {short : OrderedMap Char (Element × Element)} {long : OrderedMap String (Element × Element)}
    (hshort : ∀ d ∈ short, R d.2.1 d.2.2) (hlong : ∀ d ∈ long, R d.2.1 d.2.2) :
    Flags.Related R { f with short := short.mapValues (·.1), long := long.mapValues (·.1) }
      { f with short := short.mapValues (·.2), long := long.mapValues (·.2) } where
  short := OrderedMap.get?_pairs hshort
  long _ := OrderedMap.get?_pairs hlong _
  names := by rw [OrderedMap.keys_mapValues, OrderedMap.keys_mapValues]
  unknownShort := rfl
  unknownLong := rfl
  anchored := rfl

namespace Element

/-! ## Grammars -/

/-- The leaves that read exactly one token. -/
inductive TokenLeaf : Element → Prop where
  | string (key : String) : TokenLeaf (.string key)
  | integer (key : String) : TokenLeaf (.integer key)
  | long (key : String) : TokenLeaf (.long key)
  | double (key : String) : TokenLeaf (.double key)
  | boolean (key : String) : TokenLeaf (.boolean key)
  | choices (key : String) (table : List (String × Value)) : TokenLeaf (.choices key table)
  | choicesFolded (key : String) (table : List (String × Value)) :
      TokenLeaf (.choicesFolded key table)
  | enumeration (key : String) (names : List String) : TokenLeaf (.enumeration key names)

/-- The elements made with the constructors of this library. With `raw = false` the leaf `rawRest`
is left out. -/
inductive Built (raw : Bool) : Element → Prop where
  | none : Built raw .none
  | markTrue (key : String) : Built raw (.markTrue key)
  | token {e : Element} (h : TokenLeaf e) : Built raw e
  | literal (key : String) (value : Value) (words : List String) :
      Built raw (.literal key value words)
  | rest (key : String) : Built raw (.rest key)
  | rawRest (key : String) (h : raw = true) : Built raw (.rawRest key)
  | seq {es : List Element} (h : ∀ e ∈ es, Built raw e) : Built raw (.seq es)
  | optional {e : Element} (default : Option Value) (weak : Bool) (h : Built raw e) :
      Built raw (.optional e default weak)
  | firstOf {es : List Element} (h : ∀ e ∈ es, Built raw e) : Built raw (.firstOf es)
  | times (n : Nat) {e : Element} (h : Built raw e) : Built raw (.times n e)
  | allOf (patience : Nat) {e : Element} (h : Built raw e) : Built raw (.allOf e patience)
  | onlyOne {e : Element} (h : Built raw e) : Built raw (.onlyOne e)
  | flags {f : Flags} {child : Element} (hshort : ∀ d ∈ f.short, Built raw d.2)
      (hlong : ∀ d ∈ f.long, Built raw d.2) (h : Built raw child) : Built raw (f.around child)

theorem choice_eq_ofToken (fold : Bool) (table : OrderedMap String Value)
    (hfold : fold = true → ∀ k ∈ table.keys, Text.lower k = k) :
    ∃ convert complete, Reader.choice fold table = .ofToken convert complete ∧
      ∀ typed, ∀ q ∈ complete typed, (convert q).isOk = true := by
  unfold Reader.choice
  refine ⟨_, _, rfl, fun typed q hq => ?_⟩
  have hkey : q ∈ table.keys := (List.mem_filter.mp hq).1
  have hnormal : (if fold then Text.lower q else q) = q := by
    split
    · next h => exact hfold h q hkey
    · rfl
  obtain ⟨v, hv⟩ := Option.isSome_iff_exists.mp (OrderedMap.isSome_get?_of_mem_keys hkey)
  simp only [hnormal, hv]
  rfl

theorem lower_of_mem_keys {pairs : List (String × Value)} {k : String}
    (h : k ∈ (OrderedMap.ofList (pairs.map fun p => (Text.lower p.1, p.2))).keys) :
    Text.lower k = k := by
  obtain ⟨p, hp, rfl⟩ := OrderedMap.mem_of_mem_keys_ofList h
  obtain ⟨p', -, rfl⟩ := List.mem_map.mp hp
  exact Text.lower_lower p'.1

theorem TokenLeaf.eq_leaf {e : Element} (h : TokenLeaf e) :
    ∃ key convert complete, e = leaf key (.ofToken convert complete) ∧
      ∀ typed, ∀ q ∈ complete typed, (convert q).isOk = true := by
  have hchoice : ∀ key fold table,
      (fold = true → ∀ k ∈ OrderedMap.keys table, Text.lower k = k) →
      ∃ key' convert complete, leaf key (.choice fold table) = leaf key' (.ofToken convert complete) ∧
        ∀ typed, ∀ q ∈ complete typed, (convert q).isOk = true := by
    intro key fold table hfold
    obtain ⟨convert, complete, hreader, hq⟩ := choice_eq_ofToken fold table hfold
    exact ⟨key, convert, complete, congrArg (leaf key) hreader, hq⟩
  cases h with
  | string key => exact ⟨key, _, _, rfl, nofun⟩
  | integer key => exact ⟨key, _, _, rfl, nofun⟩
  | long key => exact ⟨key, _, _, rfl, nofun⟩
  | double key => exact ⟨key, _, _, rfl, nofun⟩
  | boolean key => exact hchoice _ _ _ nofun
  | choices key table => exact hchoice _ _ _ nofun
  | choicesFolded key table => exact hchoice _ _ _ fun _ _ => lower_of_mem_keys
  | enumeration key names => exact hchoice _ _ _ fun _ _ => lower_of_mem_keys

/-! ## Leaves -/

theorem parse_leaf_of_rest_nil {key : String} {r : Reader} {s : State} (h : s.cursor.rest = []) :
    (leaf key r).parse s = .failed (s.cursor.errorAtEnd .notEnough) s := by
  have hnext : ¬ s.cursor.hasNext = true := by simp [Cursor.hasNext_iff, h]
  simp only [leaf, ofTrial, if_neg hnext]

theorem parse_leaf_of_rest_cons {key : String} {convert : String → Except Complaint Value}
    {complete : String → List String} {s : State} {t : Token} {ts : List Token}
    (h : s.cursor.rest = t :: ts) :
    (leaf key (.ofToken convert complete)).parse s =
      match convert t.value with
      | .ok v => .ok (s.behind.put key v)
      | .error complaint => .failed (s.cursor.behind.errorHere complaint) s.behind := by
  have hnext := Cursor.hasNext_of_rest_cons h
  simp only [leaf, ofTrial, if_pos hnext, Reader.ofToken, Cursor.next, Cursor.next?_of_rest_cons h]
  cases convert t.value <;> rfl

theorem advances_leaf (key : String) {r : Reader}
    (hr : ∀ c : Cursor, c.Valid → c.rest ≠ [] → c.Follows (r.read c).2) :
    Advances (leaf key r).parse := by
  intro s hs
  simp only [leaf, ofTrial]
  by_cases hnext : s.cursor.hasNext = true
  · have hread := hr s.cursor hs ((Cursor.hasNext_iff _).mp hnext)
    rw [if_pos hnext]
    rcases hres : r.read s.cursor with ⟨_ | v, c⟩
    · rw [hres] at hread
      exact ⟨hread, .refl _⟩
    · rw [hres] at hread
      exact ⟨hread, Context.extends_put _ _ _⟩
  · rw [if_neg hnext]
    exact .refl hs

theorem follows_ofToken (convert : String → Except Complaint Value)
    (complete : String → List String) (c : Cursor) (hc : c.Valid) (hrest : c.rest ≠ []) :
    c.Follows ((Reader.ofToken convert complete).read c).2 := by
  obtain ⟨t, ts, ht⟩ := List.exists_cons_of_ne_nil hrest
  simp only [Reader.ofToken, Cursor.next, Cursor.next?_of_rest_cons ht]
  cases convert t.value <;> exact .behind hc ht

theorem follows_joined (c : Cursor) (hc : c.Valid) (hrest : c.rest ≠ []) :
    c.Follows (Reader.joined.read c).2 := by
  obtain ⟨t, ts, ht⟩ := List.exists_cons_of_ne_nil hrest
  simp only [Reader.joined, Cursor.next, Cursor.next?_of_rest_cons ht]
  exact .toEnd hc

theorem advances_parseWords (words : List String) : Advances (Literal.parseWords words) := by
  induction words with
  | nil => exact fun s hs => .refl hs
  | cons word words ih =>
    intro s hs
    rw [Literal.parseWords]
    cases hrest : s.cursor.rest with
    | nil =>
      rw [Cursor.next?_of_rest_nil hrest]
      exact .refl hs
    | cons t ts =>
      have hstep := State.leads_behind hs hrest
      rw [Cursor.next?_of_rest_cons hrest]
      dsimp only
      split
      · exact hstep.trans (ih _ hstep.cursor.valid)
      · exact hstep

theorem advances_literal (key : String) (value : Value) (words : List String) :
    Advances (literal key value words).parse := fun s hs =>
  leads_andThen (advances_parseWords words s hs) fun _ ht => State.leads_put ht key value

/-! ## Combinators -/

theorem advances_parseSeq {es : List Element} (h : ∀ e ∈ es, Advances e.parse) :
    Advances (parseSeq es) := by
  induction es with
  | nil => exact fun s hs => .refl hs
  | cons e es ih =>
    intro s hs
    exact leads_andThen (h e (by simp) s hs) (ih fun e' he' => h e' (by simp [he']))

theorem leads_recordDefault {s : State} (hs : s.cursor.Valid) (e : Element)
    (default : Option Value) : s.Leads (recordDefault e default s) := by
  unfold recordDefault
  split
  · exact State.leads_put hs _ _
  · exact .refl hs

theorem advances_parseOptional {e : Element} (default : Option Value) (weak : Bool)
    (h : Advances e.parse) : Advances (parseOptional e default weak) := by
  intro s hs
  have he := h s hs
  unfold parseOptional
  split
  · split
    · next s' heq => rw [heq] at he; exact he
    · next err s' heq =>
      rw [heq] at he
      split
      · have hback := State.leads_backTo hs he
        exact hback.trans (leads_recordDefault hback.cursor.valid e default)
      · exact he
  · exact leads_recordDefault hs e default

theorem optional_ok {e : Element} {default : Option Value} {weak : Bool} {s t : State}
    (hnext : s.cursor.hasNext = true) (h : e.parse s = .ok t) :
    (optional e default weak).parse s = .ok t := by
  simp only [optional, ofStep, parseOptional, if_pos hnext, h]

theorem optional_failed {e : Element} {default : Option Value} {weak : Bool} {err : ParseError}
    {s t : State} (hnext : s.cursor.hasNext = true) (h : e.parse s = .failed err t) :
    (optional e default weak).parse s =
      if weak = true ∨ t.cursor.hasNext = true then .ok (recordDefault e default (t.backTo s))
      else .failed err t := by
  simp only [optional, ofStep, parseOptional, if_pos hnext, h, Bool.or_eq_true]

theorem leads_parseFirst {start : State} (hstart : start.cursor.Valid) {es : List Element}
    (h : ∀ e ∈ es, Advances e.parse) (last : ParseError) {s : State} (hs : start.Leads s) :
    start.Leads (parseFirst start es last s).state := by
  induction es generalizing last s with
  | nil => exact hs
  | cons e es ih =>
    have he := hs.trans (h e (by simp) s hs.cursor.valid)
    rw [parseFirst]
    split
    · next s' heq => rw [heq] at he; exact he
    · next err s' heq =>
      rw [heq] at he
      exact ih (fun e' he' => h e' (by simp [he'])) err (State.leads_backTo hstart he)

theorem advances_parseAll {e : Element} (h : Advances e.parse) (n : Nat) :
    Advances (parseAll e n) := by
  induction n with
  | zero => exact fun s hs => .refl hs
  | succ n ih =>
    intro s hs
    have he := h s hs
    rw [parseAll]
    split
    · split
      · next s' heq =>
        rw [heq] at he
        split
        · exact he
        · exact he.trans (ih s' he.cursor.valid)
      · next err s' heq => rw [heq] at he; exact he
    · exact .refl hs

theorem advances_onlyOne {e : Element} (h : Advances e.parse) : Advances (onlyOne e).parse := by
  intro s hs
  refine leads_andThen (h s hs) fun t ht => ?_
  split
  · split <;> exact .refl ht
  · exact .refl ht

end Element

/-! ## Flags -/

namespace Flags

variable {f : Flags}

theorem leads_onCursor {s : State} {c : Cursor} {o : Outcome} (hc : s.cursor.Follows c)
    (ho : s.context.Extends o.state.context) : s.Leads (onCursor c o).state := by
  cases o <;> exact ⟨hc, ho⟩

theorem advances_parseLong (hlong : ∀ d ∈ f.long, Advances d.2.parse) (name : String)
    (inline : Option String) (t : Token) : Advances (f.parseLong name inline t) := by
  intro s hs
  unfold parseLong
  split
  · next e he =>
    obtain ⟨d, hd, rfl⟩ := OrderedMap.mem_of_get? he
    exact hlong d hd s hs
  · next e value he =>
    obtain ⟨d, hd, rfl⟩ := OrderedMap.mem_of_get? he
    have hvalue := hlong d hd ⟨inlineCursor s.cursor t value, s.context⟩ (Cursor.valid_ofTokens _ _)
    exact leads_onCursor (.refl hs) hvalue.context
  · split
    · exact .refl hs
    · exact .refl hs
    · exact State.leads_put hs _ _
    · exact State.leads_put hs _ _
    · exact State.leads_put hs _ _
    · exact Element.advances_leaf name (Element.follows_ofToken _ _) s hs

theorem advances_parseShort (hshort : ∀ d ∈ f.short, Advances d.2.parse) (name : Char) :
    Advances (f.parseShort name) := by
  intro s hs
  unfold parseShort
  split
  · next e he =>
    obtain ⟨d, hd, rfl⟩ := OrderedMap.mem_of_get? he
    exact hshort d hd s hs
  · split
    · exact .refl hs
    · exact .refl hs
    · exact State.leads_put hs _ _
    · exact Element.advances_leaf _ (Element.follows_ofToken _ _) s hs

theorem advances_parseGroup (hshort : ∀ d ∈ f.short, Advances d.2.parse) (group : List Char) :
    Advances (f.parseGroup group) := by
  induction group with
  | nil => exact fun s hs => .refl hs
  | cons c cs ih => exact fun s hs => leads_andThen (advances_parseShort hshort c s hs) ih

/-- How a scan goes on after a flag. -/
def scanAfter (f : Flags) (n : Nat) : Outcome → Outcome × List Token
  | .ok s => f.scan n s
  | .failed e s => (.failed e s, [])

theorem scan_of_rest_nil (n : Nat) {s : State} (h : s.cursor.rest = []) :
    f.scan n s = (.ok s, []) := by
  cases n with
  | zero => rfl
  | succ n => rw [scan, Cursor.next?_of_rest_nil h]

theorem scan_of_rest_cons (n : Nat) {s : State} {t : Token} {ts : List Token}
    (h : s.cursor.rest = t :: ts) :
    f.scan (n + 1) s = match FlagWord.ofText t.value with
      | .positional =>
        if f.anchored then (.ok s, []) else ((f.scan n s.behind).1, t :: (f.scan n s.behind).2)
      | .long name inline => f.scanAfter n (f.parseLong name inline t s.behind)
      | .short group => f.scanAfter n (f.parseGroup group s.behind) := by
  rw [scan, Cursor.next?_of_rest_cons h]
  rfl

/-- A scan leads on, and the positional tokens that it collects are among those that were left, in
the same order. -/
theorem leads_scan (hshort : ∀ d ∈ f.short, Advances d.2.parse)
    (hlong : ∀ d ∈ f.long, Advances d.2.parse) (n : Nat) (s : State) (hs : s.cursor.Valid) :
    s.Leads (f.scan n s).1.state ∧ (f.scan n s).2.Sublist s.cursor.rest := by
  induction n generalizing s with
  | zero => exact ⟨.refl hs, List.nil_sublist _⟩
  | succ n ih =>
    cases hrest : s.cursor.rest with
    | nil =>
      rw [scan_of_rest_nil _ hrest]
      exact ⟨.refl hs, .refl _⟩
    | cons t ts =>
      have hstep := State.leads_behind hs hrest
      have hts : s.behind.cursor.rest = ts := Cursor.rest_behind hrest
      have hafter : ∀ o : Outcome, s.behind.Leads o.state →
          s.Leads (f.scanAfter n o).1.state ∧ (f.scanAfter n o).2.Sublist (t :: ts) := by
        intro o ho
        cases o with
        | ok s' =>
          obtain ⟨hlead, hsub⟩ := ih s' ho.cursor.valid
          have hleft : s'.cursor.rest.Sublist ts := hts ▸ ho.cursor.rest
          exact ⟨(hstep.trans ho).trans hlead, (hsub.trans hleft).cons t⟩
        | failed e s' => exact ⟨hstep.trans ho, List.nil_sublist _⟩
      rw [scan_of_rest_cons n hrest]
      split
      · split
        · exact ⟨.refl hs, List.nil_sublist _⟩
        · obtain ⟨hlead, hsub⟩ := ih _ hstep.cursor.valid
          rw [hts] at hsub
          exact ⟨hstep.trans hlead, hsub.cons_cons t⟩
      · exact hafter _ (advances_parseLong hlong _ _ _ _ hstep.cursor.valid)
      · exact hafter _ (advances_parseGroup hshort _ _ hstep.cursor.valid)

theorem follows_handBack {s s' : State} (h : s.Leads s') {positional : List Token}
    (hsub : positional.Sublist s.cursor.rest) {left : Cursor}
    (hleft : (s'.cursor.onTokens positional).Follows left) :
    s.cursor.Follows
      (if left.hasNext then s'.cursor.splice s.cursor.position left.rest else s'.cursor) := by
  have hrest : left.rest.Sublist positional := by
    simpa only [Cursor.onTokens, Cursor.rest_ofTokens] using hleft.rest
  split
  · exact h.cursor.splice (hrest.trans hsub)
  · exact h.cursor

theorem advances_parse (hshort : ∀ d ∈ f.short, Advances d.2.parse)
    (hlong : ∀ d ∈ f.long, Advances d.2.parse) {child : Element} (hchild : Advances child.parse) :
    Advances (f.parse child) := by
  intro s hs
  obtain ⟨hlead, hsub⟩ := leads_scan hshort hlong s.cursor.remaining s hs
  unfold parse
  rcases hscan : f.scan s.cursor.remaining s with ⟨o, positional⟩
  rw [hscan] at hlead hsub
  cases o with
  | failed e s' => exact hlead
  | ok s' =>
    dsimp only [Outcome.andThen]
    split
    · exact hlead.trans (hchild s' hlead.cursor.valid)
    · have hinner := hchild ⟨s'.cursor.onTokens positional, s'.context⟩ (Cursor.valid_ofTokens _ _)
      exact leads_onCursor (follows_handBack hlead hsub hinner.cursor)
        (hlead.context.trans hinner.context)

end Flags

/-! ## All grammars -/

/-- Parsing an element leads from where it started to where it ends. -/
theorem Element.Built.advances {raw : Bool} {e : Element} (h : Built raw e) : Advances e.parse := by
  induction h with
  | none => exact fun s hs => .refl hs
  | markTrue key => exact fun s hs => State.leads_put hs key _
  | token h =>
    obtain ⟨key, convert, complete, rfl, -⟩ := h.eq_leaf
    exact advances_leaf key (follows_ofToken convert complete)
  | literal key value words => exact advances_literal key value words
  | rest key => exact advances_leaf key follows_joined
  | rawRest key _ => exact advances_leaf key fun c hc _ => .toEnd hc
  | seq _ ih => exact advances_parseSeq ih
  | optional default weak _ ih => exact advances_parseOptional default weak ih
  | firstOf _ ih => exact fun s hs => leads_parseFirst hs ih _ (.refl hs)
  | times n _ ih =>
    exact advances_parseSeq fun e he => (List.eq_of_mem_replicate he) ▸ ih
  | allOf n _ ih => exact fun s hs => advances_parseAll ih _ s hs
  | onlyOne _ ih => exact advances_onlyOne ih
  | flags _ _ _ hshort hlong hchild => exact Flags.advances_parse hshort hlong hchild

end ArgGrammar
