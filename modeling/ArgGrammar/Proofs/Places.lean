import ArgGrammar.Proofs.Threading

/-!
# The places that a grammar reaches

Statements of the form "wherever parsing or completing gets to, the tokens that are left are related
to those at the start" are proved here once, for any such relation.

* `Cursor.Spot`: a place and the tokens that are left there; `Cursor.spotAt`, `Cursor.spot`.
* `Cursor.Steady R`: the relation `R` is transitive, and holds along a view.
* `Element.BuiltWith ok`: the elements made with the constructors of this library, whose flags all
  satisfy `ok`.
* `Along R parse`: every success of the parse ends at a place that `R` relates to the start.
  `BuiltWith.along` proves it of a grammar from what its unanchored flags hand back.
* `Flags.Scans`: the scans for flags that succeed, word by word; `Flags.parse_ok`.
* `Step.Lands Q s`: a step of completion leaves the cursor where it was, and the places to go on from
  exist and are related by `Q` to the start. `BuiltWith.lands` proves it of a grammar from what trial
  parses that leave input reach.
-/

namespace ArgGrammar

namespace Cursor

/-- A place and the tokens that are left there. -/
structure Spot where
  position : Position
  rest : List Token

/-- What is left at a place. -/
def spotAt (c : Cursor) (p : Position) : Spot := ⟨p, (c.views.getD p.view []).drop p.index⟩

/-- What is left where the cursor is. -/
def spot (c : Cursor) : Spot := c.spotAt c.position

/-- The place exists. -/
structure Holds (c : Cursor) (p : Position) : Prop where
  view_lt : p.view < c.views.length
  index_le : p.index ≤ (c.views.getD p.view []).length

variable {c d : Cursor} {p : Position}

@[simp] theorem rest_spot (c : Cursor) : c.spot.rest = c.rest := rfl

theorem Valid.holds (h : c.Valid) : c.Holds c.position := ⟨h.view_lt, h.index_le⟩

theorem getD_views (hviews : c.views <+: d.views) {v : Nat} (hv : v < c.views.length) :
    d.views.getD v [] = c.views.getD v [] := by
  obtain ⟨more, hmore⟩ := hviews
  simp only [← hmore, List.getD_eq_getElem?_getD]
  rw [List.getElem?_append_left hv]

theorem Holds.mono (h : c.Holds p) (hviews : c.views <+: d.views) : d.Holds p :=
  ⟨Nat.lt_of_lt_of_le h.view_lt hviews.length_le, getD_views hviews h.view_lt ▸ h.index_le⟩

theorem Holds.spotAt_eq (h : c.Holds p) (hviews : c.views <+: d.views) :
    d.spotAt p = c.spotAt p := by
  rw [spotAt, spotAt, getD_views hviews h.view_lt]

@[simp] theorem views_restore (c : Cursor) (p : Position) : (c.restore p).views = c.views := by
  simp only [restore]
  split <;> rfl

@[simp] theorem spotAt_restore (c : Cursor) (p q : Position) :
    (c.restore p).spotAt q = c.spotAt q := by
  rw [spotAt, spotAt, views_restore]

theorem holds_restore {q : Position} (h : c.Holds q) : (c.restore p).Holds q :=
  h.mono ((views_restore c p).symm ▸ List.prefix_rfl)

theorem Holds.restore_eq (h : c.Holds p) :
    c.restore p = { c with view := p.view, index := p.index } := by
  have hplace : ({ c with view := p.view, index := p.index } : Cursor).Valid :=
    ⟨h.view_lt, h.index_le⟩
  exact restore_position hplace List.prefix_rfl

theorem Holds.position_restore (h : c.Holds p) : (c.restore p).position = p := by
  rw [h.restore_eq]
  rfl

theorem Holds.spot_restore (h : c.Holds p) : (c.restore p).spot = c.spotAt p := by
  rw [h.restore_eq]
  rfl

theorem Holds.rest_restore (h : c.Holds p) : (c.restore p).rest = (c.spotAt p).rest :=
  congrArg Spot.rest h.spot_restore

theorem Grown.restore (h : c.Grown d) (p : Position) : c.Grown (d.restore p) := by
  refine ⟨?_, by rw [views_restore]; exact h.views, h.valid.restore p⟩
  rw [Cursor.restore]
  split <;> exact h.raw_eq

theorem spot_eq_of_position (hc : c.Valid) (h : c.Grown d) (hpos : d.position = c.position) :
    d.spot = c.spot := by
  rw [spot, hpos]
  exact hc.holds.spotAt_eq h.views

/-- A transitive relation that holds between a place and every later one of the same view. -/
structure Steady (R : Spot → Spot → Prop) : Prop where
  forward {v i j : Nat} {ts : List Token} (hle : i ≤ j) (hj : j ≤ ts.length) :
    R ⟨⟨v, i⟩, ts.drop i⟩ ⟨⟨v, j⟩, ts.drop j⟩
  trans {a b c : Spot} (hab : R a b) (hbc : R b c) : R a c

theorem Steady.inView {R : Spot → Spot → Prop} (hR : Steady R) (hc : c.Valid) (h : c.Follows d)
    (hview : d.view = c.view) : R c.spot d.spot := by
  have htokens := tokens_eq_of_views hc h.views hview
  have hend : d.index ≤ c.tokens.length := htokens ▸ h.valid.index_le
  have hspot : d.spot = ⟨⟨c.view, d.index⟩, c.tokens.drop d.index⟩ := by
    rw [← htokens, ← hview]
    rfl
  rw [hspot]
  exact hR.forward h.index_le hend

end Cursor

open Cursor (Spot)

/-! ## Grammars -/

/-- The elements made with the constructors of this library. Flags and the element that they stand
around satisfy `ok`, at any depth and also in the values of flags. -/
inductive Element.BuiltWith (ok : Flags → Element → Prop) : Element → Prop where
  | none : BuiltWith ok .none
  | markTrue (key : String) : BuiltWith ok (.markTrue key)
  | token {e : Element} (h : TokenLeaf e) : BuiltWith ok e
  | literal (key : String) (value : Value) (words : List String) :
      BuiltWith ok (.literal key value words)
  | rest (key : String) : BuiltWith ok (.rest key)
  | rawRest (key : String) : BuiltWith ok (.rawRest key)
  | seq {es : List Element} (h : ∀ e ∈ es, BuiltWith ok e) : BuiltWith ok (.seq es)
  | optional {e : Element} (default : Option Value) (weak : Bool) (h : BuiltWith ok e) :
      BuiltWith ok (.optional e default weak)
  | firstOf {es : List Element} (h : ∀ e ∈ es, BuiltWith ok e) : BuiltWith ok (.firstOf es)
  | times (n : Nat) {e : Element} (h : BuiltWith ok e) : BuiltWith ok (.times n e)
  | allOf (patience : Nat) {e : Element} (h : BuiltWith ok e) : BuiltWith ok (.allOf e patience)
  | onlyOne {e : Element} (h : BuiltWith ok e) : BuiltWith ok (.onlyOne e)
  | flags {f : Flags} {child : Element} (hok : ok f child) (hshort : ∀ d ∈ f.short, BuiltWith ok d.2)
      (hlong : ∀ d ∈ f.long, BuiltWith ok d.2) (h : BuiltWith ok child) :
      BuiltWith ok (f.around child)

theorem Element.BuiltWith.built {ok : Flags → Element → Prop} {e : Element} (h : e.BuiltWith ok) :
    e.Built true := by
  induction h with
  | none => exact .none
  | markTrue key => exact .markTrue key
  | token h => exact .token h
  | literal key value words => exact .literal key value words
  | rest key => exact .rest key
  | rawRest key => exact .rawRest key rfl
  | seq _ ih => exact .seq ih
  | optional default weak _ ih => exact .optional default weak ih
  | firstOf _ ih => exact .firstOf ih
  | times n _ ih => exact .times n ih
  | allOf n _ ih => exact .allOf n ih
  | onlyOne _ ih => exact .onlyOne ih
  | flags _ _ _ _ hshort hlong hchild => exact .flags hshort hlong hchild

theorem Element.Built.builtWith {raw : Bool} {e : Element} (h : e.Built raw) :
    e.BuiltWith fun _ _ => True := by
  induction h with
  | none => exact .none
  | markTrue key => exact .markTrue key
  | token h => exact .token h
  | literal key value words => exact .literal key value words
  | rest key => exact .rest key
  | rawRest key _ => exact .rawRest key
  | seq _ ih => exact .seq ih
  | optional default weak _ ih => exact .optional default weak ih
  | firstOf _ ih => exact .firstOf ih
  | times n _ ih => exact .times n ih
  | allOf n _ ih => exact .allOf n ih
  | onlyOne _ ih => exact .onlyOne ih
  | flags _ _ _ hshort hlong hchild => exact .flags trivial hshort hlong hchild

/-! ## Parsing -/

/-- The parse advances, and every success ends at a place that `R` relates to the start. -/
structure Along (R : Spot → Spot → Prop) (parse : State → Outcome) : Prop where
  advances : Advances parse
  spot {s t : State} (hs : s.cursor.Valid) (h : parse s = .ok t) : R s.cursor.spot t.cursor.spot

variable {R : Spot → Spot → Prop}

theorem Along.leads {parse : State → Outcome} (h : Along R parse) {s t : State}
    (hs : s.cursor.Valid) (hparse : parse s = .ok t) : s.Leads t := by
  have hleads := h.advances s hs
  rwa [hparse] at hleads

theorem along_of_view (hR : Cursor.Steady R) {parse : State → Outcome} (ha : Advances parse)
    (hview : ∀ s : State, (parse s).state.cursor.view = s.cursor.view) : Along R parse := by
  refine ⟨ha, fun {s t} hs hparse => ?_⟩
  have hcursor := (ha s hs).cursor
  have hsame := hview s
  rw [hparse] at hcursor hsame
  exact hR.inView hs hcursor hsame

theorem Along.andThen (hR : Cursor.Steady R) {f g : State → Outcome} (hf : Along R f)
    (hg : Along R g) : Along R fun s => (f s).andThen g := by
  refine ⟨fun s hs => leads_andThen (hf.advances s hs) hg.advances, fun {s t} hs hparse => ?_⟩
  cases hfirst : f s with
  | failed e u => simp [hfirst, Outcome.andThen] at hparse
  | ok u =>
    simp only [hfirst, Outcome.andThen] at hparse
    exact hR.trans (hf.spot hs hfirst) (hg.spot (hf.leads hs hfirst).cursor.valid hparse)

namespace Element

theorem view_leaf (key : String) {r : Reader} (hr : ∀ c : Cursor, (r.read c).2.view = c.view)
    (s : State) : ((leaf key r).parse s).state.cursor.view = s.cursor.view := by
  simp only [leaf, ofTrial]
  split
  · have hread := hr s.cursor
    rcases hres : r.read s.cursor with ⟨_ | v, c⟩ <;> (rw [hres] at hread; exact hread)
  · rfl

theorem view_ofToken (convert : String → Except Complaint Value) (complete : String → List String)
    (c : Cursor) : ((Reader.ofToken convert complete).read c).2.view = c.view := by
  cases hrest : c.rest with
  | nil => simp only [Reader.ofToken, Cursor.next, Cursor.next?_of_rest_nil hrest]
  | cons t ts =>
    simp only [Reader.ofToken, Cursor.next, Cursor.next?_of_rest_cons hrest]
    cases convert t.value <;> rfl

theorem view_joined (c : Cursor) : (Reader.joined.read c).2.view = c.view := by
  simp only [Reader.joined]
  split <;> rfl

theorem view_parseWords (words : List String) (s : State) :
    (Literal.parseWords words s).state.cursor.view = s.cursor.view := by
  induction words generalizing s with
  | nil => rfl
  | cons word words ih =>
    rw [Literal.parseWords]
    cases hrest : s.cursor.rest with
    | nil => rw [Cursor.next?_of_rest_nil hrest]; rfl
    | cons t ts =>
      rw [Cursor.next?_of_rest_cons hrest]
      dsimp only
      split
      · exact ih s.behind
      · rfl

theorem view_literal (key : String) (value : Value) (words : List String) (s : State) :
    ((literal key value words).parse s).state.cursor.view = s.cursor.view := by
  have hwords := view_parseWords words s
  simp only [literal, ofTrial]
  cases hparse : Literal.parseWords words s <;> (rw [hparse] at hwords; exact hwords)

theorem along_parseSeq (hR : Cursor.Steady R) {es : List Element} (h : ∀ e ∈ es, Along R e.parse) :
    Along R (parseSeq es) := by
  induction es with
  | nil => exact along_of_view hR (fun s hs => .refl hs) fun s => rfl
  | cons e es ih =>
    exact (h e (by simp)).andThen hR (ih fun e' he' => h e' (by simp [he']))

theorem along_parseOptional (hR : Cursor.Steady R) {e : Element} (default : Option Value)
    (weak : Bool) (h : Along R e.parse) : Along R (parseOptional e default weak) := by
  refine ⟨advances_parseOptional default weak h.advances, fun {s t} hs hparse => ?_⟩
  have hleads := h.advances s hs
  unfold parseOptional at hparse
  split at hparse
  · split at hparse
    · next s' heq =>
      cases hparse
      exact h.spot hs heq
    · next err s' heq =>
      rw [heq] at hleads
      split at hparse
      · -- The attempt came to nothing, and the place is the one at the start.
        cases hparse
        rw [recordDefault_cursor]
        have hback := (State.leads_backTo hs hleads).cursor
        exact hR.inView hs hback (congrArg Cursor.Position.view (State.position_backTo hs hleads))
      · cases hparse
  · cases hparse
    rw [recordDefault_cursor]
    exact hR.inView hs (.refl hs) rfl

theorem spot_parseFirst {start : State} (hstart : start.cursor.Valid) {es : List Element}
    (h : ∀ e ∈ es, Along R e.parse) {last : ParseError} {s t : State} (hs : start.Leads s)
    (hpos : s.cursor.position = start.cursor.position) (hparse : parseFirst start es last s = .ok t) :
    R start.cursor.spot t.cursor.spot := by
  induction es generalizing last s with
  | nil => cases hparse
  | cons e es ih =>
    have he := h e (by simp)
    have hleads := hs.trans (he.advances s hs.cursor.valid)
    rw [parseFirst] at hparse
    split at hparse
    · next s' heq =>
      cases hparse
      rw [← Cursor.spot_eq_of_position hstart hs.cursor.grown hpos]
      exact he.spot hs.cursor.valid heq
    · next err s' heq =>
      rw [heq] at hleads
      exact ih (fun e' he' => h e' (by simp [he'])) (State.leads_backTo hstart hleads)
        (State.position_backTo hstart hleads) hparse

theorem along_firstOf {es : List Element} (h : ∀ e ∈ es, Along R e.parse) :
    Along R (firstOf es).parse where
  advances _ hs := leads_parseFirst hs (fun e he => (h e he).advances) _ (.refl hs)
  spot hs hparse := spot_parseFirst hs h (.refl hs) rfl hparse

theorem along_parseAll (hR : Cursor.Steady R) {e : Element} (h : Along R e.parse) (n : Nat) :
    Along R (parseAll e n) := by
  refine ⟨advances_parseAll h.advances n, fun {s t} hs hparse => ?_⟩
  induction n generalizing s with
  | zero =>
    cases hparse
    exact hR.inView hs (.refl hs) rfl
  | succ n ih =>
    rw [parseAll] at hparse
    split at hparse
    · split at hparse
      · next s' heq =>
        have hround := h.spot hs heq
        split at hparse
        · cases hparse
          exact hround
        · exact hR.trans hround (ih (h.leads hs heq).cursor.valid hparse)
      · cases hparse
    · cases hparse
      exact hR.inView hs (.refl hs) rfl

theorem onlyOne_ok {e : Element} {s t : State} (h : (onlyOne e).parse s = .ok t) :
    e.parse s = .ok t := by
  simp only [onlyOne] at h
  cases hparse : e.parse s with
  | failed err u => simp [hparse, Outcome.andThen] at h
  | ok u =>
    simp only [hparse, Outcome.andThen] at h
    split at h
    · split at h
      · cases h
      · exact h
    · exact h

theorem along_onlyOne {e : Element} (h : Along R e.parse) : Along R (onlyOne e).parse where
  advances := advances_onlyOne h.advances
  spot hs hparse := h.spot hs (onlyOne_ok hparse)

end Element

namespace Flags

variable {f : Flags} {child : Element}

theorem along_string (hR : Cursor.Steady R) (key : String) : Along R (Element.string key).parse :=
  along_of_view hR (Element.advances_leaf key (Element.follows_ofToken _ _))
    (Element.view_leaf key (Element.view_ofToken _ _))

theorem along_parseLong (hR : Cursor.Steady R) (hlong : ∀ d ∈ f.long, Along R d.2.parse)
    (name : String) (inline : Option String) (t : Token) : Along R (f.parseLong name inline t) := by
  refine ⟨advances_parseLong (fun d hd => (hlong d hd).advances) name inline t,
    fun {s u} hs hparse => ?_⟩
  have hstay : R s.cursor.spot s.cursor.spot := hR.inView hs (.refl hs) rfl
  unfold parseLong at hparse
  split at hparse
  · next e he =>
    obtain ⟨d, hd, rfl⟩ := OrderedMap.mem_of_get? he
    exact (hlong d hd).spot hs hparse
  · -- The value is read off a cursor of its own.
    next e value he =>
    cases hvalue : e.parse ⟨inlineCursor s.cursor t value, s.context⟩ with
    | ok v =>
      rw [hvalue] at hparse
      cases hparse
      exact hstay
    | failed err v =>
      rw [hvalue] at hparse
      cases hparse
  · split at hparse
    · cases hparse
    · cases hparse; exact hstay
    · cases hparse; exact hstay
    · cases hparse; exact hstay
    · cases hparse; exact hstay
    · exact (along_string hR name).spot hs hparse

theorem along_parseShort (hR : Cursor.Steady R) (hshort : ∀ d ∈ f.short, Along R d.2.parse)
    (name : Char) : Along R (f.parseShort name) := by
  refine ⟨advances_parseShort (fun d hd => (hshort d hd).advances) name, fun {s u} hs hparse => ?_⟩
  have hstay : R s.cursor.spot s.cursor.spot := hR.inView hs (.refl hs) rfl
  unfold parseShort at hparse
  split at hparse
  · next e he =>
    obtain ⟨d, hd, rfl⟩ := OrderedMap.mem_of_get? he
    exact (hshort d hd).spot hs hparse
  · split at hparse
    · cases hparse
    · cases hparse; exact hstay
    · cases hparse; exact hstay
    · exact (along_string hR _).spot hs hparse

theorem along_parseGroup (hR : Cursor.Steady R) (hshort : ∀ d ∈ f.short, Along R d.2.parse)
    (group : List Char) : Along R (f.parseGroup group) := by
  induction group with
  | nil => exact along_of_view hR (fun s hs => .refl hs) fun s => rfl
  | cons c cs ih => exact (along_parseShort hR hshort c).andThen hR ih

/-- A scan from `s` that succeeds, word by word: it ends in `s'` and collects `positional`. -/
inductive Scans (f : Flags) : State → State → List Token → Prop where
  | finished {s : State} (hrest : s.cursor.rest = []) : Scans f s s []
  | stopped {s : State} {a : Token} {ts : List Token} (hanchored : f.anchored = true)
      (hrest : s.cursor.rest = a :: ts) (hword : FlagWord.ofText a.value = .positional) :
      Scans f s s []
  | positional {s s' : State} {a : Token} {ts positional : List Token} (hanchored : f.anchored = false)
      (hrest : s.cursor.rest = a :: ts) (hword : FlagWord.ofText a.value = .positional)
      (h : Scans f s.behind s' positional) : Scans f s s' (a :: positional)
  | long {s u s' : State} {a : Token} {ts positional : List Token} {name : String}
      {inline : Option String} (hrest : s.cursor.rest = a :: ts)
      (hword : FlagWord.ofText a.value = .long name inline)
      (hflag : f.parseLong name inline a s.behind = .ok u) (h : Scans f u s' positional) :
      Scans f s s' positional
  | short {s u s' : State} {a : Token} {ts positional : List Token} {group : List Char}
      (hrest : s.cursor.rest = a :: ts) (hword : FlagWord.ofText a.value = .short group)
      (hflag : f.parseGroup group s.behind = .ok u) (h : Scans f u s' positional) :
      Scans f s s' positional

theorem scans_of_scan (hshort : ∀ d ∈ f.short, Advances d.2.parse)
    (hlong : ∀ d ∈ f.long, Advances d.2.parse) {n : Nat} {s s' : State} {positional : List Token}
    (hs : s.cursor.Valid) (hn : s.cursor.rest.length ≤ n)
    (hscan : f.scan n s = (.ok s', positional)) : f.Scans s s' positional := by
  induction n generalizing s positional with
  | zero =>
    cases hscan
    exact .finished (List.length_eq_zero_iff.mp (Nat.le_zero.mp hn))
  | succ n ih =>
    cases hrest : s.cursor.rest with
    | nil =>
      rw [scan_of_rest_nil _ hrest] at hscan
      cases hscan
      exact .finished hrest
    | cons a ts =>
      have hvalid : s.behind.cursor.Valid := hs.behind hrest
      have hts : s.behind.cursor.rest.length ≤ n := by
        rw [hrest, List.length_cons] at hn
        show s.cursor.behind.rest.length ≤ n
        rw [Cursor.rest_behind hrest]
        omega
      have hafter : ∀ {parse : State → Outcome}, Advances parse →
          f.scanAfter n (parse s.behind) = (.ok s', positional) →
          ∃ u, parse s.behind = .ok u ∧ f.Scans u s' positional := by
        intro parse hparse hgo
        have hleads := hparse s.behind hvalid
        cases hflag : parse s.behind with
        | failed e u =>
          rw [hflag] at hgo
          cases hgo
        | ok u =>
          rw [hflag] at hgo hleads
          have hu := Nat.le_trans hleads.cursor.rest.length_le hts
          exact ⟨u, rfl, ih hleads.cursor.valid hu hgo⟩
      rw [scan_of_rest_cons n hrest] at hscan
      split at hscan
      · next hword =>
        split at hscan
        · next hanchored =>
          cases hscan
          exact .stopped hanchored hrest hword
        · next hanchored =>
          rw [Prod.ext_iff] at hscan
          obtain ⟨hout, rfl⟩ := hscan
          exact .positional (by simpa using hanchored) hrest hword
            (ih hvalid hts (Prod.ext_iff.mpr ⟨hout, rfl⟩))
      · next hword =>
        obtain ⟨u, hflag, hgo⟩ := hafter (advances_parseLong hlong _ _ _) hscan
        exact .long hrest hword hflag hgo
      · next hword =>
        obtain ⟨u, hflag, hgo⟩ := hafter (advances_parseGroup hshort _) hscan
        exact .short hrest hword hflag hgo

theorem scans_remaining (hshort : ∀ d ∈ f.short, Advances d.2.parse)
    (hlong : ∀ d ∈ f.long, Advances d.2.parse) {s s' : State} {positional : List Token}
    (hs : s.cursor.Valid) (hscan : f.scan s.cursor.remaining s = (.ok s', positional)) :
    f.Scans s s' positional :=
  scans_of_scan hshort hlong hs (Nat.le_of_eq (Cursor.remaining_eq _).symm) hscan

theorem Scans.spot (hR : Cursor.Steady R) (hshort : ∀ d ∈ f.short, Along R d.2.parse)
    (hlong : ∀ d ∈ f.long, Along R d.2.parse) {s s' : State} {positional : List Token}
    (h : f.Scans s s' positional) (hs : s.cursor.Valid) : R s.cursor.spot s'.cursor.spot := by
  have hbehind : ∀ {s : State} {a : Token} {ts : List Token}, s.cursor.Valid →
      s.cursor.rest = a :: ts → R s.cursor.spot s.behind.cursor.spot :=
    fun hs hrest => hR.inView hs (.behind hs hrest) rfl
  have hread : ∀ {parse : State → Outcome}, Along R parse → ∀ {s u : State} {a : Token}
      {ts : List Token}, s.cursor.Valid → s.cursor.rest = a :: ts → parse s.behind = .ok u →
      u.cursor.Valid ∧ R s.cursor.spot u.cursor.spot := by
    intro parse hparse s u a ts hs hrest hflag
    have hvalid : s.behind.cursor.Valid := hs.behind hrest
    exact ⟨(hparse.leads hvalid hflag).cursor.valid,
      hR.trans (hbehind hs hrest) (hparse.spot hvalid hflag)⟩
  induction h with
  | finished => exact hR.inView hs (.refl hs) rfl
  | stopped => exact hR.inView hs (.refl hs) rfl
  | positional _ hrest _ _ ih => exact hR.trans (hbehind hs hrest) (ih (hs.behind hrest))
  | long hrest _ hflag _ ih =>
    obtain ⟨hvalid, hspot⟩ := hread (along_parseLong hR hlong _ _ _) hs hrest hflag
    exact hR.trans hspot (ih hvalid)
  | short hrest _ hflag _ ih =>
    obtain ⟨hvalid, hspot⟩ := hread (along_parseGroup hR hshort _) hs hrest hflag
    exact hR.trans hspot (ih hvalid)

theorem parse_ok {s u : State} (h : f.parse child s = .ok u) :
    ∃ s' positional, f.scan s.cursor.remaining s = (.ok s', positional) ∧
      ((f.anchored = true ∧ child.parse s' = .ok u) ∨
        (f.anchored = false ∧
          ∃ t, child.parse ⟨s'.cursor.onTokens positional, s'.context⟩ = .ok t ∧
            ((t.cursor.rest = [] ∧ u.cursor = s'.cursor) ∨
              (t.cursor.rest ≠ [] ∧
                u.cursor = s'.cursor.splice s.cursor.position t.cursor.rest)))) := by
  unfold parse at h
  rcases hscan : f.scan s.cursor.remaining s with ⟨o, positional⟩
  rw [hscan] at h
  cases o with
  | failed e s' => cases h
  | ok s' =>
    refine ⟨s', positional, rfl, ?_⟩
    simp only [Outcome.andThen] at h
    split at h
    · next hanchored => exact .inl ⟨hanchored, h⟩
    · next hanchored =>
      refine .inr ⟨by simpa using hanchored, ?_⟩
      cases hinner : child.parse ⟨s'.cursor.onTokens positional, s'.context⟩ with
      | failed e t =>
        rw [hinner] at h
        cases h
      | ok t =>
        simp only [hinner, Outcome.state, onCursor, Outcome.ok.injEq] at h
        refine ⟨t, rfl, ?_⟩
        subst h
        split
        · next hnext => exact .inr ⟨(Cursor.hasNext_iff _).mp hnext, rfl⟩
        · next hnext => exact .inl ⟨by simpa [Cursor.hasNext_iff] using hnext, rfl⟩

theorem parse_none (hanchored : f.anchored = false) {s s' : State} {positional : List Token}
    (hscan : f.scan s.cursor.remaining s = (.ok s', positional)) (hpositional : positional ≠ []) :
    f.parse .none s = .ok ⟨s'.cursor.splice s.cursor.position positional, s'.context⟩ := by
  have hnext : (s'.cursor.onTokens positional).hasNext = true :=
    (Cursor.hasNext_iff _).mpr hpositional
  simp only [parse, hscan, Outcome.andThen, hanchored, Bool.false_eq_true, if_false, Element.none,
    Element.ofTrial, Outcome.state, hnext, if_true, onCursor]
  rfl

/-- What the child leaves of the positional tokens is related to the place where the flags started,
as if it stood there in another view. -/
def HandsBack (R : Spot → Spot → Prop) (f : Flags) (child : Element) : Prop :=
  ∀ {s s' t : State} {positional : List Token}, s.cursor.Valid →
    f.scan s.cursor.remaining s = (.ok s', positional) →
    child.parse ⟨s'.cursor.onTokens positional, s'.context⟩ = .ok t → t.cursor.rest ≠ [] →
    ∀ view : Nat, R s.cursor.spot ⟨⟨view, s.cursor.index⟩, t.cursor.rest⟩

theorem along_parse (hR : Cursor.Steady R) (hshort : ∀ d ∈ f.short, Along R d.2.parse)
    (hlong : ∀ d ∈ f.long, Along R d.2.parse) (hchild : Along R child.parse)
    (hback : f.anchored = false → f.HandsBack R child) : Along R (f.parse child) := by
  have hshort' := fun d hd => (hshort d hd).advances
  have hlong' := fun d hd => (hlong d hd).advances
  refine ⟨advances_parse hshort' hlong' hchild.advances, fun {s u} hs hparse => ?_⟩
  obtain ⟨s', positional, hscan, hends⟩ := parse_ok hparse
  have hflags := (scans_remaining hshort' hlong' hs hscan).spot hR hshort hlong hs
  have hlead : s.Leads s' := by
    have := (leads_scan hshort' hlong' s.cursor.remaining s hs).1
    rwa [hscan] at this
  rcases hends with ⟨-, hinner⟩ | ⟨hanchored, t, hinner, ⟨-, hcursor⟩ | ⟨hleft, hcursor⟩⟩
  · exact hR.trans hflags (hchild.spot hlead.cursor.valid hinner)
  · rw [hcursor]
    exact hflags
  · have hspot : u.cursor.spot =
        ⟨⟨s'.cursor.views.length, s.cursor.index⟩, t.cursor.rest⟩ := by
      rw [hcursor, ← hlead.cursor.index_splice t.cursor.rest]
      exact congrArg (Spot.mk _) (Cursor.rest_splice s'.cursor s.cursor.position t.cursor.rest)
    rw [hspot]
    exact hback hanchored hs hscan hinner hleft _

end Flags

/-- Parsing a grammar goes along `R` if what its unanchored flags hand back does. -/
theorem Element.BuiltWith.along {ok : Flags → Element → Prop} (hR : Cursor.Steady R)
    (hback : ∀ {f : Flags} {child : Element}, ok f child → f.anchored = false →
      (∀ d ∈ f.short, Advances d.2.parse) → (∀ d ∈ f.long, Advances d.2.parse) →
      Along R child.parse → f.HandsBack R child)
    {e : Element} (h : e.BuiltWith ok) : Along R e.parse := by
  induction h with
  | none => exact along_of_view hR (fun s hs => .refl hs) fun s => rfl
  | markTrue key => exact along_of_view hR (fun s hs => State.leads_put hs key _) fun s => rfl
  | token h =>
    obtain ⟨key, convert, complete, rfl, -⟩ := h.eq_leaf
    exact along_of_view hR (advances_leaf key (follows_ofToken convert complete))
      (view_leaf key (view_ofToken convert complete))
  | literal key value words =>
    exact along_of_view hR (advances_literal key value words) (view_literal key value words)
  | rest key => exact along_of_view hR (advances_leaf key follows_joined) (view_leaf key view_joined)
  | rawRest key =>
    exact along_of_view hR (advances_leaf key fun c hc _ => .toEnd hc) (view_leaf key fun _ => rfl)
  | seq _ ih => exact along_parseSeq hR ih
  | optional default weak _ ih => exact along_parseOptional hR default weak ih
  | firstOf _ ih => exact along_firstOf ih
  | times n _ ih => exact along_parseSeq hR fun e he => List.eq_of_mem_replicate he ▸ ih
  | allOf n _ ih =>
    exact ⟨fun s hs => advances_parseAll ih.advances _ s hs,
      fun hs hparse => (along_parseAll hR ih _).spot hs hparse⟩
  | onlyOne _ ih => exact along_onlyOne ih
  | flags hok _ _ _ hshort hlong hchild =>
    exact Flags.along_parse hR hshort hlong hchild fun hanchored =>
      hback hok hanchored (fun d hd => (hshort d hd).advances) (fun d hd => (hlong d hd).advances)
        hchild

/-! ## Completing -/

/-- The step leaves the cursor where it was, and the places to go on from exist and are related by
`Q` to the start. -/
structure Step.Lands (Q : Spot → Spot → Prop) (s : State) (found : Step) : Prop where
  follows : s.cursor.Follows found.cursor
  position : found.cursor.position = s.cursor.position
  resumes : ∀ r ∈ found.resumes,
    found.cursor.Holds r.position ∧ Q s.cursor.spot (found.cursor.spotAt r.position)

/-- Every step of the element lands. -/
def Element.Lands (Q : Spot → Spot → Prop) (e : Element) : Prop :=
  ∀ s : State, s.cursor.Valid → (e.step s).Lands Q s

variable {Q : Spot → Spot → Prop}

namespace Step

variable {s s' : State} {found : Step}

theorem Lands.of_position (hs : s.cursor.Valid) (h : s.cursor.Follows s'.cursor)
    (hpos : s'.cursor.position = s.cursor.position) (hland : found.Lands Q s') :
    found.Lands Q s where
  follows := h.trans hland.follows
  position := hland.position.trans hpos
  resumes := by
    rw [← Cursor.spot_eq_of_position hs h.grown hpos]
    exact hland.resumes

theorem lands_restore (hs : s.cursor.Valid) {candidates : List String} {resumes : List Resume}
    {k : Cursor} (hgrown : s.cursor.Grown k)
    (h : ∀ r ∈ resumes, k.Holds r.position ∧ Q s.cursor.spot (k.spotAt r.position)) :
    Lands Q s ⟨candidates, resumes, k.restore s.cursor.position⟩ where
  follows := hgrown.back hs
  position := (hs.holds.mono hgrown.views).position_restore
  resumes r hr := by
    obtain ⟨hholds, hspot⟩ := h r hr
    exact ⟨Cursor.holds_restore hholds, by rwa [Cursor.spotAt_restore]⟩

theorem speculate_of_ok {parse : State → Outcome} (complete : State → List String) {t : State}
    (hparse : parse s = .ok t) (hrest : t.cursor.rest ≠ []) :
    Element.speculate parse complete s =
      .resume ⟨t.cursor.position, t.context⟩ (t.cursor.restore s.cursor.position) := by
  have hnext := (Cursor.hasNext_iff _).mpr hrest
  simp only [Element.speculate, hparse, Outcome.isOk, Outcome.state, hnext, Bool.and_self, if_true]

theorem lands_speculate {parse : State → Outcome} (ha : Advances parse)
    (complete : State → List String) (hs : s.cursor.Valid)
    (h : ∀ t, parse s = .ok t → t.cursor.rest ≠ [] → Q s.cursor.spot t.cursor.spot) :
    (Element.speculate parse complete s).Lands Q s := by
  have hgrown := (ha s hs).cursor.grown
  by_cases hgoing : ∃ t, parse s = .ok t ∧ t.cursor.rest ≠ []
  · obtain ⟨t, htrial, hrest⟩ := hgoing
    rw [htrial] at hgrown
    rw [speculate_of_ok complete htrial hrest]
    refine lands_restore hs hgrown fun r hr => ?_
    obtain rfl := List.mem_singleton.mp hr
    exact ⟨hgrown.valid.holds, h t htrial hrest⟩
  · have hstuck : ¬ ((parse s).isOk && (parse s).state.cursor.hasNext) = true := by
      intro hok
      obtain ⟨hisOk, hnext⟩ := Bool.and_eq_true_iff.mp hok
      cases htrial : parse s with
      | failed err t => simp [htrial, Outcome.isOk] at hisOk
      | ok t =>
        rw [htrial] at hnext
        exact hgoing ⟨t, htrial, (Cursor.hasNext_iff _).mp hnext⟩
    rw [Element.speculate, if_neg hstuck]
    exact lands_restore hs hgrown fun _ hr => absurd hr List.not_mem_nil

end Step

theorem Resume.mem_addTo {rs : List Resume} {r r' : Resume} (h : r' ∈ addTo rs r) :
    r' ∈ rs ∨ r' = r := by
  have hunion : r' ∈ union rs [r] := h
  simpa using mem_union hunion

namespace Element

variable {e : Element} {es : List Element} {c : Cursor} {rs : List Resume}

/-! ### One after another -/

/-- What is found from the places `rs`: each place to go on from comes from one of them. -/
structure Reaches (Q : Spot → Spot → Prop) (c : Cursor) (rs : List Resume) (found : Step) : Prop where
  grown : c.Grown found.cursor
  resumes : ∀ r' ∈ found.resumes, found.cursor.Holds r'.position ∧
    ∃ r ∈ rs, Q (c.spotAt r.position) (found.cursor.spotAt r'.position)

theorem Reaches.merge (he : e.Lands Q) {found : Step} (hfound : Reaches Q c rs found) {r : Resume}
    (hr : r ∈ rs) (hholds : c.Holds r.position) :
    Reaches Q c rs (found.merge (e.step ⟨found.cursor.restore r.position, r.context⟩)) := by
  have hthere : found.cursor.Holds r.position := hholds.mono hfound.grown.views
  have hland := he ⟨found.cursor.restore r.position, r.context⟩ (hfound.grown.valid.restore _)
  have hviews := hland.follows.views
  rw [Cursor.views_restore] at hviews
  refine ⟨(hfound.grown.restore _).trans hland.follows.grown, fun r' hr' => ?_⟩
  rcases Resume.mem_union hr' with hold | hnew
  · obtain ⟨hplace, r₀, hr₀, hspot⟩ := hfound.resumes r' hold
    exact ⟨hplace.mono hviews, r₀, hr₀, (hplace.spotAt_eq hviews).symm ▸ hspot⟩
  · obtain ⟨hplace, hspot⟩ := hland.resumes r' hnew
    rw [hthere.spot_restore, hholds.spotAt_eq hfound.grown.views] at hspot
    exact ⟨hplace, r, hr, hspot⟩

theorem reaches_stepFrom (he : e.Lands Q) (hc : c.Valid) (hrs : ∀ r ∈ rs, c.Holds r.position) :
    Reaches Q c rs (stepFrom e c rs) := by
  have hfold : ∀ (todo : List Resume) (found : Step), (∀ r ∈ todo, r ∈ rs) →
      Reaches Q c rs found →
      Reaches Q c rs (todo.foldl
        (fun found r => found.merge (e.step ⟨found.cursor.restore r.position, r.context⟩)) found) := by
    intro todo
    induction todo with
    | nil => exact fun _ _ hfound => hfound
    | cons r todo ih =>
      intro found hsub hfound
      have hr := hsub r (by simp)
      exact ih _ (fun r' hr' => hsub r' (by simp [hr'])) (hfound.merge he hr (hrs r hr))
  exact hfold rs _ (fun _ hr => hr) ⟨.refl hc, nofun⟩

theorem Reaches.trans (htrans : ∀ ⦃a b c : Spot⦄, Q a b → Q b c → Q a c) {here later : Step}
    (hhere : Reaches Q c rs here) (hlater : Reaches Q here.cursor here.resumes later) :
    Reaches Q c rs later := by
  refine ⟨hhere.grown.trans hlater.grown, fun r'' hr'' => ?_⟩
  obtain ⟨hplace, r', hr', hspot'⟩ := hlater.resumes r'' hr''
  obtain ⟨-, r, hr, hspot⟩ := hhere.resumes r' hr'
  exact ⟨hplace, r, hr, htrans hspot hspot'⟩

theorem reaches_thread (hrefl : ∀ a : Spot, Q a a)
    (htrans : ∀ ⦃a b c : Spot⦄, Q a b → Q b c → Q a c) (hes : ∀ e ∈ es, e.Lands Q) (hc : c.Valid)
    (hrs : ∀ r ∈ rs, c.Holds r.position) : Reaches Q c rs (thread es c rs) := by
  induction es generalizing c rs with
  | nil => exact ⟨.refl hc, fun r hr => ⟨hrs r hr, r, hr, hrefl _⟩⟩
  | cons e es ih =>
    have hhere := reaches_stepFrom (hes e (by simp)) hc hrs
    rw [thread]
    split
    · exact hhere
    · have hlater := ih (fun e' he' => hes e' (by simp [he'])) hhere.grown.valid
        fun r hr => (hhere.resumes r hr).1
      obtain ⟨hgrown, hresumes⟩ := hhere.trans htrans hlater
      exact ⟨hgrown, hresumes⟩

theorem lands_stepSeq (hrefl : ∀ a : Spot, Q a a)
    (htrans : ∀ ⦃a b c : Spot⦄, Q a b → Q b c → Q a c) (hes : ∀ e ∈ es, e.Lands Q) {s : State}
    (hs : s.cursor.Valid) : (stepSeq es s).Lands Q s := by
  have hstart : ∀ r ∈ [(⟨s.cursor.position, s.context⟩ : Resume)], s.cursor.Holds r.position := by
    intro r hr
    obtain rfl := List.mem_singleton.mp hr
    exact hs.holds
  obtain ⟨hgrown, hresumes⟩ := reaches_thread hrefl htrans hes hs hstart
  refine Step.lands_restore hs hgrown fun r hr => ?_
  obtain ⟨hplace, r₀, hr₀, hspot⟩ := hresumes r (List.mem_filter.mp hr).1
  obtain rfl := List.mem_singleton.mp hr₀
  exact ⟨hplace, hspot⟩

/-! ### The other elements -/

theorem lands_stepOptional (hrefl : ∀ a : Spot, Q a a) (default : Option Value) (weak : Bool)
    (ha : Advances e.parse) (he : e.Lands Q) {s : State} (hs : s.cursor.Valid) :
    (stepOptional e default weak s).Lands Q s := by
  have hgrown := (ha s hs).cursor.grown
  have hskip : ∀ {k : Cursor}, s.cursor.Grown k →
      k.Holds s.cursor.position ∧ Q s.cursor.spot (k.spotAt s.cursor.position) := by
    intro k hk
    refine ⟨hs.holds.mono hk.views, ?_⟩
    rw [hs.holds.spotAt_eq hk.views]
    exact hrefl _
  have hback : s.cursor.Follows ((e.parse s).state.cursor.restore s.cursor.position) :=
    hgrown.back hs
  have hpos : ((e.parse s).state.cursor.restore s.cursor.position).position = s.cursor.position :=
    (hs.holds.mono hgrown.views).position_restore
  have hstep := (he ⟨(e.parse s).state.cursor.restore s.cursor.position, s.context⟩
    hback.valid).of_position hs hback hpos
  unfold stepOptional
  split
  · dsimp only
    split
    · split
      · exact hstep
      · refine Step.lands_restore hs hgrown fun r hr => ?_
        obtain rfl := List.mem_singleton.mp hr
        exact hskip hgrown
    · -- The attempt reaches the last token; a weak element may be skipped as well.
      split
      · refine Step.lands_restore hs hstep.follows.grown fun r hr => ?_
        rcases Resume.mem_addTo hr with hold | rfl
        · exact hstep.resumes r hold
        · exact hskip hstep.follows.grown
      · exact Step.lands_restore hs hstep.follows.grown hstep.resumes
  · refine ⟨.refl hs, rfl, fun r hr => ?_⟩
    obtain rfl := List.mem_singleton.mp hr
    exact hskip (.refl hs)

theorem lands_stepFirst (hes : ∀ e ∈ es, e.Lands Q) {s : State} (hs : s.cursor.Valid) {k : Cursor}
    (hk : s.cursor.Grown k) :
    k.Grown (stepFirst s.cursor.position s.context es k).cursor ∧
      ∀ r ∈ (stepFirst s.cursor.position s.context es k).resumes,
        (stepFirst s.cursor.position s.context es k).cursor.Holds r.position ∧
          Q s.cursor.spot ((stepFirst s.cursor.position s.context es k).cursor.spotAt r.position) := by
  induction es generalizing k with
  | nil => exact ⟨.refl hk.valid, nofun⟩
  | cons e es ih =>
    have hback := hk.back hs
    have hfirst := (hes e (by simp) ⟨k.restore s.cursor.position, s.context⟩ hback.valid).of_position
      hs hback (hs.holds.mono hk.views).position_restore
    have hfrom : k.Grown (e.step ⟨k.restore s.cursor.position, s.context⟩).cursor :=
      ((Cursor.Grown.refl hk.valid).restore _).trans
        (hes e (by simp) ⟨k.restore s.cursor.position, s.context⟩ hback.valid).follows.grown
    obtain ⟨hgrown, hresumes⟩ := ih (fun e' he' => hes e' (by simp [he'])) hfirst.follows.grown
    rw [stepFirst]
    refine ⟨hfrom.trans hgrown, fun r hr => ?_⟩
    dsimp only at hr
    split at hr
    · exact hresumes r hr
    · obtain ⟨hplace, hspot⟩ := hfirst.resumes r hr
      exact ⟨hplace.mono hgrown.views, (hplace.spotAt_eq hgrown.views).symm ▸ hspot⟩

theorem grown_stepAll (he : e.Lands Q) (n : Nat) (seen : List Cursor.Position) (hc : c.Valid)
    (hrs : ∀ r ∈ rs, c.Holds r.position) : c.Grown (stepAll e n seen c rs).2 := by
  induction n generalizing seen c rs with
  | zero => exact .refl hc
  | succ n ih =>
    rw [stepAll]
    split
    · exact .refl hc
    · have hhere := reaches_stepFrom he hc hrs
      exact hhere.grown.trans (ih _ hhere.grown.valid fun r hr =>
        (hhere.resumes r (List.mem_filter.mp hr).1).1)

end Element

theorem Flags.resumes_step (f : Flags) (child : Element) (s : State) :
    (f.step child s).resumes =
      (Element.speculate (f.parse child) (f.complete child) s).resumes := by
  unfold step
  dsimp only
  split <;> rfl

theorem Flags.cursor_step (f : Flags) (child : Element) (s : State) :
    (f.step child s).cursor =
      (Element.speculate (f.parse child) (f.complete child) s).cursor := by
  unfold step
  dsimp only
  split <;> rfl

theorem Flags.lands_step {f : Flags} {child : Element} {s : State}
    (h : (Element.speculate (f.parse child) (f.complete child) s).Lands Q s) :
    (f.step child s).Lands Q s := by
  obtain ⟨hfollows, hpos, hresumes⟩ := h
  refine ⟨?_, ?_, ?_⟩ <;> simp only [resumes_step, cursor_step]
  · exact hfollows
  · exact hpos
  · exact hresumes

/-- Completing a grammar lands along `Q` if its trial parses that leave input do. -/
theorem Element.BuiltWith.lands {ok : Flags → Element → Prop} (hrefl : ∀ a : Spot, Q a a)
    (htrans : ∀ ⦃a b c : Spot⦄, Q a b → Q b c → Q a c)
    (htrial : ∀ {e : Element} {s t : State}, e.BuiltWith ok → s.cursor.Valid → e.parse s = .ok t →
      t.cursor.rest ≠ [] → Q s.cursor.spot t.cursor.spot)
    {e : Element} (h : e.BuiltWith ok) : e.Lands Q := by
  have hspeculate : ∀ {e : Element}, e.BuiltWith ok → ∀ s : State, s.cursor.Valid →
      (speculate e.parse e.complete s).Lands Q s :=
    fun he s hs => Step.lands_speculate he.built.advances _ hs fun t ht => htrial he hs ht
  have hleaf : ∀ {e : Element}, e.BuiltWith ok → e.step = speculate e.parse e.complete → e.Lands Q := by
    intro e he hstep s hs
    rw [hstep]
    exact hspeculate he s hs
  induction h with
  | none => exact hleaf .none rfl
  | markTrue key => exact hleaf (.markTrue key) rfl
  | token h =>
    apply hleaf (.token h)
    obtain ⟨key, convert, complete, rfl, -⟩ := h.eq_leaf
    rfl
  | literal key value words => exact hleaf (.literal key value words) rfl
  | rest key => exact hleaf (.rest key) rfl
  | rawRest key => exact hleaf (.rawRest key) rfl
  | seq _ ih => exact fun s hs => lands_stepSeq hrefl htrans ih hs
  | optional default weak h ih =>
    exact fun s hs => lands_stepOptional hrefl default weak h.built.advances ih hs
  | firstOf _ ih =>
    intro s hs
    obtain ⟨hgrown, hresumes⟩ := lands_stepFirst ih hs (.refl hs)
    exact Step.lands_restore hs hgrown hresumes
  | times n _ ih =>
    exact fun s hs => lands_stepSeq hrefl htrans (fun e he => List.eq_of_mem_replicate he ▸ ih) hs
  | allOf n _ ih =>
    intro s hs
    have hstart : ∀ r ∈ [(⟨s.cursor.position, s.context⟩ : Resume)], s.cursor.Holds r.position := by
      intro r hr
      obtain rfl := List.mem_singleton.mp hr
      exact hs.holds
    have hgrown := grown_stepAll ih (s.cursor.remaining + 1 + n) [s.cursor.position] hs hstart
    simp only [Element.allOf, ofStep]
    generalize stepAll _ _ _ s.cursor _ = run at hgrown ⊢
    exact Step.lands_restore hs hgrown fun _ hr => absurd hr List.not_mem_nil
  | onlyOne _ ih => exact ih
  | flags hok hshort hlong h _ _ _ =>
    exact fun s hs => Flags.lands_step (hspeculate (.flags hok hshort hlong h) s hs)

end ArgGrammar
