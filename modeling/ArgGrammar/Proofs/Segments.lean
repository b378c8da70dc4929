import ArgGrammar.Proofs.Quoting
import ArgGrammar.Proofs.Spaced

/-!
# The grammar of quoted arguments

An argument is a run of segments: plain characters, escapes and quoted runs. At the end of the line
a quoted run may lack its quote, and a backslash may stand alone.

* `Quoted.Piece`, `Quoted.Segment`: what an argument is made of, with its characters and what they
  stand for.
* `Quoted.Argument`: segments that may stand together.
* `Quoted.Segment.unique`, `Quoted.Run.unique`: a text starts with one segment, and one run of them.
* `Quoted.scan_run`: the scanner reads such a run and stops behind it.
* `Quoted.readable`, `Quoted.readBy`: arguments are a spelling, and the lexer reads it.
* `tokenize_lenient_grammar`: a line has exactly one reading as white space and arguments, and its
  tokens are those of the arguments.
-/

namespace ArgGrammar

/-- Puts characters in front of the value. -/
def Lexeme.prepend (l : Lexeme) (vs : List Char) : Lexeme := { l with value := vs ++ l.value }

namespace Quoted

/-- A character by itself, or behind a backslash. -/
inductive Piece where
  | char (c : Char)
  | escape (c : Char)
  deriving DecidableEq, Repr

namespace Piece

def text : Piece → List Char
  | char c => [c]
  | escape c => ['\\', c]

def value : Piece → Char
  | char c => c
  | escape c => c

/-- An escape may hold any character; by itself a character is no backslash and ends nothing. -/
def Valid (ends : Char → Bool) : Piece → Prop
  | char c => c ≠ '\\' ∧ ends c = false
  | escape _ => True

end Piece

/-- How a quoted run ends: with its quote, or with the line, where a backslash may stand alone. -/
inductive Ending where
  | quote
  | line
  | backslash
  deriving DecidableEq, Repr

namespace Ending

def text (q : Char) : Ending → List Char
  | quote => [q]
  | line => []
  | backslash => ['\\']

def value : Ending → List Char
  | quote => []
  | line => []
  | backslash => ['\\']

end Ending

/-- A part of an argument. -/
inductive Segment where
  /-- A plain character or an escape. -/
  | bare (p : Piece)
  /-- A quote with what follows it up to the next quote of its kind that is not escaped. -/
  | quoted (q : Char) (body : List Piece) (ending : Ending)
  /-- A backslash at the end of the line. -/
  | backslash
  deriving DecidableEq, Repr

/-- White space and quotes do not stand for themselves outside quotes. -/
def endsBare (c : Char) : Bool := Text.isBlank c || isQuote c

namespace Segment

def text : Segment → List Char
  | bare p => p.text
  | quoted q body ending => q :: (body.flatMap Piece.text ++ ending.text q)
  | backslash => ['\\']

/-- What the segment stands for. -/
def value : Segment → List Char
  | bare p => [p.value]
  | quoted _ body ending => body.map Piece.value ++ ending.value
  | backslash => ['\\']

def Valid : Segment → Prop
  | bare p => p.Valid endsBare
  | quoted q body _ => isQuote q = true ∧ ∀ p ∈ body, p.Valid (· == q)
  | backslash => True

/-- Whether something may follow the segment; otherwise it ends the line. -/
def Closed : Segment → Prop
  | bare _ => True
  | quoted _ _ ending => ending = .quote
  | backslash => False

/-- Whether the segment is a quoted run without its quote. -/
def isOpen : Segment → Bool
  | quoted _ _ ending => ending != .quote
  | _ => false

end Segment

instance (ends : Char → Bool) : (p : Piece) → Decidable (p.Valid ends)
  | .char c => inferInstanceAs (Decidable (c ≠ '\\' ∧ ends c = false))
  | .escape _ => .isTrue trivial

instance : (s : Segment) → Decidable s.Valid
  | .bare p => inferInstanceAs (Decidable (p.Valid endsBare))
  | .quoted q body _ =>
    inferInstanceAs (Decidable (isQuote q = true ∧ ∀ p ∈ body, p.Valid (· == q)))
  | .backslash => .isTrue trivial

instance : (s : Segment) → Decidable s.Closed
  | .bare _ => .isTrue trivial
  | .quoted _ _ ending => inferInstanceAs (Decidable (ending = .quote))
  | .backslash => .isFalse id

/-- The characters of segments. -/
def textOf (ss : List Segment) : List Char := ss.flatMap Segment.text

/-- What segments stand for. -/
def valueOf (ss : List Segment) : List Char := ss.flatMap Segment.value

/-- The byte at which a quote is left open. -/
def openedOf : List Segment → Option Nat
  | [] => none
  | s :: ss => if s.isOpen then some 0 else (openedOf ss).map (Text.byteSize s.text + ·)

/-- One argument: segments of which only the last may end the line. -/
@[ext] structure Argument where
  segments : List Segment
  nonempty : segments ≠ []
  valid : ∀ s ∈ segments, s.Valid
  closed : segments.IsChain fun s _ => s.Closed

/-- Arguments as words. -/
def spelling : Spelling Argument where
  text a := textOf a.segments
  value a := String.ofList (valueOf a.segments)
  closed a := ∀ s ∈ a.segments, s.Closed
  opened a := openedOf a.segments

/-! ## One segment for every text -/

theorem isQuote_ne_backslash {q : Char} (h : isQuote q = true) : q ≠ '\\' := by
  rintro rfl
  exact absurd h (by decide)

theorem not_isBlank_of_isQuote {q : Char} (h : isQuote q = true) : Text.isBlank q = false := by
  simp only [isQuote, Bool.or_eq_true, decide_eq_true_eq] at h
  rcases h with rfl | rfl <;> decide

theorem Piece.unique {ends ends' : Char → Bool} {p p' : Piece} {x x' : List Char}
    (h : p.Valid ends) (h' : p'.Valid ends') (heq : p.text ++ x = p'.text ++ x') :
    p = p' ∧ x = x' := by
  cases p with
  | char c =>
    cases p' with
    | char c' =>
      obtain ⟨rfl, rfl⟩ := List.cons.inj heq
      exact ⟨rfl, rfl⟩
    | escape c' => exact absurd (List.cons.inj heq).1 h.1
  | escape c =>
    cases p' with
    | char c' => exact absurd (List.cons.inj heq).1.symm h'.1
    | escape c' =>
      obtain ⟨rfl, rfl⟩ := List.cons.inj (List.cons.inj heq).2
      exact ⟨rfl, rfl⟩

/-- What stands behind the pieces of a quoted run: its ending, then all that follows. -/
def Ends (q : Char) (x : List Char) : Prop := x = [] ∨ x = ['\\'] ∨ ∃ y, x = q :: y

theorem Piece.not_ends {q : Char} {p : Piece} (hq : q ≠ '\\') (h : p.Valid (· == q))
    (y : List Char) : ¬ Ends q (p.text ++ y) := by
  intro hends
  cases p with
  | char c =>
    obtain ⟨hc, hne⟩ := h
    rcases hends with h | h | ⟨z, h⟩
    · cases h
    · exact hc (List.cons.inj h).1
    · exact (beq_eq_false_iff_ne.mp hne) (List.cons.inj h).1
  | escape c =>
    rcases hends with h | h | ⟨z, h⟩
    · cases h
    · exact absurd (List.cons.inj h).2 (by simp)
    · exact hq (List.cons.inj h).1.symm

-- The pieces of a quoted run are compared one by one; a list that is used up early would make the
-- ending start with a piece of the other.
theorem pieces_unique {q : Char} (hq : q ≠ '\\') {ps ps' : List Piece} {x x' : List Char}
    (h : ∀ p ∈ ps, p.Valid (· == q)) (h' : ∀ p ∈ ps', p.Valid (· == q)) (hx : Ends q x)
    (hx' : Ends q x') (heq : ps.flatMap Piece.text ++ x = ps'.flatMap Piece.text ++ x') :
    ps = ps' ∧ x = x' := by
  induction ps generalizing ps' with
  | nil =>
    cases ps' with
    | nil => exact ⟨rfl, heq⟩
    | cons p' ps' =>
      rw [List.flatMap_nil, List.nil_append, List.flatMap_cons, List.append_assoc] at heq
      exact absurd (heq ▸ hx) (Piece.not_ends hq (h' p' (by simp)) _)
  | cons p ps ih =>
    rw [List.flatMap_cons, List.append_assoc] at heq
    cases ps' with
    | nil =>
      rw [List.flatMap_nil, List.nil_append] at heq
      exact absurd (heq ▸ hx') (Piece.not_ends hq (h p (by simp)) _)
    | cons p' ps' =>
      rw [List.flatMap_cons, List.append_assoc] at heq
      obtain ⟨rfl, hrest⟩ := Piece.unique (h p (by simp)) (h' p' (by simp)) heq
      have hps : ∀ r ∈ ps, r.Valid (· == q) := fun r hr => h r (by simp [hr])
      have hps' : ∀ r ∈ ps', r.Valid (· == q) := fun r hr => h' r (by simp [hr])
      obtain ⟨rfl, rfl⟩ := ih hps hps' hrest
      exact ⟨rfl, rfl⟩

theorem exists_pieces (q : Char) (cs : List Char) :
    ∃ (ps : List Piece) (x : List Char),
      cs = ps.flatMap Piece.text ++ x ∧ (∀ p ∈ ps, p.Valid (· == q)) ∧ Ends q x := by
  induction hn : cs.length using Nat.strong_induction_on generalizing cs with
  | _ n ih =>
  match cs with
  | [] => exact ⟨[], [], rfl, by simp, .inl rfl⟩
  | c :: cs =>
    by_cases hq : c = q
    · exact ⟨[], c :: cs, rfl, by simp, .inr (.inr ⟨cs, by rw [hq]⟩)⟩
    · by_cases hc : c = '\\'
      · subst hc
        match cs with
        | [] => exact ⟨[], ['\\'], rfl, by simp, .inr (.inl rfl)⟩
        | d :: cs =>
          obtain ⟨ps, x, rfl, hps, hx⟩ := ih cs.length (by simp at hn; omega) cs rfl
          refine ⟨.escape d :: ps, x, rfl, ?_, hx⟩
          simpa [Piece.Valid] using hps
      · obtain ⟨ps, x, rfl, hps, hx⟩ := ih cs.length (by simp at hn; omega) cs rfl
        refine ⟨.char c :: ps, x, rfl, ?_, hx⟩
        simpa [Piece.Valid, hc, hq] using hps

namespace Segment

theorem inked {s : Segment} (h : s.Valid) :
    ∃ c cs, s.text = c :: cs ∧ Text.isBlank c = false := by
  cases s with
  | bare p =>
    cases p with
    | char c =>
      have hc : endsBare c = false := h.2
      simp only [endsBare, Bool.or_eq_false_iff] at hc
      exact ⟨c, [], rfl, hc.1⟩
    | escape c => exact ⟨'\\', [c], rfl, by decide⟩
  | quoted q body ending => exact ⟨q, _, rfl, not_isBlank_of_isQuote h.1⟩
  | backslash => exact ⟨'\\', [], rfl, by decide⟩

theorem bare_ne_quoted {p : Piece} (hp : p.Valid endsBare) {q : Char} (hq : isQuote q = true)
    (x y : List Char) : p.text ++ x ≠ q :: y := by
  intro h
  cases p with
  | char c =>
    obtain ⟨rfl, -⟩ := List.cons.inj h
    have hc : endsBare c = false := hp.2
    simp [endsBare, hq] at hc
  | escape c => exact isQuote_ne_backslash hq (List.cons.inj h).1.symm

theorem bare_ne_backslash {p : Piece} (hp : p.Valid endsBare) (x : List Char) :
    p.text ++ x ≠ ['\\'] := by
  intro h
  cases p with
  | char c => exact hp.1 (List.cons.inj h).1
  | escape c => exact absurd (List.cons.inj h).2 (by simp)

theorem ends_ending {q : Char} {ending : Ending} {x : List Char}
    (h : ending = .quote ∨ x = []) : Ends q (ending.text q ++ x) := by
  rcases h with rfl | rfl
  · exact .inr (.inr ⟨x, rfl⟩)
  · cases ending with
    | quote => exact .inr (.inr ⟨[], rfl⟩)
    | line => exact .inl rfl
    | backslash => exact .inr (.inl rfl)

theorem ending_unique {q : Char} (hq : q ≠ '\\') {e e' : Ending} {x x' : List Char}
    (h : e = .quote ∨ x = []) (h' : e' = .quote ∨ x' = [])
    (heq : e.text q ++ x = e'.text q ++ x') : e = e' ∧ x = x' := by
  have hq' : '\\' ≠ q := hq.symm
  cases e <;> cases e' <;> simp_all [Ending.text]

/-- A text starts with one segment, if only what ends the line counts as cut off. -/
theorem unique {s s' : Segment} {x x' : List Char} (h : s.Valid) (h' : s'.Valid)
    (hx : s.Closed ∨ x = []) (hx' : s'.Closed ∨ x' = []) (heq : s.text ++ x = s'.text ++ x') :
    s = s' ∧ x = x' := by
  cases s with
  | bare p =>
    cases s' with
    | bare p' =>
      obtain ⟨rfl, rfl⟩ := Piece.unique h h' heq
      exact ⟨rfl, rfl⟩
    | quoted q' body' ending' => exact absurd heq (bare_ne_quoted h h'.1 _ _)
    | backslash =>
      obtain rfl : x' = [] := hx'.resolve_left id
      exact absurd heq (bare_ne_backslash h _)
  | quoted q body ending =>
    cases s' with
    | bare p' => exact absurd heq.symm (bare_ne_quoted h' h.1 _ _)
    | quoted q' body' ending' =>
      simp only [text, List.cons_append, List.append_assoc, List.cons.injEq] at heq
      obtain ⟨rfl, hrest⟩ := heq
      have hq : q ≠ '\\' := isQuote_ne_backslash h.1
      obtain ⟨rfl, htail⟩ :=
        pieces_unique hq h.2 h'.2 (ends_ending hx) (ends_ending hx') hrest
      obtain ⟨rfl, rfl⟩ := ending_unique hq hx hx' htail
      exact ⟨rfl, rfl⟩
    | backslash => exact absurd (List.cons.inj heq).1 (isQuote_ne_backslash h.1)
  | backslash =>
    obtain rfl : x = [] := hx.resolve_left id
    cases s' with
    | bare p' => exact absurd heq.symm (bare_ne_backslash h' _)
    | quoted q' body' ending' =>
      exact absurd (List.cons.inj heq).1.symm (isQuote_ne_backslash h'.1)
    | backslash => exact ⟨rfl, (List.cons.inj heq).2⟩

theorem exists_text (c : Char) (cs : List Char) (hc : Text.isBlank c = false) :
    ∃ s x, c :: cs = text s ++ x ∧ s.Valid ∧ (s.Closed ∨ x = []) := by
  by_cases hquote : isQuote c = true
  · obtain ⟨ps, x, rfl, hps, hx⟩ := exists_pieces c cs
    rcases hx with rfl | rfl | ⟨y, rfl⟩
    · exact ⟨.quoted c ps .line, [], by simp [text, Ending.text], ⟨hquote, hps⟩, .inr rfl⟩
    · exact ⟨.quoted c ps .backslash, [], by simp [text, Ending.text], ⟨hquote, hps⟩, .inr rfl⟩
    · exact ⟨.quoted c ps .quote, y, by simp [text, Ending.text], ⟨hquote, hps⟩, .inl rfl⟩
  · by_cases hslash : c = '\\'
    · subst hslash
      cases cs with
      | nil => exact ⟨.backslash, [], rfl, trivial, .inr rfl⟩
      | cons d cs => exact ⟨.bare (.escape d), cs, rfl, trivial, .inl trivial⟩
    · exact ⟨.bare (.char c), cs, rfl, ⟨hslash, by simp [endsBare, hc, hquote]⟩, .inl trivial⟩

end Segment

/-! ## One run of segments for every text -/

theorem textOf_cons (s : Segment) (ss : List Segment) (x : List Char) :
    textOf (s :: ss) ++ x = s.text ++ (textOf ss ++ x) := by
  rw [textOf, List.flatMap_cons, List.append_assoc]
  rfl

/-- Segments of which only the last may end the line, before white space or the end. -/
structure Run (ss : List Segment) (x : List Char) : Prop where
  valid : ∀ s ∈ ss, s.Valid
  closed : ss.IsChain fun s _ => s.Closed
  fits : x = [] ∨ (∀ s ∈ ss, s.Closed) ∧ ∃ c y, x = c :: y ∧ Text.isBlank c = true

namespace Run

variable {s : Segment} {ss ss' : List Segment} {x x' : List Char}

theorem tail (h : Run (s :: ss) x) : Run ss x where
  valid r hr := h.valid r (by simp [hr])
  closed := h.closed.tail
  fits := h.fits.imp_right fun ⟨hclosed, hx⟩ => ⟨fun r hr => hclosed r (by simp [hr]), hx⟩

theorem head (h : Run (s :: ss) x) : s.Closed ∨ textOf ss ++ x = [] := by
  cases ss with
  | cons r ss => exact .inl (List.isChain_cons_cons.mp h.closed).1
  | nil =>
    rcases h.fits with rfl | ⟨hclosed, -⟩
    · exact .inr rfl
    · exact .inl (hclosed s (by simp))

theorem textOf_append_ne_nil (h : ∀ r ∈ ss, r.Valid) (hne : ss ≠ []) (x : List Char) :
    textOf ss ++ x ≠ [] := by
  obtain ⟨r, ss, rfl⟩ := List.exists_cons_of_ne_nil hne
  obtain ⟨c, cs, hr, -⟩ := Segment.inked (h r (by simp))
  rw [textOf_cons, hr]
  simp

theorem cons (hs : s.Valid) (hclosed : s.Closed ∨ textOf ss ++ x = []) (h : Run ss x) :
    Run (s :: ss) x where
  valid r hr := by
    rcases List.mem_cons.mp hr with rfl | hr
    · exact hs
    · exact h.valid r hr
  closed := by
    cases ss with
    | nil => exact List.isChain_singleton _
    | cons r ss =>
      have hne : textOf (r :: ss) ++ x ≠ [] := textOf_append_ne_nil h.valid (by simp) x
      exact List.isChain_cons_cons.mpr ⟨hclosed.resolve_right hne, h.closed⟩
  fits := by
    rcases h.fits with hnil | ⟨hall, c, y, rfl, hc⟩
    · exact .inl hnil
    · refine .inr ⟨fun r hr => ?_, c, y, rfl, hc⟩
      rcases List.mem_cons.mp hr with rfl | hr
      · exact hclosed.resolve_right (by simp)
      · exact hall r hr

theorem not_segment (h : Run ss x) (hs : s.Valid) (y : List Char) : x ≠ s.text ++ y := by
  obtain ⟨c, cs, htext, hc⟩ := Segment.inked hs
  rw [htext]
  rcases h.fits with rfl | ⟨-, d, z, rfl, hd⟩
  · simp
  · intro heq
    rw [(List.cons.inj heq).1, hc] at hd
    cases hd

theorem unique (h : Run ss x) (h' : Run ss' x') (heq : textOf ss ++ x = textOf ss' ++ x') :
    ss = ss' ∧ x = x' := by
  induction ss generalizing ss' with
  | nil =>
    cases ss' with
    | nil => exact ⟨rfl, heq⟩
    | cons s' ss' =>
      rw [textOf_cons s'] at heq
      exact absurd heq (h.not_segment (h'.valid s' (by simp)) _)
  | cons s ss ih =>
    rw [textOf_cons] at heq
    cases ss' with
    | nil => exact absurd heq.symm (h'.not_segment (h.valid s (by simp)) _)
    | cons s' ss' =>
      rw [textOf_cons] at heq
      obtain ⟨rfl, hrest⟩ := Segment.unique (h.valid s (by simp)) (h'.valid s' (by simp)) h.head
        h'.head heq
      obtain ⟨rfl, rfl⟩ := ih h.tail h'.tail hrest
      exact ⟨rfl, rfl⟩

theorem exists_text (cs : List Char) : ∃ ss x, cs = textOf ss ++ x ∧ Run ss x := by
  induction hn : cs.length using Nat.strong_induction_on generalizing cs with
  | _ n ih =>
  match cs with
  | [] => exact ⟨[], [], rfl, ⟨by simp, List.isChain_nil, .inl rfl⟩⟩
  | c :: cs =>
    cases hc : Text.isBlank c with
    | true =>
      exact ⟨[], c :: cs, rfl, ⟨by simp, List.isChain_nil, .inr ⟨by simp, c, cs, rfl, hc⟩⟩⟩
    | false =>
      obtain ⟨s, y, htext, hs, hclosed⟩ := Segment.exists_text c cs hc
      obtain ⟨d, ds, hd, -⟩ := Segment.inked hs
      have hlt : y.length < n := by
        have hlen := congrArg List.length htext
        rw [hd] at hlen
        simp only [List.length_append, List.length_cons] at hlen hn
        omega
      obtain ⟨ss, x, rfl, hrun⟩ := ih y.length hlt y rfl
      exact ⟨s :: ss, x, by rw [htext, textOf_cons], hrun.cons hs hclosed⟩

end Run

/-! ## The scanner reads runs of segments -/

theorem byteSize_escape (c : Char) : Text.byteSize (Piece.escape c).text = 1 + c.utf8Size := by
  have hbackslash : Char.utf8Size '\\' = 1 := by decide
  simp only [Piece.text, Text.byteSize, hbackslash, Nat.add_zero]

-- Inside quotes the scanner keeps the quote and its byte, so the induction is over a fixed state.
theorem scan_pieces (pos start : Nat) {q : Char} {ps : List Piece}
    (h : ∀ p ∈ ps, p.Valid (· == q)) (x : List Char) :
    scan pos (some (q, start)) (ps.flatMap Piece.text ++ x) =
      (scan (pos + Text.byteSize (ps.flatMap Piece.text)) (some (q, start)) x).prepend
        (ps.map Piece.value) := by
  induction ps generalizing pos with
  | nil => rfl
  | cons p ps ih =>
    have hps : ∀ r ∈ ps, r.Valid (· == q) := fun r hr => h r (by simp [hr])
    rw [List.flatMap_cons, List.append_assoc, Text.byteSize_append, ← Nat.add_assoc]
    cases p with
    | char c =>
      obtain ⟨hc, hne⟩ := h (.char c) (by simp)
      show scan pos (some (q, start)) (c :: (ps.flatMap Piece.text ++ x)) = _
      rw [scan_quoted pos start q _ hc, if_neg (beq_eq_false_iff_ne.mp hne), ih _ hps]
      rfl
    | escape c =>
      show scan pos (some (q, start)) ('\\' :: c :: (ps.flatMap Piece.text ++ x)) = _
      rw [scan_escape, ih _ hps, byteSize_escape, ← Nat.add_assoc]
      rfl

theorem scan_closed (pos : Nat) {s : Segment} (hs : s.Valid) (hclosed : s.Closed) (x : List Char) :
    scan pos none (s.text ++ x) =
      (scan (pos + Text.byteSize s.text) none x).prepend s.value := by
  cases s with
  | bare p =>
    cases p with
    | char c =>
      obtain ⟨hc, hends⟩ := hs
      obtain ⟨hblank, hquote⟩ : Text.isBlank c = false ∧ isQuote c = false := by
        simpa [endsBare] using hends
      show scan pos none (c :: x) = _
      rw [scan_plain pos x hc, if_neg (by simp [hblank]), if_neg (by simp [hquote])]
      rfl
    | escape c =>
      show scan pos none ('\\' :: c :: x) =
        (scan (pos + Text.byteSize (Piece.escape c).text) none x).push c
      rw [scan_escape, byteSize_escape, Nat.add_assoc]
  | quoted q body ending =>
    obtain ⟨hq, hbody⟩ := hs
    obtain rfl : ending = .quote := hclosed
    have hslash : q ≠ '\\' := isQuote_ne_backslash hq
    have hblank : Text.isBlank q = false := not_isBlank_of_isQuote hq
    have htext : (Segment.quoted q body .quote).text ++ x =
        q :: (body.flatMap Piece.text ++ q :: x) := by
      simp [Segment.text, Ending.text]
    rw [htext, scan_plain pos _ hslash, if_neg (by simp [hblank]), if_pos hq,
      scan_pieces _ _ hbody, scan_quoted _ _ q x hslash, if_pos rfl]
    simp [Segment.text, Segment.value, Ending.text, Ending.value, Text.byteSize, Nat.add_assoc]
  | backslash => exact hclosed.elim

theorem scan_open (pos : Nat) {s : Segment} (hs : s.Valid) (hopen : ¬ s.Closed) :
    scan pos none s.text =
      ⟨s.value, pos + Text.byteSize s.text, [], if s.isOpen then some pos else none⟩ := by
  have hbackslash : Char.utf8Size '\\' = 1 := by decide
  cases s with
  | bare p => exact absurd trivial hopen
  | backslash => simp [Segment.text, Segment.value, Segment.isOpen, scan, Text.byteSize, hbackslash]
  | quoted q body ending =>
    obtain ⟨hq, hbody⟩ := hs
    have hslash : q ≠ '\\' := isQuote_ne_backslash hq
    have hblank : Text.isBlank q = false := not_isBlank_of_isQuote hq
    rw [Segment.text, scan_plain pos _ hslash, if_neg (by simp [hblank]), if_pos hq,
      scan_pieces _ _ hbody]
    cases ending with
    | quote => exact absurd rfl hopen
    | line =>
      simp [Ending.text, Segment.value, Ending.value, Segment.isOpen, scan, Text.byteSize,
        Lexeme.prepend, Nat.add_assoc]
    | backslash =>
      simp [Ending.text, Segment.value, Ending.value, Segment.isOpen, scan, Text.byteSize,
        Lexeme.prepend, Nat.add_assoc, hbackslash]

theorem not_isOpen_of_closed {s : Segment} (h : s.Closed) : s.isOpen = false := by
  cases s with
  | bare p => rfl
  | quoted q body ending => simp [Segment.isOpen, show ending = .quote from h]
  | backslash => rfl

theorem openedOf_eq_none {ss : List Segment} (h : ∀ s ∈ ss, s.Closed) : openedOf ss = none := by
  induction ss with
  | nil => rfl
  | cons s ss ih =>
    rw [openedOf, not_isOpen_of_closed (h s (by simp)), ih fun r hr => h r (by simp [hr])]
    rfl

theorem scan_run (pos : Nat) {ss : List Segment} {x : List Char} (h : Run ss x) :
    scan pos none (textOf ss ++ x) =
      ⟨valueOf ss, pos + Text.byteSize (textOf ss), x, (openedOf ss).map (pos + ·)⟩ := by
  induction ss generalizing pos with
  | nil =>
    -- behind the last segment the scanner meets the end of the line or white space
    rcases h.fits with rfl | ⟨-, c, y, rfl, hc⟩
    · rfl
    · have hslash : c ≠ '\\' := by
        rintro rfl
        exact absurd hc (by decide)
      show scan pos none (c :: y) = _
      rw [scan_plain pos y hslash, if_pos hc]
      rfl
  | cons s ss ih =>
    have hs : s.Valid := h.valid s (by simp)
    rw [textOf_cons]
    by_cases hclosed : s.Closed
    · rw [scan_closed pos hs hclosed, ih _ h.tail]
      simp [Lexeme.prepend, valueOf, textOf, openedOf, not_isOpen_of_closed hclosed, Nat.add_assoc,
        Function.comp_def]
    · -- nothing follows a segment that is not closed
      have hnil : textOf ss ++ x = [] := h.head.resolve_left hclosed
      rw [hnil, List.append_nil, scan_open pos hs hclosed]
      obtain rfl : ss = [] := Classical.byContradiction fun hne =>
        Run.textOf_append_ne_nil h.tail.valid hne x hnil
      obtain rfl : x = [] := hnil
      by_cases hisOpen : s.isOpen = true <;> simp [valueOf, textOf, openedOf, hisOpen]

/-! ## Arguments as words -/

theorem Argument.run {a : Argument} {x : List Char} (h : spelling.Fits a x) : Run a.segments x :=
  ⟨a.valid, a.closed, h⟩

theorem Argument.inked (a : Argument) :
    ∃ c cs, spelling.text a = c :: cs ∧ Text.isBlank c = false := by
  obtain ⟨s, ss, hss⟩ := List.exists_cons_of_ne_nil a.nonempty
  obtain ⟨c, cs, hs, hc⟩ := Segment.inked (a.valid s (by simp [hss]))
  refine ⟨c, cs ++ textOf ss, ?_, hc⟩
  show textOf a.segments = _
  rw [hss, textOf, List.flatMap_cons, hs]
  rfl

theorem readable : spelling.Readable where
  inked := Argument.inked
  reads c cs hc := by
    obtain ⟨ss, x, htext, hrun⟩ := Run.exists_text (c :: cs)
    have hne : ss ≠ [] := by
      rintro rfl
      rcases hrun.fits with rfl | ⟨-, d, y, rfl, hd⟩
      · cases htext
      · obtain ⟨rfl, -⟩ := List.cons.inj htext
        rw [hc] at hd
        cases hd
    exact ⟨⟨ss, hne, hrun.valid, hrun.closed⟩, x, htext, hrun.fits⟩
  unique a b x y heq ha hb := by
    obtain ⟨hsegments, hrest⟩ := (Argument.run ha).unique (Argument.run hb) heq
    exact ⟨Argument.ext hsegments, hrest⟩
  unopened a hclosed := openedOf_eq_none hclosed

theorem readBy : spelling.ReadBy tokensFrom where
  nil := tokensFrom_nil
  blank pos c cs hc := tokensFrom_blank pos cs hc
  word pos a x hfits := by
    obtain ⟨c, cs, ha, hc⟩ := a.inked
    have hscan := scan_run pos (Argument.run hfits)
    have htext : spelling.text a ++ x = c :: (cs ++ x) := by rw [ha, List.cons_append]
    rw [htext, tokensFrom_argument pos hc (htext ▸ hscan)]
    rfl

end Quoted

/-- **The lexer reads exactly its grammar.** Every line has one reading as white space and arguments
that do not touch. Splitting it leniently succeeds, and gives one token for each argument: its value
is what the segments stand for and its bytes are those of the argument, which no further segment
follows. Tokens are not empty, they lie between characters of the line, and between two of them
there is white space and nothing else. -/
theorem tokenize_lenient_grammar (input : String) :
    ∃ d : Spaced Quoted.Argument,
      (∀ d' : Spaced Quoted.Argument,
        d'.Valid Quoted.spelling ∧ d'.text Quoted.spelling = input.toList ↔ d' = d) ∧
      ∃ ts, Tokenizer.lenientQuoted.tokenize input false = .ok ts ∧
        ts.length = d.words.length ∧
        (∀ us a gap vs, d.words = us ++ (a, gap) :: vs →
          ts[us.length]? = some
            ⟨String.ofList (Quoted.valueOf a.segments),
              Text.byteSize (d.lead ++ Quoted.spelling.join us),
              Text.byteSize (d.lead ++ Quoted.spelling.join us) +
                Text.byteSize (Quoted.textOf a.segments)⟩ ∧
          ∀ s : Quoted.Segment, s.Valid → ¬ s.text <+: gap ++ Quoted.spelling.join vs) ∧
        (∀ t ∈ ts, t.start < t.stop ∧ t.stop ≤ Text.size input ∧
          String.Pos.Raw.IsValid input ⟨t.start⟩ ∧ String.Pos.Raw.IsValid input ⟨t.stop⟩) ∧
        ts.IsChain (Token.Before input) := by
  obtain ⟨d, hd⟩ := Quoted.readable.existsUnique input.toList
  obtain ⟨hvalid, htext⟩ := (hd d).mpr rfl
  have hinput : input = String.ofList (d.text Quoted.spelling) := by
    rw [htext, String.ofList_toList]
  have hlex := Quoted.readBy.lex_text hvalid
  refine ⟨d, hd, d.tokens Quoted.spelling, ?_, Spelling.length_tokensFrom _ _, ?_, ?_, ?_⟩
  · rw [htext] at hlex
    have htokens : (Quoted.tokens input).1 = d.tokens Quoted.spelling := congrArg Prod.fst hlex
    simp [Tokenizer.tokenize, Tokenizer.split, htokens]
  · intro us a gap vs hwords
    refine ⟨Spaced.getElem?_tokens hwords, ?_⟩
    rintro s hs ⟨y, hy⟩
    have hseparated : Quoted.spelling.Separated ((a, gap) :: vs) := by
      have := hvalid.words
      rw [hwords] at this
      exact this.drop us
    exact (Quoted.Argument.run hseparated.fits).not_segment hs y hy.symm
  · intro t ht
    rw [hinput, Text.size_ofList]
    exact Spaced.spans Quoted.readable ht
  · rw [hinput]
    exact hvalid.isChain_tokens

open Quoted in
/-- Three kinds of segments that touch, and a line that ends in quotes behind a backslash. -/
theorem tokenize_lenient_grammar_cut_off :
    ∃ ts, Tokenizer.lenientQuoted.tokenize "a\\ 'b\"'  \"é\\" false = .ok ts ∧
      ts[0]? = some ⟨"a b\"", 0, 7⟩ ∧ ts[1]? = some ⟨"é\\", 9, 13⟩ := by
  obtain ⟨d, hd, ts, hts, -, htokens, -⟩ := tokenize_lenient_grammar "a\\ 'b\"'  \"é\\"
  let first : Argument :=
    ⟨[.bare (.char 'a'), .bare (.escape ' '), .quoted '\'' [.char 'b', .char '"'] .quote],
      by decide, by decide, by decide⟩
  let last : Argument := ⟨[.quoted '"' [.char 'é'] .backslash], by decide, by decide, by decide⟩
  have hclosed : Quoted.spelling.closed first := by
    show ∀ s ∈ first.segments, s.Closed
    decide
  have hreading : (⟨[], [(first, [' ', ' ']), (last, [])]⟩ : Spaced Argument) = d :=
    (hd _).mp ⟨⟨by decide +kernel, by decide +kernel, by simp, by simp [hclosed]⟩,
      by decide +kernel⟩
  subst hreading
  refine ⟨ts, hts, (htokens [] first _ _ rfl).1, ?_⟩
  exact (htokens [(first, [' ', ' '])] last _ _ rfl).1

end ArgGrammar
