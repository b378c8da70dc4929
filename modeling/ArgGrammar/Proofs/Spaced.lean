import ArgGrammar.Proofs.Boundary
import ArgGrammar.Text.Blank
import ArgGrammar.Token
import Mathlib.Data.List.Chain

/-!
# Words and the white space between them

A line is white space, then words with white space behind each of them. What a word looks like is
left to a `Spelling`; the theory here is shared by all ways to split a line.

* `Spelling`: how words are written, and what each of them stands for.
* `Spelling.Readable`: a text that does not start with white space starts with exactly one word.
* `Spaced`: a line as words and white space. `Spaced.Valid` says that words do not touch, and
  `Spaced.tokens` are its tokens with their bytes.
* `Spelling.Readable.existsUnique`: every text is exactly one such line.
* `Spaced.getElem?_tokens`, `Spaced.spans`, `Spaced.Valid.isChain_tokens`: where the tokens of a
  line lie.
* `Spelling.ReadBy lex`: the splitter `lex` takes one word at a time; then it finds the tokens of
  every line (`Spelling.ReadBy.lex_text`).
-/

namespace ArgGrammar

/-- White space and nothing else. -/
def Text.Blank (cs : List Char) : Prop := ∀ c ∈ cs, Text.isBlank c = true

/-- Nothing, or something that does not start with white space. -/
def Text.Inked (cs : List Char) : Prop := ∀ c y, cs = c :: y → Text.isBlank c = false

namespace Text

instance (cs : List Char) : Decidable (Blank cs) := List.decidableBAll _ cs

theorem blank_append_inj {g g' r r' : List Char} (hg : Blank g) (hg' : Blank g') (hr : Inked r)
    (hr' : Inked r') (h : g ++ r = g' ++ r') : g = g' ∧ r = r' := by
  have hgap : ∀ {g r : List Char}, Blank g → Inked r → (g ++ r).takeWhile isBlank = g := by
    intro g r hg hr
    rw [List.takeWhile_append_of_pos hg]
    cases r with
    | nil => simp
    | cons c r => simp [hr c r rfl]
  have hsame : g = g' := by rw [← hgap hg hr, h, hgap hg' hr']
  subst hsame
  exact ⟨rfl, List.append_cancel_left h⟩

theorem exists_blank_append (cs : List Char) : ∃ g r, cs = g ++ r ∧ Blank g ∧ Inked r := by
  refine ⟨cs.takeWhile isBlank, cs.dropWhile isBlank, List.takeWhile_append_dropWhile.symm, ?_, ?_⟩
  · intro c hc
    exact List.all_eq_true.mp List.all_takeWhile c hc
  · intro c y hy
    have hhead := List.head?_dropWhile_not isBlank cs
    rw [hy] at hhead
    simpa using hhead

end Text

/-- How words are written and what they stand for. White space may follow a word that is closed; in
one that is not, `opened` is the byte of the word at which a quote is left open. -/
structure Spelling (α : Type) where
  text : α → List Char
  value : α → String
  closed : α → Prop
  opened : α → Option Nat

namespace Spelling

variable {α : Type} (S : Spelling α)

/-- The token of a word that starts at byte `pos`. -/
def token (pos : Nat) (a : α) : Token := ⟨S.value a, pos, pos + Text.byteSize (S.text a)⟩

/-- What may follow a word: the end of the line, or white space if the word is closed. -/
def Fits (a : α) (x : List Char) : Prop :=
  x = [] ∨ S.closed a ∧ ∃ c y, x = c :: y ∧ Text.isBlank c = true

/-- A text that does not start with white space starts with exactly one word, and no quote is left
open in a word that is closed. -/
structure Readable : Prop where
  inked : ∀ a, ∃ c cs, S.text a = c :: cs ∧ Text.isBlank c = false
  reads : ∀ c cs, Text.isBlank c = false → ∃ a x, c :: cs = S.text a ++ x ∧ S.Fits a x
  unique : ∀ a b x y, S.text a ++ x = S.text b ++ y → S.Fits a x → S.Fits b y → a = b ∧ x = y
  unopened : ∀ a, S.closed a → S.opened a = none

/-- The characters of words with white space behind them. -/
def join (ws : List (α × List Char)) : List Char := ws.flatMap fun w => S.text w.1 ++ w.2

/-- The tokens of words with white space behind them, the first of which starts at byte `pos`. -/
def tokensFrom (pos : Nat) : List (α × List Char) → List Token
  | [] => []
  | (a, gap) :: ws =>
    S.token pos a :: tokensFrom (pos + Text.byteSize (S.text a) + Text.byteSize gap) ws

/-- The byte of the first quote that is left open. -/
def openedFrom (pos : Nat) : List (α × List Char) → Option Nat
  | [] => none
  | (a, gap) :: ws =>
    ((S.opened a).map (pos + ·)).or
      (openedFrom (pos + Text.byteSize (S.text a) + Text.byteSize gap) ws)

/-- Words that do not touch: all of them but the last have white space behind them. -/
structure Separated (ws : List (α × List Char)) : Prop where
  blank : ∀ w ∈ ws, Text.Blank w.2
  apart : ws.IsChain fun w _ => w.2 ≠ []
  closed : ∀ w ∈ ws, w.2 ≠ [] → S.closed w.1

end Spelling

/-- A line: white space, then words with the white space behind each of them. -/
structure Spaced (α : Type) where
  lead : List Char
  words : List (α × List Char)

namespace Spaced

variable {α : Type} (S : Spelling α) (d : Spaced α)

def text : List Char := d.lead ++ S.join d.words

def tokens : List Token := S.tokensFrom (Text.byteSize d.lead) d.words

/-- The white space is white space, and words do not touch. -/
structure Valid : Prop where
  lead : Text.Blank d.lead
  words : S.Separated d.words

end Spaced

namespace Spelling

variable {α : Type} {S : Spelling α} {a : α} {gap : List Char} {ws : List (α × List Char)}

@[simp] theorem join_nil : S.join [] = [] := rfl

@[simp] theorem join_cons : S.join ((a, gap) :: ws) = S.text a ++ (gap ++ S.join ws) := by
  simp [join]

@[simp] theorem join_append (us vs : List (α × List Char)) :
    S.join (us ++ vs) = S.join us ++ S.join vs :=
  List.flatMap_append

theorem Separated.nil : S.Separated [] := ⟨by simp, List.isChain_nil, by simp⟩

theorem Separated.tail (h : S.Separated ((a, gap) :: ws)) : S.Separated ws :=
  ⟨fun w hw => h.blank w (by simp [hw]), h.apart.tail, fun w hw => h.closed w (by simp [hw])⟩

theorem Separated.drop (us : List (α × List Char)) (h : S.Separated (us ++ ws)) :
    S.Separated ws := by
  induction us with
  | nil => exact h
  | cons w us ih => exact ih h.tail

theorem Separated.cons (h : S.Separated ws) (hgap : Text.Blank gap) (happart : ws ≠ [] → gap ≠ [])
    (hclosed : gap ≠ [] → S.closed a) : S.Separated ((a, gap) :: ws) where
  blank := by
    intro w hw
    rcases List.mem_cons.mp hw with rfl | hw
    · exact hgap
    · exact h.blank w hw
  apart := by
    cases ws with
    | nil => exact List.isChain_singleton _
    | cons w ws => exact List.isChain_cons_cons.mpr ⟨happart (by simp), h.apart⟩
  closed := by
    intro w hw
    rcases List.mem_cons.mp hw with rfl | hw
    · exact hclosed
    · exact h.closed w hw

theorem Separated.fits (h : S.Separated ((a, gap) :: ws)) : S.Fits a (gap ++ S.join ws) := by
  cases gap with
  | cons c gap =>
    exact .inr ⟨h.closed (a, c :: gap) (by simp) (by simp), c, gap ++ S.join ws, rfl,
      h.blank (a, c :: gap) (by simp) c (by simp)⟩
  | nil =>
    cases ws with
    | nil => exact .inl rfl
    | cons w ws => exact absurd rfl (List.isChain_cons_cons.mp h.apart).1

/-! ## One reading for every text -/

theorem Readable.inked_join (hS : S.Readable) (ws : List (α × List Char)) :
    Text.Inked (S.join ws) := by
  intro c y h
  cases ws with
  | nil => cases h
  | cons w ws =>
    obtain ⟨a, gap⟩ := w
    obtain ⟨c', cs, ha, hc⟩ := hS.inked a
    rw [join_cons, ha] at h
    obtain ⟨rfl, -⟩ := List.cons.inj h
    exact hc

theorem Readable.join_ne_nil (hS : S.Readable) (h : ws ≠ []) : S.join ws ≠ [] := by
  obtain ⟨⟨a, gap⟩, ws, rfl⟩ := List.exists_cons_of_ne_nil h
  obtain ⟨c, cs, ha, -⟩ := hS.inked a
  rw [join_cons, ha]
  simp

theorem Readable.join_inj (hS : S.Readable) {ws ws' : List (α × List Char)} (h : S.Separated ws)
    (h' : S.Separated ws') (heq : S.join ws = S.join ws') : ws = ws' := by
  induction ws generalizing ws' with
  | nil =>
    cases ws' with
    | nil => rfl
    | cons w' ws' => exact absurd heq.symm (hS.join_ne_nil (by simp))
  | cons w ws ih =>
    obtain ⟨a, gap⟩ := w
    cases ws' with
    | nil => exact absurd heq (hS.join_ne_nil (by simp))
    | cons w' ws' =>
      obtain ⟨a', gap'⟩ := w'
      rw [join_cons, join_cons] at heq
      obtain ⟨rfl, hrest⟩ := hS.unique a a' _ _ heq h.fits h'.fits
      -- the white space ends where the next word starts, since words start with something else
      have hgap : Text.Blank gap := h.blank (a, gap) (by simp)
      have hgap' : Text.Blank gap' := h'.blank (a, gap') (by simp)
      obtain ⟨rfl, hjoin⟩ :=
        Text.blank_append_inj hgap hgap' (hS.inked_join ws) (hS.inked_join ws') hrest
      rw [ih h.tail h'.tail hjoin]

theorem Readable.exists_join (hS : S.Readable) {cs : List Char} (hcs : Text.Inked cs) :
    ∃ ws, S.Separated ws ∧ S.join ws = cs := by
  induction hn : cs.length using Nat.strong_induction_on generalizing cs with
  | _ n ih =>
  cases cs with
  | nil => exact ⟨[], .nil, rfl⟩
  | cons c cs =>
    obtain ⟨a, x, hax, hfits⟩ := hS.reads c cs (hcs c cs rfl)
    obtain ⟨gap, r, rfl, hgap, hr⟩ := Text.exists_blank_append x
    obtain ⟨c', cs', ha, -⟩ := hS.inked a
    -- what follows the word and its white space is shorter, since the word has a character
    have hlt : r.length < n := by
      have hlen := congrArg List.length hax
      rw [ha] at hlen
      simp only [List.length_append, List.length_cons] at hlen hn
      omega
    obtain ⟨ws, hws, hjoin⟩ := ih r.length hlt hr rfl
    refine ⟨(a, gap) :: ws, hws.cons hgap ?_ ?_, ?_⟩
    · -- without white space the next word would have to start with some
      rintro hne rfl
      rcases hfits with hnil | ⟨-, b, y, hb, hblank⟩
      · exact hS.join_ne_nil hne (hjoin.trans hnil)
      · rw [hr b y hb] at hblank
        cases hblank
    · intro hne
      rcases hfits with hnil | ⟨hclosed, -⟩
      · exact absurd (List.append_eq_nil_iff.mp hnil).1 hne
      · exact hclosed
    · rw [join_cons, hjoin, hax]

/-- **One reading.** Every text is exactly one line of words and white space. -/
theorem Readable.existsUnique (hS : S.Readable) (cs : List Char) :
    ∃ d : Spaced α, ∀ d' : Spaced α, d'.Valid S ∧ d'.text S = cs ↔ d' = d := by
  obtain ⟨lead, r, rfl, hlead, hr⟩ := Text.exists_blank_append cs
  obtain ⟨ws, hws, rfl⟩ := hS.exists_join hr
  refine ⟨⟨lead, ws⟩, fun d' => ⟨?_, ?_⟩⟩
  · rintro ⟨hd', htext⟩
    obtain ⟨lead', ws'⟩ := d'
    obtain ⟨hlead', hws'⟩ := hd'
    obtain ⟨hsame, hjoin⟩ :=
      Text.blank_append_inj hlead' hlead (hS.inked_join ws') (hS.inked_join ws) htext
    exact congrArg₂ Spaced.mk hsame (hS.join_inj hws' hws hjoin)
  · rintro rfl
    exact ⟨⟨hlead, hws⟩, rfl⟩

/-! ## The bytes of the tokens -/

theorem tokensFrom_append (pos : Nat) (us vs : List (α × List Char)) :
    S.tokensFrom pos (us ++ vs) =
      S.tokensFrom pos us ++ S.tokensFrom (pos + Text.byteSize (S.join us)) vs := by
  induction us generalizing pos with
  | nil => rfl
  | cons w us ih =>
    obtain ⟨a, gap⟩ := w
    rw [List.cons_append, tokensFrom, ih, tokensFrom, List.cons_append, join_cons,
      Text.byteSize_append, Text.byteSize_append]
    simp only [Nat.add_assoc]

@[simp] theorem length_tokensFrom (pos : Nat) (ws : List (α × List Char)) :
    (S.tokensFrom pos ws).length = ws.length := by
  induction ws generalizing pos with
  | nil => rfl
  | cons w ws ih => rw [tokensFrom, List.length_cons, List.length_cons, ih]

theorem map_value_tokensFrom (pos : Nat) (ws : List (α × List Char)) :
    (S.tokensFrom pos ws).map (·.value) = ws.map fun w => S.value w.1 := by
  induction ws generalizing pos with
  | nil => rfl
  | cons w ws ih =>
    rw [tokensFrom, List.map_cons, List.map_cons, ih]
    rfl

theorem getElem?_tokensFrom (pos : Nat) (us vs : List (α × List Char)) (a : α) (gap : List Char) :
    (S.tokensFrom pos (us ++ (a, gap) :: vs))[us.length]? =
      some (S.token (pos + Text.byteSize (S.join us)) a) := by
  have hlen : us.length = (S.tokensFrom pos us).length := (length_tokensFrom pos us).symm
  rw [tokensFrom_append, tokensFrom, hlen, List.getElem?_append_right (Nat.le_refl _), Nat.sub_self]
  rfl

theorem exists_of_mem_tokensFrom {pos : Nat} {t : Token} (h : t ∈ S.tokensFrom pos ws) :
    ∃ us a gap vs, ws = us ++ (a, gap) :: vs ∧
      t = S.token (pos + Text.byteSize (S.join us)) a := by
  induction ws generalizing pos with
  | nil => cases h
  | cons w ws ih =>
    obtain ⟨a, gap⟩ := w
    rw [tokensFrom] at h
    rcases List.mem_cons.mp h with rfl | h
    · exact ⟨[], a, gap, ws, rfl, rfl⟩
    · obtain ⟨us, b, gap', vs, rfl, rfl⟩ := ih h
      refine ⟨(a, gap) :: us, b, gap', vs, rfl, ?_⟩
      rw [join_cons, Text.byteSize_append, Text.byteSize_append]
      simp only [Nat.add_assoc]

end Spelling

/-- The token `u` follows `t` in the line `s`, with nothing but white space in between. -/
def Token.Before (s : String) (t u : Token) : Prop :=
  t.stop < u.start ∧ Text.Blank (Text.slice t.stop u.start s).toList

namespace Spelling

variable {α : Type} {S : Spelling α}

/-- Words that do not touch give tokens with white space in between. -/
theorem Separated.isChain_tokensFrom {ws : List (α × List Char)} (h : S.Separated ws)
    (before : List Char) :
    (S.tokensFrom (Text.byteSize before) ws).IsChain
      (Token.Before (String.ofList (before ++ S.join ws))) := by
  induction ws generalizing before with
  | nil => exact List.isChain_nil
  | cons w ws ih =>
    obtain ⟨a, gap⟩ := w
    have hpos : Text.byteSize before + Text.byteSize (S.text a) + Text.byteSize gap =
        Text.byteSize (before ++ (S.text a ++ gap)) := by
      simp only [Text.byteSize_append, Nat.add_assoc]
    have hline : before ++ S.join ((a, gap) :: ws) = before ++ (S.text a ++ gap) ++ S.join ws := by
      simp
    rw [tokensFrom, hpos, hline]
    have htail := ih h.tail (before ++ (S.text a ++ gap))
    cases ws with
    | nil => exact List.isChain_singleton _
    | cons w' ws =>
      obtain ⟨b, gap'⟩ := w'
      rw [tokensFrom] at htail ⊢
      refine List.isChain_cons_cons.mpr ⟨?_, htail⟩
      have hgap : gap ≠ [] := (List.isChain_cons_cons.mp h.apart).1
      have hstop : (S.token (Text.byteSize before) a).stop =
          Text.byteSize (before ++ S.text a) := by
        rw [Text.byteSize_append]
        rfl
      have hstart : (S.token (Text.byteSize (before ++ (S.text a ++ gap))) b).start =
          Text.byteSize (before ++ S.text a) + Text.byteSize gap := by
        rw [← Text.byteSize_append, List.append_assoc]
        rfl
      refine ⟨?_, ?_⟩
      · have := Text.byteSize_pos hgap
        rw [hstop, hstart]
        omega
      · have hsplit : before ++ (S.text a ++ gap) ++ S.join ((b, gap') :: ws) =
            before ++ S.text a ++ (gap ++ S.join ((b, gap') :: ws)) := by
          simp only [List.append_assoc]
        rw [hstop, hstart, hsplit, Text.slice_append, String.toList_ofList]
        exact h.blank (a, gap) (by simp)

end Spelling

namespace Spaced

variable {α : Type} {S : Spelling α} {d : Spaced α} {us vs : List (α × List Char)} {a : α}
  {gap : List Char}

theorem text_eq (h : d.words = us ++ (a, gap) :: vs) :
    d.text S = d.lead ++ S.join us ++ (S.text a ++ (gap ++ S.join vs)) := by
  rw [text, h, Spelling.join_append, Spelling.join_cons, List.append_assoc]

theorem getElem?_tokens (h : d.words = us ++ (a, gap) :: vs) :
    (d.tokens S)[us.length]? = some (S.token (Text.byteSize (d.lead ++ S.join us)) a) := by
  rw [tokens, h, Spelling.getElem?_tokensFrom, Text.byteSize_append]

theorem spans (hS : S.Readable) {t : Token} (ht : t ∈ d.tokens S) :
    t.start < t.stop ∧ t.stop ≤ Text.byteSize (d.text S) ∧
      String.Pos.Raw.IsValid (String.ofList (d.text S)) ⟨t.start⟩ ∧
      String.Pos.Raw.IsValid (String.ofList (d.text S)) ⟨t.stop⟩ := by
  obtain ⟨us, a, gap, vs, hwords, rfl⟩ := Spelling.exists_of_mem_tokensFrom ht
  rw [← Text.byteSize_append]
  have hline : d.text S = _ := text_eq hwords
  have hstop : (S.token (Text.byteSize (d.lead ++ S.join us)) a).stop =
      Text.byteSize (d.lead ++ S.join us ++ S.text a) := by
    rw [Text.byteSize_append _ (S.text a)]
    rfl
  obtain ⟨c, cs, ha, -⟩ := hS.inked a
  have hpos : 0 < Text.byteSize (S.text a) := Text.byteSize_pos (by simp [ha])
  refine ⟨?_, ?_, ?_, ?_⟩
  · show Text.byteSize (d.lead ++ S.join us) < Text.byteSize (d.lead ++ S.join us) + _
    omega
  · rw [hstop, hline, ← List.append_assoc _ (S.text a), Text.byteSize_append _ (gap ++ _)]
    exact Nat.le_add_right _ _
  · rw [hline]
    exact Text.isValid_byteSize _ _
  · rw [hstop, hline, ← List.append_assoc _ (S.text a)]
    exact Text.isValid_byteSize _ _

theorem Valid.isChain_tokens (hd : d.Valid S) :
    (d.tokens S).IsChain (Token.Before (String.ofList (d.text S))) :=
  hd.words.isChain_tokensFrom d.lead

end Spaced

/-! ## Splitters -/

namespace Spelling

variable {α : Type} {S : Spelling α} {lex : Nat → List Char → List Token × Option Nat}
  {ws : List (α × List Char)}

/-- The splitter `lex` skips white space and takes one word at a time. It gives the tokens of the
characters from a byte on, and the byte of a quote that is left open. -/
structure ReadBy (S : Spelling α) (lex : Nat → List Char → List Token × Option Nat) : Prop where
  nil : ∀ pos, lex pos [] = ([], none)
  blank : ∀ pos c cs, Text.isBlank c = true → lex pos (c :: cs) = lex (pos + c.utf8Size) cs
  word : ∀ pos a x, S.Fits a x → lex pos (S.text a ++ x) =
    (S.token pos a :: (lex (pos + Text.byteSize (S.text a)) x).1,
      ((S.opened a).map (pos + ·)).or (lex (pos + Text.byteSize (S.text a)) x).2)

theorem ReadBy.lex_blank (h : S.ReadBy lex) (pos : Nat) {gap : List Char} (hgap : Text.Blank gap)
    (x : List Char) : lex pos (gap ++ x) = lex (pos + Text.byteSize gap) x := by
  induction gap generalizing pos with
  | nil => rfl
  | cons c gap ih =>
    have hc : Text.isBlank c = true := hgap c (by simp)
    rw [List.cons_append, h.blank pos c _ hc, ih _ fun b hb => hgap b (by simp [hb]),
      Text.byteSize, Nat.add_assoc]

theorem ReadBy.lex_join (h : S.ReadBy lex) (pos : Nat) (hws : S.Separated ws) :
    lex pos (S.join ws) = (S.tokensFrom pos ws, S.openedFrom pos ws) := by
  induction ws generalizing pos with
  | nil => exact h.nil pos
  | cons w ws ih =>
    obtain ⟨a, gap⟩ := w
    have hgap : Text.Blank gap := hws.blank (a, gap) (by simp)
    rw [join_cons, h.word pos a _ hws.fits, h.lex_blank _ hgap, ih _ hws.tail]
    rfl

/-- **Splitting finds the tokens.** -/
theorem ReadBy.lex_text (h : S.ReadBy lex) {d : Spaced α} (hd : d.Valid S) :
    lex 0 (d.text S) = (d.tokens S, S.openedFrom (Text.byteSize d.lead) d.words) := by
  rw [Spaced.text, h.lex_blank 0 hd.lead, h.lex_join _ hd.words, Nat.zero_add]
  rfl

theorem Readable.openedFrom_eq_none (hS : S.Readable) (pos : Nat)
    (h : ∀ w ∈ ws, S.closed w.1) : S.openedFrom pos ws = none := by
  induction ws generalizing pos with
  | nil => rfl
  | cons w ws ih =>
    obtain ⟨a, gap⟩ := w
    rw [openedFrom, hS.unopened a (h (a, gap) (by simp)), ih _ fun w hw => h w (by simp [hw])]
    rfl

/-! ## Words spelled in another way -/

/-- The words `f a` of `S` are written as the words `a` of `T` and stand for the same. -/
def Respells {β : Type} (S : Spelling α) (T : Spelling β) (f : β → α) (a : β) : Prop :=
  S.text (f a) = T.text a ∧ S.value (f a) = T.value a

variable {β : Type} {T : Spelling β} {f : β → α} {us : List (β × List Char)}

theorem join_map (h : ∀ w ∈ us, S.Respells T f w.1) :
    S.join (us.map fun w => (f w.1, w.2)) = T.join us := by
  induction us with
  | nil => rfl
  | cons w us ih =>
    obtain ⟨a, gap⟩ := w
    rw [List.map_cons, join_cons, join_cons, ih fun w hw => h w (by simp [hw]),
      (h (a, gap) (by simp)).1]

theorem tokensFrom_map (pos : Nat) (h : ∀ w ∈ us, S.Respells T f w.1) :
    S.tokensFrom pos (us.map fun w => (f w.1, w.2)) = T.tokensFrom pos us := by
  induction us generalizing pos with
  | nil => rfl
  | cons w us ih =>
    obtain ⟨a, gap⟩ := w
    obtain ⟨htext, hvalue⟩ := h (a, gap) (by simp)
    rw [List.map_cons, tokensFrom, tokensFrom, ih _ fun w hw => h w (by simp [hw]), token, token,
      htext, hvalue]

theorem Separated.map (h : T.Separated us) (hclosed : ∀ w ∈ us, S.closed (f w.1)) :
    S.Separated (us.map fun w => (f w.1, w.2)) where
  blank := by
    intro w hw
    obtain ⟨v, hv, rfl⟩ := List.mem_map.mp hw
    exact h.blank v hv
  apart := (List.isChain_map _).mpr h.apart
  closed := by
    intro w hw _
    obtain ⟨v, hv, rfl⟩ := List.mem_map.mp hw
    exact hclosed v hv

/-! ## The last word -/

theorem Separated.concat (h : S.Separated ws) (hgaps : ∀ w ∈ ws, w.2 ≠ []) (a : α) :
    S.Separated (ws ++ [(a, [])]) := by
  induction ws with
  | nil => exact Separated.nil.cons nofun (fun h => absurd rfl h) (fun h => absurd rfl h)
  | cons w ws ih =>
    obtain ⟨b, gap⟩ := w
    exact (ih h.tail fun w hw => hgaps w (by simp [hw])).cons (h.blank (b, gap) (by simp))
      (fun _ => hgaps (b, gap) (by simp)) (h.closed (b, gap) (by simp))

theorem Separated.init {w : α × List Char} (h : S.Separated (ws ++ [w])) :
    S.Separated ws ∧ ∀ u ∈ ws, u.2 ≠ [] := by
  induction ws with
  | nil => exact ⟨.nil, by simp⟩
  | cons u ws ih =>
    obtain ⟨b, gap⟩ := u
    obtain ⟨hws, hgaps⟩ := ih h.tail
    have hgap : gap ≠ [] := by
      obtain ⟨v, vs, hv⟩ := List.exists_cons_of_ne_nil (l := ws ++ [w]) (by simp)
      have happart := h.apart
      rw [List.cons_append, hv] at happart
      exact (List.isChain_cons_cons.mp happart).1
    refine ⟨hws.cons (h.blank (b, gap) (by simp)) (fun _ => hgap) (h.closed (b, gap) (by simp)), ?_⟩
    intro u hu
    rcases List.mem_cons.mp hu with rfl | hu
    · exact hgap
    · exact hgaps u hu

end Spelling

namespace Spaced

variable {α : Type} {S : Spelling α} {d : Spaced α}

/-- A line on which the next word may start: there is white space behind all of its words. -/
structure Ready (S : Spelling α) (d : Spaced α) : Prop where
  valid : d.Valid S
  gaps : ∀ w ∈ d.words, w.2 ≠ []

/-- The line with one more word. -/
def concat (d : Spaced α) (a : α) : Spaced α := ⟨d.lead, d.words ++ [(a, [])]⟩

theorem text_concat (a : α) : (d.concat a).text S = d.text S ++ S.text a := by
  simp [concat, text, Spelling.join_append]

theorem tokens_concat (a : α) :
    (d.concat a).tokens S = d.tokens S ++ [S.token (Text.byteSize (d.text S)) a] := by
  simp only [concat, tokens, Spelling.tokensFrom_append, Spelling.tokensFrom, text,
    Text.byteSize_append]

theorem Ready.concat (h : d.Ready S) (a : α) : (d.concat a).Valid S :=
  ⟨h.valid.lead, h.valid.words.concat h.gaps a⟩

theorem Ready.stop_lt (h : d.Ready S) {t : Token} (ht : t ∈ d.tokens S) :
    t.stop < Text.byteSize (d.text S) := by
  obtain ⟨us, a, gap, vs, hwords, rfl⟩ := Spelling.exists_of_mem_tokensFrom ht
  have hgap : 0 < Text.byteSize gap := Text.byteSize_pos (h.gaps (a, gap) (by simp [hwords]))
  rw [text_eq hwords, Text.byteSize_append, Text.byteSize_append, Text.byteSize_append,
    Text.byteSize_append]
  show Text.byteSize d.lead + Text.byteSize (S.join us) + Text.byteSize (S.text a) < _
  omega

theorem exists_ready (hS : S.Readable) (cs : List Char) :
    ∃ d : Spaced α, d.Ready S ∧ (d.text S = cs ∨ ∃ a, (d.concat a).text S = cs) := by
  obtain ⟨d, hd⟩ := hS.existsUnique cs
  obtain ⟨hvalid, htext⟩ := (hd d).mpr rfl
  obtain ⟨lead, words⟩ := d
  rcases List.eq_nil_or_concat words with rfl | ⟨ws, ⟨a, gap⟩, hwords⟩
  · exact ⟨⟨lead, []⟩, ⟨hvalid, by simp⟩, .inl htext⟩
  · rw [List.concat_eq_append] at hwords
    subst hwords
    obtain ⟨hws, hgaps⟩ := hvalid.words.init
    by_cases hgap : gap = []
    · subst hgap
      exact ⟨⟨lead, ws⟩, ⟨⟨hvalid.lead, hws⟩, hgaps⟩, .inr ⟨a, htext⟩⟩
    · refine ⟨⟨lead, ws ++ [(a, gap)]⟩, ⟨hvalid, ?_⟩, .inl htext⟩
      intro w hw
      rcases List.mem_append.mp hw with hw | hw
      · exact hgaps w hw
      · obtain rfl := List.mem_singleton.mp hw
        exact hgap

end Spaced

end ArgGrammar
