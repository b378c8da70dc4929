import ArgGrammar.Proofs.Segments
import Mathlib.Tactic.Choose

/-!
# Policies that split at white space

The quoting policies and plain splitting differ in what a word is, and agree in all the rest: they
skip white space, take one word at a time, and write a value as one closed word.

* `Words.spelling`: words without white space, which plain splitting reads.
* `Quoted.exists_argument`: a quoted value is one closed argument.
* `Tokenizer.Writable`: the values that a policy can write as one token.
* `Tokenizer.Reads`: what the policies have in common; `Tokenizer.exists_reads` gives it for each.
* `tokenize_quoted_values`: values that are quoted and set apart by white space are read back.
-/

namespace ArgGrammar

namespace Words

/-- A word: characters, none of which is white space. -/
structure Word where
  chars : List Char
  nonempty : chars ≠ []
  inked : ∀ c ∈ chars, Text.isBlank c = false

/-- Words as they are written. -/
def spelling : Spelling Word where
  text w := w.chars
  value w := String.ofList w.chars
  closed _ := True
  opened _ := none

theorem takeWhile_word {w : Word} {x : List Char} (h : spelling.Fits w x) :
    (w.chars ++ x).takeWhile isWordChar = w.chars := by
  have hw : ∀ c ∈ w.chars, isWordChar c = true := fun c hc => by simp [isWordChar, w.inked c hc]
  rw [List.takeWhile_append_of_pos hw]
  rcases h with rfl | ⟨-, c, y, rfl, hc⟩
  · simp
  · simp [isWordChar, hc]

theorem dropWhile_word {w : Word} {x : List Char} (h : spelling.Fits w x) :
    (w.chars ++ x).dropWhile isWordChar = x := by
  have hsplit : (w.chars ++ x).takeWhile isWordChar ++ (w.chars ++ x).dropWhile isWordChar =
      w.chars ++ x := List.takeWhile_append_dropWhile
  rw [takeWhile_word h] at hsplit
  exact List.append_cancel_left hsplit

theorem readable : spelling.Readable where
  inked w := by
    obtain ⟨c, cs, hw⟩ := List.exists_cons_of_ne_nil w.nonempty
    exact ⟨c, cs, hw, w.inked c (by simp [hw])⟩
  reads c cs hc := by
    have hword : isWordChar c = true := by simp [isWordChar, hc]
    refine ⟨⟨c :: cs.takeWhile isWordChar, by simp, ?_⟩, cs.dropWhile isWordChar, ?_, ?_⟩
    · intro b hb
      have hb' : b ∈ (c :: cs).takeWhile isWordChar := by simpa [hword] using hb
      simpa [isWordChar] using List.all_eq_true.mp List.all_takeWhile b hb'
    · show c :: cs = c :: cs.takeWhile isWordChar ++ cs.dropWhile isWordChar
      rw [List.cons_append, List.takeWhile_append_dropWhile]
    · cases hrest : cs.dropWhile isWordChar with
      | nil => exact .inl rfl
      | cons d y =>
        have hhead := List.head?_dropWhile_not isWordChar cs
        rw [hrest] at hhead
        exact .inr ⟨trivial, d, y, rfl, by simpa [isWordChar] using hhead⟩
  unique w w' x x' heq h h' := by
    have hsame : w.chars = w'.chars := by
      rw [← takeWhile_word h, ← takeWhile_word h']
      exact congrArg (List.takeWhile isWordChar) heq
    obtain ⟨chars, _, _⟩ := w
    obtain ⟨chars', _, _⟩ := w'
    obtain rfl : chars = chars' := hsame
    exact ⟨rfl, List.append_cancel_left heq⟩
  unopened _ _ := rfl

theorem readBy : spelling.ReadBy fun pos cs => (tokensFrom pos cs, none) where
  nil pos := by rw [tokensFrom]
  blank pos c cs hc := by rw [tokensFrom, if_pos hc]
  word pos w x hfits := by
    obtain ⟨c, cs, hw, hc⟩ := readable.inked w
    have htext : w.chars ++ x = c :: (cs ++ x) := by
      rw [show w.chars = c :: cs from hw, List.cons_append]
    have hword : isWordChar c = true := by simp [isWordChar, hc]
    have htake : c :: (cs ++ x).takeWhile isWordChar = w.chars := by
      rw [← takeWhile_word hfits, htext, List.takeWhile_cons_of_pos hword]
    have hdrop : (cs ++ x).dropWhile isWordChar = x := by
      have hrest := dropWhile_word hfits
      rwa [htext, List.dropWhile_cons_of_pos hword] at hrest
    show (tokensFrom pos (w.chars ++ x), none) = _
    rw [htext, tokensFrom, if_neg (by simp [hc]), htake, hdrop]
    rfl

end Words

/-! ## Quoted values -/

namespace Quoted

/-- A character between double quotes. -/
def Piece.ofChar (c : Char) : Piece := if c = '"' || c = '\\' then .escape c else .char c

theorem Piece.text_ofChar (c : Char) : (ofChar c).text = Tokenizer.quotedChar c := by
  rw [ofChar, Tokenizer.quotedChar]
  split <;> rfl

theorem Piece.value_ofChar (c : Char) : (ofChar c).value = c := by
  rw [ofChar]
  split <;> rfl

theorem Piece.valid_ofChar (c : Char) : (ofChar c).Valid (· == '"') := by
  rw [ofChar]
  split
  · trivial
  · next hplain =>
    obtain ⟨hquote, hbackslash⟩ : c ≠ '"' ∧ c ≠ '\\' := by simpa using hplain
    exact ⟨hbackslash, beq_eq_false_iff_ne.mpr hquote⟩

theorem isChain_closed {ss : List Segment} (h : ∀ s ∈ ss, s.Closed) :
    ss.IsChain fun s _ => s.Closed := by
  induction ss with
  | nil => exact List.isChain_nil
  | cons s ss ih =>
    cases ss with
    | nil => exact List.isChain_singleton _
    | cons r ss =>
      exact List.isChain_cons_cons.mpr ⟨h s (by simp), ih fun t ht => h t (by simp [ht])⟩

/-- An argument of closed segments. -/
def Argument.ofClosed (ss : List Segment) (hne : ss ≠ []) (hvalid : ∀ s ∈ ss, s.Valid)
    (hclosed : ∀ s ∈ ss, s.Closed) : Argument :=
  ⟨ss, hne, hvalid, isChain_closed hclosed⟩

/-- The quoted form of a value is one closed argument that stands for it. -/
theorem exists_argument (v : String) :
    ∃ a : Argument, spelling.closed a ∧ spelling.text a = (Tokenizer.lenientQuoted.quote v).toList ∧
      spelling.value a = v := by
  rw [Tokenizer.quote]
  split
  · -- one run in double quotes
    have hvalid : (Segment.quoted '"' (v.toList.map Piece.ofChar) .quote).Valid := by
      refine ⟨by decide, fun p hp => ?_⟩
      obtain ⟨c, -, rfl⟩ := List.mem_map.mp hp
      exact Piece.valid_ofChar c
    refine ⟨.ofClosed [.quoted '"' (v.toList.map Piece.ofChar) .quote] (by simp)
      (by simpa using hvalid) (by simp [Segment.Closed]),
      by simp [spelling, Argument.ofClosed, Segment.Closed], ?_, ?_⟩
    · simp [spelling, Argument.ofClosed, textOf, Segment.text, Ending.text, Tokenizer.doubleQuoted,
        List.flatMap_map, Piece.text_ofChar]
    · simp [spelling, Argument.ofClosed, valueOf, Segment.value, Ending.value, Function.comp_def,
        Piece.value_ofChar]
  · -- plain characters, of which there is at least one
    next hbare =>
    obtain ⟨hempty, hplain⟩ : v ≠ "" ∧ ∀ c ∈ v.toList, Tokenizer.needsQuotes c = false := by
      simpa using hbare
    have hvalid : ∀ s ∈ v.toList.map fun c => Segment.bare (.char c), s.Valid := by
      intro s hs
      obtain ⟨c, hc, rfl⟩ := List.mem_map.mp hs
      obtain ⟨⟨⟨hblank, hdouble⟩, hsingle⟩, hbackslash⟩ :
          ((Text.isBlank c = false ∧ c ≠ '"') ∧ c ≠ '\'') ∧ c ≠ '\\' := by
        simpa [Tokenizer.needsQuotes] using hplain c hc
      exact ⟨hbackslash, by simp [endsBare, isQuote, hblank, hdouble, hsingle]⟩
    refine ⟨.ofClosed (v.toList.map fun c => .bare (.char c)) (by simpa using hempty) hvalid
      (by simp [Segment.Closed]), by simp [spelling, Argument.ofClosed, Segment.Closed], ?_, ?_⟩
    · simp [spelling, Argument.ofClosed, textOf, Segment.text, Piece.text, List.flatMap_map]
    · simp [spelling, Argument.ofClosed, valueOf, Segment.value, Piece.value, List.flatMap_map]

end Quoted

namespace Tokenizer

/-- The values that the policy can write as one token. Without quotes there is no way to write the
empty value, nor to keep white space from splitting a word. -/
def Writable : Tokenizer → String → Prop
  | lenientQuoted, _ => True
  | strictQuoted, _ => True
  | raw, v => v ≠ ""
  | spaceSplit, v => v ≠ "" ∧ ∀ c ∈ v.toList, Text.isBlank c = false

/-- Values as the policy writes them. -/
def spelling (policy : Tokenizer) : Spelling String where
  text v := (policy.quote v).toList
  value v := v
  closed _ := True
  opened _ := none

/-- The policy reads the words of a spelling. Only a quote that is left open can make it fail, and
it does not when completing. What it writes is a closed word. -/
structure Reads {α : Type} (policy : Tokenizer) (S : Spelling α)
    (lex : Nat → List Char → List Token × Option Nat) : Prop where
  readable : S.Readable
  readBy : S.ReadBy lex
  completing : ∀ input, policy.split true input = .ok (lex 0 input.toList).1
  unopened : ∀ input ts, lex 0 input.toList = (ts, none) → policy.split false input = .ok ts
  quote : ∀ v, policy.Writable v →
    ∃ a, S.closed a ∧ S.text a = (policy.quote v).toList ∧ S.value a = v

theorem reads_of_quotes {policy : Tokenizer} (h : policy.Quotes) :
    policy.Reads Quoted.spelling Quoted.tokensFrom where
  readable := Quoted.readable
  readBy := Quoted.readBy
  completing input := by
    rcases h with rfl | rfl
    · rfl
    · simp only [split]
      split <;> rfl
  unopened input ts hts := by
    have htokens : Quoted.tokens input = (ts, none) := hts
    rcases h with rfl | rfl <;> simp [split, htokens]
  quote v _ := by
    have hquote : policy.quote v = lenientQuoted.quote v := by rcases h with rfl | rfl <;> rfl
    rw [hquote]
    exact Quoted.exists_argument v

theorem reads_spaceSplit :
    spaceSplit.Reads Words.spelling fun pos cs => (Words.tokensFrom pos cs, none) where
  readable := Words.readable
  readBy := Words.readBy
  completing _ := rfl
  unopened input ts hts := congrArg Except.ok (congrArg Prod.fst hts)
  quote v hv := by
    obtain ⟨hempty, hinked⟩ := hv
    exact ⟨⟨v.toList, by simpa using hempty, hinked⟩, trivial, rfl, String.ofList_toList⟩

theorem exists_reads {policy : Tokenizer} (h : policy ≠ .raw) :
    ∃ (α : Type) (S : Spelling α) (lex : Nat → List Char → List Token × Option Nat),
      policy.Reads S lex := by
  cases policy with
  | lenientQuoted => exact ⟨_, _, _, reads_of_quotes (.inl rfl)⟩
  | strictQuoted => exact ⟨_, _, _, reads_of_quotes (.inr rfl)⟩
  | raw => exact absurd rfl h
  | spaceSplit => exact ⟨_, _, _, reads_spaceSplit⟩

theorem tokenize_of_split {policy : Tokenizer} {input : String} {ts : List Token}
    (h : policy.split false input = .ok ts) : policy.tokenize input false = .ok ts := by
  simp [tokenize, h]

theorem Reads.tokenize_text {α : Type} {policy : Tokenizer} {S : Spelling α}
    {lex : Nat → List Char → List Token × Option Nat} (h : policy.Reads S lex) {d : Spaced α}
    (hd : d.Valid S) (hclosed : ∀ w ∈ d.words, S.closed w.1) :
    policy.tokenize (String.ofList (d.text S)) false = .ok (d.tokens S) := by
  have hlex := h.readBy.lex_text hd
  rw [h.readable.openedFrom_eq_none _ hclosed] at hlex
  refine tokenize_of_split (h.unopened _ _ ?_)
  rw [String.toList_ofList]
  exact hlex

end Tokenizer

/-- **Quoted values are read back.** For the policies that split at white space: values that the
policy can write, quoted and set apart by white space, with any white space at the ends, split into
exactly one token for each value, which lies on the bytes of its quoted form. -/
theorem tokenize_quoted_values {policy : Tokenizer} (hpolicy : policy ≠ .raw) {d : Spaced String}
    (hd : d.Valid policy.spelling) (hvalues : ∀ w ∈ d.words, policy.Writable w.1) :
    ∃ ts, policy.tokenize (String.ofList (d.text policy.spelling)) false = .ok ts ∧
      ts.map (·.value) = d.words.map (·.1) ∧
      ∀ us v gap vs, d.words = us ++ (v, gap) :: vs →
        ts[us.length]? = some
          ⟨v, Text.byteSize (d.lead ++ policy.spelling.join us),
            Text.byteSize (d.lead ++ policy.spelling.join us) + Text.size (policy.quote v)⟩ := by
  obtain ⟨α, S, lex, hreads⟩ := Tokenizer.exists_reads hpolicy
  have hnonempty : Nonempty α := by
    obtain ⟨a, -⟩ := hreads.readable.reads 'x' [] (by decide)
    exact ⟨a⟩
  -- the line is one of `S`, on which every value is respelled as the word that it is quoted as
  choose! word hword using hreads.quote
  have hclosed : ∀ w ∈ d.words, S.closed (word w.1) := fun w hw => (hword w.1 (hvalues w hw)).1
  have hrespells : ∀ w ∈ d.words, S.Respells policy.spelling word w.1 :=
    fun w hw => (hword w.1 (hvalues w hw)).2
  let d' : Spaced α := ⟨d.lead, d.words.map fun w => (word w.1, w.2)⟩
  have htext : d'.text S = d.text policy.spelling :=
    congrArg (d.lead ++ ·) (Spelling.join_map hrespells)
  have htokens : d'.tokens S = d.tokens policy.spelling := Spelling.tokensFrom_map _ hrespells
  have hvalid : d'.Valid S := ⟨hd.lead, hd.words.map hclosed⟩
  have hsplit := hreads.tokenize_text hvalid fun w hw => by
    obtain ⟨u, hu, rfl⟩ := List.mem_map.mp hw
    exact hclosed u hu
  rw [htext, htokens] at hsplit
  refine ⟨d.tokens policy.spelling, hsplit, ?_, fun us v gap vs hwords => ?_⟩
  · exact Spelling.map_value_tokensFrom _ _
  · exact Spaced.getElem?_tokens hwords

/-- The empty value, both quotes, a backslash, white space and a character of two bytes; and quotes
that mean nothing. -/
theorem tokenize_quoted_values_awkward :
    let d : Spaced String := ⟨[' '], [("", ['\t']), ("it's \"so\"\\", [' ', '\n']), ("é", [])]⟩
    let e : Spaced String := ⟨[], [("\"a", [' ']), ("b\\", ['\n'])]⟩
    d.Valid Tokenizer.strictQuoted.spelling ∧ e.Valid Tokenizer.spaceSplit.spelling ∧
      (∃ ts, Tokenizer.strictQuoted.tokenize " \"\"\t\"it's \\\"so\\\"\\\\\" \né" false = .ok ts ∧
        ts.map (·.value) = ["", "it's \"so\"\\", "é"] ∧ ts[2]? = some ⟨"é", 21, 23⟩) ∧
      ∃ ts, Tokenizer.spaceSplit.tokenize "\"a b\\\n" false = .ok ts ∧
        ts.map (·.value) = ["\"a", "b\\"] := by
  intro d e
  have hd : d.Valid Tokenizer.strictQuoted.spelling :=
    ⟨by decide +kernel, by decide +kernel, by simp [d], fun _ _ _ => trivial⟩
  have he : e.Valid Tokenizer.spaceSplit.spelling :=
    ⟨by decide +kernel, by decide +kernel, by simp [e], fun _ _ _ => trivial⟩
  have hwritable : ∀ w ∈ e.words, Tokenizer.spaceSplit.Writable w.1 := by
    simp only [e, List.forall_mem_cons, List.not_mem_nil, false_implies, implies_true, and_true]
    exact ⟨⟨by decide, by simp; decide⟩, ⟨by decide, by simp; decide⟩⟩
  obtain ⟨ts, hts, hvalues, hspans⟩ := tokenize_quoted_values (by decide) hd fun _ _ => trivial
  obtain ⟨us, hus, hvalues', -⟩ := tokenize_quoted_values (by decide) he hwritable
  refine ⟨hd, he, ⟨ts, hts, hvalues, ?_⟩, us, hus, hvalues'⟩
  have hé := hspans [("", ['\t']), ("it's \"so\"\\", [' ', '\n'])] "é" [] [] rfl
  refine hé.trans (congrArg some ?_)
  decide +kernel

end ArgGrammar
