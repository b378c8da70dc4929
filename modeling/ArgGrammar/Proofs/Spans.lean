import ArgGrammar.Proofs.Policies
import ArgGrammar.Element.Flags

/-!
# The bytes that a token was read from

Positions are byte offsets into a line. Every token of a line lies between characters of it, and its
value is not longer than the text it was read from. This is kept when the value of a flag
`--name=value` becomes a token of its own.

* `Text.exists_slice`: two places between characters cut a line in three.
* `Token.Fits line t`: the token lies between characters of the line and is not longer than its text.
* `Tokenizer.fits_of_tokenize`: the tokens of a line fit it, under every policy.
* `Flags.inlineToken`: the value of a flag as a token, and `Token.Sprung line ts`: the tokens that
  come out of `ts` in this way.
* `Token.Sprung.fits`, `Token.Sprung.start_cases`: they fit the line, and each starts where a token of
  `ts` does, or right behind an equals sign in one that is written without quotes.
-/

namespace ArgGrammar

namespace Text

theorem le_size_of_isValid {s : String} {n : Nat} (h : String.Pos.Raw.IsValid s ⟨n⟩) : n ≤ size s := by
  obtain ⟨u, v, hs, rfl⟩ := isValid_iff.mp h
  rw [size, hs, byteSize_append]
  omega

theorem isValid_size (s : String) : String.Pos.Raw.IsValid s ⟨size s⟩ :=
  isValid_iff.mpr ⟨s.toList, [], by simp, rfl⟩

theorem isValid_zero (s : String) : String.Pos.Raw.IsValid s ⟨0⟩ :=
  isValid_iff.mpr ⟨[], s.toList, rfl, rfl⟩

theorem eq_nil_of_byteSize_eq_zero {cs : List Char} (h : byteSize cs = 0) : cs = [] := by
  by_contra hne
  have := byteSize_pos hne
  omega

theorem exists_slice {s : String} {start stop : Nat} (hle : start ≤ stop)
    (hstart : String.Pos.Raw.IsValid s ⟨start⟩) (hstop : String.Pos.Raw.IsValid s ⟨stop⟩) :
    ∃ u v w, s.toList = u ++ (v ++ w) ∧ byteSize u = start ∧ byteSize u + byteSize v = stop ∧
      slice start stop s = String.ofList v := by
  obtain ⟨u, x, hx, hu⟩ := isValid_iff.mp hstart
  obtain ⟨y, w, hw, hy⟩ := isValid_iff.mp hstop
  have hcut : ∃ v, y = u ++ v ∧ x = v ++ w := by
    rcases List.append_eq_append_iff.mp (hx.symm.trans hw) with ⟨v, rfl, rfl⟩ | ⟨v, rfl, rfl⟩
    · exact ⟨v, rfl, rfl⟩
    · have hv : v = [] := by
        apply eq_nil_of_byteSize_eq_zero
        rw [byteSize_append] at hu
        omega
      exact ⟨[], by simp [hv], by simp [hv]⟩
  obtain ⟨v, rfl, rfl⟩ := hcut
  rw [byteSize_append] at hy
  refine ⟨u, v, w, hx, hu, hy, ?_⟩
  rw [← hu, ← hy, ← slice_append u v w, ← hx, String.ofList_toList]

end Text

/-- The token lies between characters of the line, and its value is not longer than its text. -/
structure Token.Fits (line : String) (t : Token) : Prop where
  start_le : t.start ≤ t.stop
  stop_le : t.stop ≤ Text.size line
  start : String.Pos.Raw.IsValid line ⟨t.start⟩
  stop : String.Pos.Raw.IsValid line ⟨t.stop⟩
  value_le : Text.size t.value ≤ t.stop - t.start

instance (line : String) (t : Token) : Decidable (t.Fits line) :=
  decidable_of_iff (t.start ≤ t.stop ∧ t.stop ≤ Text.size line ∧
      String.Pos.Raw.IsValid line ⟨t.start⟩ ∧ String.Pos.Raw.IsValid line ⟨t.stop⟩ ∧
      Text.size t.value ≤ t.stop - t.start)
    ⟨fun ⟨h₁, h₂, h₃, h₄, h₅⟩ => ⟨h₁, h₂, h₃, h₄, h₅⟩, fun ⟨h₁, h₂, h₃, h₄, h₅⟩ => ⟨h₁, h₂, h₃, h₄, h₅⟩⟩

/-! ## The tokens of a line -/

theorem Spaced.fits {α : Type} {S : Spelling α} (hS : S.Readable)
    (hvalue : ∀ a, Text.size (S.value a) ≤ Text.byteSize (S.text a)) {d : Spaced α} {t : Token}
    (ht : t ∈ d.tokens S) : t.Fits (String.ofList (d.text S)) := by
  obtain ⟨hlt, hle, hstart, hstop⟩ := Spaced.spans hS ht
  refine ⟨Nat.le_of_lt hlt, by rwa [Text.size_ofList], hstart, hstop, ?_⟩
  obtain ⟨us, a, gap, vs, -, rfl⟩ := Spelling.exists_of_mem_tokensFrom ht
  have ha := hvalue a
  simp only [Spelling.token]
  omega

theorem Spelling.ReadBy.fits {α : Type} {S : Spelling α}
    {lex : Nat → List Char → List Token × Option Nat} (hlex : S.ReadBy lex) (hS : S.Readable)
    (hvalue : ∀ a, Text.size (S.value a) ≤ Text.byteSize (S.text a)) (line : String) {t : Token}
    (ht : t ∈ (lex 0 line.toList).1) : t.Fits line := by
  obtain ⟨d, hd⟩ := hS.existsUnique line.toList
  obtain ⟨hvalid, htext⟩ := (hd d).mpr rfl
  rw [← htext, hlex.lex_text hvalid] at ht
  have hfits := Spaced.fits hS hvalue ht
  rwa [htext, String.ofList_toList] at hfits

namespace Quoted

theorem Piece.byteSize_value_le (p : Piece) : p.value.utf8Size ≤ Text.byteSize p.text := by
  cases p <;> simp [text, value, Text.byteSize]

theorem byteSize_values_le (ps : List Piece) :
    Text.byteSize (ps.map Piece.value) ≤ Text.byteSize (ps.flatMap Piece.text) := by
  induction ps with
  | nil => exact Nat.le_refl _
  | cons p ps ih =>
    have hp := p.byteSize_value_le
    rw [List.map_cons, List.flatMap_cons, Text.byteSize, Text.byteSize_append]
    omega

theorem Ending.byteSize_value_le (q : Char) (e : Ending) :
    Text.byteSize e.value ≤ Text.byteSize (e.text q) := by
  cases e <;> simp [text, value, Text.byteSize]

theorem Segment.byteSize_value_le (s : Segment) : Text.byteSize s.value ≤ Text.byteSize s.text := by
  cases s with
  | bare p =>
    have hp := p.byteSize_value_le
    rw [value, text, Text.byteSize, Text.byteSize]
    omega
  | quoted q body ending =>
    have hbody := byteSize_values_le body
    have hending := ending.byteSize_value_le q
    rw [value, text, Text.byteSize, Text.byteSize_append, Text.byteSize_append]
    omega
  | backslash => exact Nat.le_refl _

theorem size_value_le (a : Argument) :
    Text.size (spelling.value a) ≤ Text.byteSize (spelling.text a) := by
  have hsegments : ∀ ss : List Segment,
      Text.byteSize (valueOf ss) ≤ Text.byteSize (textOf ss) := by
    intro ss
    induction ss with
    | nil => exact Nat.le_refl _
    | cons s ss ih =>
      have hs := s.byteSize_value_le
      rw [valueOf] at ih ⊢
      rw [textOf] at ih ⊢
      rw [List.flatMap_cons, List.flatMap_cons, Text.byteSize_append, Text.byteSize_append]
      omega
  rw [spelling, Text.size_ofList]
  exact hsegments a.segments

end Quoted

namespace Tokenizer

variable {policy : Tokenizer} {line : String} {ts : List Token}

theorem fits_of_split {lenient : Bool} (h : policy.split lenient line = .ok ts) {t : Token}
    (ht : t ∈ ts) : t.Fits line := by
  have hquoted : ∀ t ∈ (Quoted.tokens line).1, t.Fits line :=
    fun t ht => Quoted.readBy.fits Quoted.readable Quoted.size_value_le line ht
  cases policy with
  | lenientQuoted =>
    cases h
    exact hquoted t ht
  | strictQuoted =>
    unfold split at h
    dsimp only at h
    split at h
    · split at h
      · cases h
        exact hquoted t ht
      · cases h
    · cases h
      exact hquoted t ht
  | spaceSplit =>
    cases h
    refine Words.readBy.fits Words.readable (fun w => ?_) line ht
    rw [Words.spelling, Text.size_ofList]
  | raw =>
    cases h
    split at ht
    · cases ht
    · obtain rfl := List.mem_singleton.mp ht
      exact ⟨Nat.zero_le _, Nat.le_refl _, Text.isValid_zero line, Text.isValid_size line,
        Nat.le_refl _⟩

/-- **The tokens of a line fit it,** also the empty one that completion puts at its end. -/
theorem fits_of_tokenize {forCompletion : Bool} (h : policy.tokenize line forCompletion = .ok ts) :
    ∀ t ∈ ts, t.Fits line := by
  intro t ht
  unfold tokenize at h
  split at h
  · cases h
  · next us hsplit =>
    dsimp only at h
    split at h
    · cases h
      rcases List.mem_append.mp ht with ht | ht
      · exact fits_of_split hsplit ht
      · obtain rfl := List.mem_singleton.mp ht
        exact ⟨Nat.le_refl _, Nat.le_refl _, Text.isValid_size line, Text.isValid_size line,
          Nat.zero_le _⟩
    · cases h
      exact fits_of_split hsplit ht

end Tokenizer

/-! ## The values of flags -/

theorem FlagWord.toList_of_inline {s name value : String} (h : ofText s = .long name (some value)) :
    s.toList = '-' :: '-' :: (name.toList ++ '=' :: value.toList) := by
  have hlong : ∀ cs : List Char, ofLong cs = .long name (some value) →
      cs = name.toList ++ '=' :: value.toList := by
    intro cs hcs
    unfold ofLong at hcs
    dsimp only at hcs
    split at hcs
    · cases hcs
    · next c rest hrest =>
      obtain ⟨rfl, hvalue⟩ := FlagWord.long.inj hcs
      obtain rfl := Option.some.inj hvalue
      have hhead := List.head?_dropWhile_not (fun c : Char => c != '=') cs
      rw [hrest] at hhead
      have hc : c = '=' := by simpa using hhead
      rw [String.toList_ofList, String.toList_ofList]
      calc cs = cs.takeWhile (· != '=') ++ cs.dropWhile (· != '=') :=
            List.takeWhile_append_dropWhile.symm
        _ = cs.takeWhile (· != '=') ++ '=' :: rest := by rw [hrest, hc]
  unfold ofText at h
  split at h
  · cases h
  · next cs _ hs => rw [hs, hlong cs h]
  · cases h
  · cases h

namespace Flags

/-- The value of a token `--name=value` as a token. -/
def inlineToken (line : String) (t : Token) (value : String) : Token :=
  ⟨value, if Text.slice t.start t.stop line = t.value then t.stop - Text.size value else t.start,
    t.stop⟩

theorem inlineCursor_eq (c : Cursor) (t : Token) (value : String) :
    inlineCursor c t value = c.onTokens [inlineToken c.raw t value] := rfl

end Flags

/-- The tokens of `ts`, and the values of flags in tokens that are sprung from them. -/
inductive Token.Sprung (line : String) (ts : List Token) : Token → Prop where
  | token {t : Token} (h : t ∈ ts) : Sprung line ts t
  | inline {t : Token} {name value : String} (ht : Sprung line ts t)
      (hword : FlagWord.ofText t.value = .long name (some value)) :
      Sprung line ts (Flags.inlineToken line t value)

/-- The place right behind an equals sign in a flag `--name=value` that is written in the line just as
it reads. -/
def Token.BehindEquals (line : String) (t : Token) (n : Nat) : Prop :=
  (∃ name value, FlagWord.ofText t.value = .long name (some value)) ∧
    Text.slice t.start t.stop line = t.value ∧
    ∃ u v, t.value.toList = u ++ '=' :: v ∧ n = t.start + Text.byteSize (u ++ ['='])

namespace Token

variable {line : String} {ts : List Token} {t : Token} {name value : String}

theorem size_of_inline (h : FlagWord.ofText t.value = .long name (some value)) :
    Text.size t.value = Text.byteSize ('-' :: '-' :: (name.toList ++ ['='])) + Text.size value := by
  have hsplit : t.value.toList = '-' :: '-' :: (name.toList ++ ['=']) ++ value.toList := by
    simp [FlagWord.toList_of_inline h]
  rw [Text.size, hsplit, Text.byteSize_append]
  rfl

theorem size_lt_of_inline (h : FlagWord.ofText t.value = .long name (some value)) :
    Text.size value < Text.size t.value := by
  have hhead : 0 < Text.byteSize ('-' :: '-' :: (name.toList ++ ['='])) :=
    Text.byteSize_pos (by simp)
  rw [size_of_inline h]
  omega

theorem Fits.exists_text (h : t.Fits line) (hsource : Text.slice t.start t.stop line = t.value) :
    ∃ u w, line.toList = u ++ (t.value.toList ++ w) ∧ Text.byteSize u = t.start ∧
      t.start + Text.size t.value = t.stop := by
  obtain ⟨u, v, w, hline, hu, hv, hslice⟩ := Text.exists_slice h.start_le h.start h.stop
  have hvalue : t.value.toList = v := by rw [← hsource, hslice, String.toList_ofList]
  exact ⟨u, w, by rw [hvalue, hline], hu, by rw [Text.size, hvalue, ← hu, hv]⟩

theorem Fits.inline (h : t.Fits line) (hword : FlagWord.ofText t.value = .long name (some value)) :
    (Flags.inlineToken line t value).Fits line := by
  have hlt := size_lt_of_inline hword
  have hvalue := h.value_le
  unfold Flags.inlineToken
  by_cases hsource : Text.slice t.start t.stop line = t.value
  · obtain ⟨u, w, hline, hu, hstop⟩ := h.exists_text hsource
    have hsize := size_of_inline hword
    rw [if_pos hsource]
    refine ⟨Nat.sub_le _ _, h.stop_le, ?_, h.stop, by dsimp only; omega⟩
    refine Text.isValid_iff.mpr
      ⟨u ++ ('-' :: '-' :: (name.toList ++ ['='])), value.toList ++ w, ?_, ?_⟩
    · simp [hline, FlagWord.toList_of_inline hword]
    · rw [Text.byteSize_append]
      dsimp only
      omega
  · rw [if_neg hsource]
    exact ⟨h.start_le, h.stop_le, h.start, h.stop, by dsimp only; omega⟩

theorem Sprung.fits (hts : ∀ t ∈ ts, t.Fits line) (h : Sprung line ts t) : t.Fits line := by
  induction h with
  | token h => exact hts _ h
  | inline _ hword ih => exact ih.inline hword

/-- How a token came out of those of `ts`: it is one of them; or it is a value in one that is not
written as it reads, and has all of its bytes, which are more than it needs; or it is a value in one
that is written as it reads, and then so is the value. -/
inductive Origin (line : String) (ts : List Token) (t : Token) : Prop where
  | itself (h : t ∈ ts)
  | hidden {t₀ : Token} (h : t₀ ∈ ts) (hstart : t.start = t₀.start)
      (hsize : Text.size t.value < t.stop - t.start)
  | shown {t₀ : Token} {u : List Char} (h : t₀ ∈ ts)
      (hword : ∃ name value, FlagWord.ofText t₀.value = .long name (some value))
      (hsource₀ : Text.slice t₀.start t₀.stop line = t₀.value)
      (htext : t₀.value.toList = u ++ '=' :: t.value.toList)
      (hstart : t.start = t₀.start + Text.byteSize (u ++ ['=']))
      (hsource : Text.slice t.start t.stop line = t.value)

theorem Fits.slice_inline (h : t.Fits line)
    (hword : FlagWord.ofText t.value = .long name (some value))
    (hsource : Text.slice t.start t.stop line = t.value) :
    Text.slice (t.stop - Text.size value) t.stop line = value ∧
      t.stop - Text.size value =
        t.start + Text.byteSize ('-' :: '-' :: (name.toList ++ ['='])) := by
  obtain ⟨u, w, hline, hu, hstop⟩ := h.exists_text hsource
  have hsize := size_of_inline hword
  have hstart : t.stop - Text.size value =
      t.start + Text.byteSize ('-' :: '-' :: (name.toList ++ ['='])) := by omega
  refine ⟨?_, hstart⟩
  have hcut : line =
      String.ofList (u ++ ('-' :: '-' :: (name.toList ++ ['='])) ++ (value.toList ++ w)) := by
    rw [← String.ofList_toList (s := line), hline, FlagWord.toList_of_inline hword]
    simp
  have hslice := Text.slice_append (u ++ ('-' :: '-' :: (name.toList ++ ['=']))) value.toList w
  rw [← hcut, Text.byteSize_append, hu, ← hstart, String.ofList_toList] at hslice
  have hends : t.stop - Text.size value + Text.byteSize value.toList = t.stop := by
    show t.stop - Text.size value + Text.size value = t.stop
    omega
  rwa [hends] at hslice

theorem Sprung.origin (hts : ∀ t ∈ ts, t.Fits line) (h : Sprung line ts t) : t.Origin line ts := by
  induction h with
  | token h => exact .itself h
  | @inline t name value ht hword ih =>
    have hfits := ht.fits hts
    have hlt := size_lt_of_inline hword
    have hvalue := hfits.value_le
    have htext := FlagWord.toList_of_inline hword
    by_cases hsource : Text.slice t.start t.stop line = t.value
    · obtain ⟨hslice, hstart⟩ := hfits.slice_inline hword hsource
      rw [Flags.inlineToken, if_pos hsource]
      cases ih with
      | itself h =>
        exact .shown (u := '-' :: '-' :: name.toList) h ⟨name, value, hword⟩ hsource
          (by simpa using htext) hstart hslice
      | hidden h _ hsize =>
        -- such a token has more bytes than its value, so it is not written as it reads
        obtain ⟨u, w, -, -, hstop⟩ := hfits.exists_text hsource
        omega
      | @shown t₀ u h hword₀ hsource₀ htext₀ hstart₀ _ =>
        refine .shown (u := u ++ '=' :: '-' :: '-' :: name.toList) h hword₀ hsource₀ ?_ ?_ hslice
        · rw [htext₀, htext]
          simp
        · show t.stop - Text.size value = _
          rw [hstart, hstart₀]
          simp only [Text.byteSize_append, Text.byteSize]
          omega
    · rw [Flags.inlineToken, if_neg hsource]
      cases ih with
      | itself h => exact .hidden h rfl (by dsimp only; omega)
      | hidden h hstart _ => exact .hidden h hstart (by dsimp only; omega)
      | shown _ _ _ _ _ hshown => exact absurd hshown hsource

theorem Sprung.start_cases (hts : ∀ t ∈ ts, t.Fits line) (h : Sprung line ts t) :
    ∃ t₀ ∈ ts, t.start = t₀.start ∨ t₀.BehindEquals line t.start := by
  cases h.origin hts with
  | itself h => exact ⟨t, h, .inl rfl⟩
  | hidden h hstart _ => exact ⟨_, h, .inl hstart⟩
  | shown h hword hsource₀ htext hstart _ => exact ⟨_, h, .inr ⟨hword, hsource₀, _, _, htext, hstart⟩⟩

end Token

end ArgGrammar
