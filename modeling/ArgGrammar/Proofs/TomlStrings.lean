import ArgGrammar.Toml.Reader

/-!
# TOML strings read back

A text is written in the plainest form that can hold it. Whatever the form, reading it gives back
the text, and what follows it.

* `Toml.escapeOf_cases`: an escape is a letter, or four digits, that stand for the character.
* `Toml.basicText_cases`: what is written for one character of a basic string.
* `Toml.basicBody_basicText`, `Toml.multiBasicBody_basicText`, `Toml.literalBody_append`,
  `Toml.multiLiteralBody_append`: the inside of each form reads back.
* `Toml.form_writeString`: a text is written in one of these forms, and can be.
* `Toml.readValue_writeString`: a text reads back.
-/

namespace ArgGrammar.Toml

/-! ## Escapes -/

/-- The characters that are written as escapes in a basic string of one line. -/
def Escapable (c : Char) : Prop := c = '"' ∨ c = '\\' ∨ c = '\t' ∨ isControl c = true

theorem codePoint?_hex4 :
    ∀ n < 128, (hex4 n).length = 4 ∧ codePoint? (hex4 n) = some (Char.ofNat n) := by
  decide +kernel

theorem toNat_lt_of_isControl {c : Char} (h : isControl c = true) : c.toNat < 128 := by
  simp only [isControl, Bool.or_eq_true, Bool.and_eq_true, decide_eq_true_eq] at h
  omega

theorem escapeOf_cases {c : Char} (h : Escapable c) :
    (∃ l, escapeOf c = ['\\', l] ∧ escape? l = some c) ∨
      ∃ a b d e, escapeOf c = ['\\', 'u', a, b, d, e] ∧ codePoint? [a, b, d, e] = some c := by
  have hofNat : ∀ n, c.toNat = n → Char.ofNat n = c := fun n hn => by rw [← hn, Char.ofNat_toNat]
  by_cases h8 : c.toNat = 8
  · exact .inl ⟨'b', by rw [escapeOf, if_pos h8], congrArg some (hofNat 8 h8)⟩
  by_cases htab : c = '\t'
  · subst htab
    exact .inl ⟨'t', rfl, rfl⟩
  by_cases hbreak : c = '\n'
  · subst hbreak
    exact .inl ⟨'n', rfl, rfl⟩
  by_cases h12 : c.toNat = 12
  · exact .inl ⟨'f', by simp [escapeOf, h12, htab, hbreak], congrArg some (hofNat 12 h12)⟩
  by_cases hreturn : c = '\r'
  · subst hreturn
    exact .inl ⟨'r', rfl, rfl⟩
  by_cases hquote : c = '"'
  · subst hquote
    exact .inl ⟨'"', rfl, rfl⟩
  by_cases hbackslash : c = '\\'
  · subst hbackslash
    exact .inl ⟨'\\', rfl, rfl⟩
  -- what is left are control characters without a letter
  have hcontrol : isControl c = true := by
    rcases h with h | h | h | h <;> first | contradiction | exact h
  obtain ⟨hlength, hpoint⟩ := codePoint?_hex4 c.toNat (toNat_lt_of_isControl hcontrol)
  rw [Char.ofNat_toNat] at hpoint
  have hescape : escapeOf c = '\\' :: 'u' :: hex4 c.toNat := by
    simp [escapeOf, h8, htab, hbreak, h12, hreturn, hquote, hbackslash]
  match hdigits : hex4 c.toNat, hlength with
  | [a, b, d, e], _ => exact .inr ⟨a, b, d, e, by rw [hescape, hdigits], hdigits ▸ hpoint⟩

theorem escapeOf_head {c : Char} (h : Escapable c) (x : List Char) :
    ∃ y, escapeOf c ++ x = '\\' :: y := by
  rcases escapeOf_cases h with ⟨l, hl, -⟩ | ⟨a, b, d, e, hdigits, -⟩
  · exact ⟨l :: x, by rw [hl]; rfl⟩
  · exact ⟨'u' :: a :: b :: d :: e :: x, by rw [hdigits]; rfl⟩

theorem escape?_letter {l c : Char} (h : escape? l = some c) : l ≠ 'x' ∧ l ≠ 'u' ∧ l ≠ 'U' := by
  refine ⟨?_, ?_, ?_⟩ <;> rintro rfl <;> cases h

/-! ## The inside of a basic string -/

/-- What is written for the first character: a quote as it is, if fewer than those allowed were just
written; else an escape, or the character itself. -/
theorem basicText_cases (multi : Bool) (allowed run : Nat) (c : Char) (cs : List Char) :
    (c = '"' ∧ run < allowed ∧
        basicText multi allowed run (c :: cs) = '"' :: basicText multi allowed (run + 1) cs) ∨
      (Escapable c ∧
        basicText multi allowed run (c :: cs) = escapeOf c ++ basicText multi allowed 0 cs) ∨
      (c ≠ '"' ∧ c ≠ '\\' ∧ (isControl c = false ∨ multi = true ∧ c = '\n') ∧
        basicText multi allowed run (c :: cs) = c :: basicText multi allowed 0 cs) := by
  rw [basicText]
  by_cases hquote : c = '"'
  · rw [if_pos hquote]
    by_cases hrun : run < allowed
    · rw [if_pos hrun]
      exact .inl ⟨hquote, hrun, by rw [hquote]⟩
    · rw [if_neg hrun]
      exact .inr (.inl ⟨.inl hquote, rfl⟩)
  rw [if_neg hquote]
  by_cases hbreak : (decide (c = '\n') && multi) = true
  · rw [if_pos hbreak]
    obtain ⟨rfl, hmulti⟩ : c = '\n' ∧ multi = true := by simpa using hbreak
    exact .inr (.inr ⟨hquote, by decide, .inr ⟨hmulti, rfl⟩, rfl⟩)
  rw [if_neg hbreak]
  by_cases hescape : (isControl c || decide (c = '\t') || decide (c = '\\')) = true
  · rw [if_pos hescape]
    refine .inr (.inl ⟨?_, rfl⟩)
    rcases (by simpa using hescape : (isControl c = true ∨ c = '\t') ∨ c = '\\') with (h | h) | h
    · exact .inr (.inr (.inr h))
    · exact .inr (.inr (.inl h))
    · exact .inr (.inl h)
  · rw [if_neg hescape]
    obtain ⟨⟨hcontrol, -⟩, hbackslash⟩ : (isControl c = false ∧ c ≠ '\t') ∧ c ≠ '\\' := by
      simpa using hescape
    exact .inr (.inr ⟨hquote, hbackslash, .inl hcontrol, rfl⟩)

theorem basicBody_plain {c : Char} (hquote : c ≠ '"') (hbackslash : c ≠ '\\')
    (hcontrol : isControl c = false) (cs : List Char) :
    basicBody (c :: cs) = push c (basicBody cs) := by
  rw [basicBody] <;> simp_all

theorem basicBody_escapeOf {c : Char} (h : Escapable c) (cs : List Char) :
    basicBody (escapeOf c ++ cs) = push c (basicBody cs) := by
  rcases escapeOf_cases h with ⟨l, hl, hletter⟩ | ⟨a, b, d, e, hdigits, hpoint⟩
  · obtain ⟨hx, hu, hU⟩ := escape?_letter hletter
    rw [hl]
    show basicBody ('\\' :: l :: cs) = _
    rw [basicBody] <;> simp_all
  · rw [hdigits]
    show basicBody ('\\' :: 'u' :: a :: b :: d :: e :: cs) = _
    rw [basicBody, hpoint]
    rfl

theorem basicBody_basicText (cs rest : List Char) (run : Nat) :
    basicBody (basicText false 0 run cs ++ '"' :: rest) = some (cs, rest) := by
  induction cs generalizing run with
  | nil => rw [basicText, List.nil_append, basicBody]
  | cons c cs ih =>
    rcases basicText_cases false 0 run c cs with
      ⟨-, hrun, -⟩ | ⟨hescape, htext⟩ | ⟨hquote, hbackslash, hplain, htext⟩
    · exact absurd hrun (Nat.not_lt_zero _)
    · rw [htext, List.append_assoc, basicBody_escapeOf hescape, ih]
      rfl
    · have hcontrol : isControl c = false := hplain.resolve_right (by simp)
      rw [htext, List.cons_append, basicBody_plain hquote hbackslash hcontrol, ih]
      rfl

/-! ## The inside of a basic string of several lines -/

theorem multiBasicBody_plain (n : Nat) {c : Char} (hquote : c ≠ '"') (hbackslash : c ≠ '\\')
    (hcontrol : isControl c = false ∨ c = '\n') (cs : List Char) :
    multiBasicBody (n + 1) (c :: cs) = push c (multiBasicBody n cs) := by
  have hreturn : c ≠ '\r' := by
    rintro rfl
    rcases hcontrol with h | h <;> cases h
  rw [multiBasicBody]
  · rcases hcontrol with hcontrol | rfl
    · simp [hcontrol, hbackslash]
    · rfl
  all_goals simp_all

theorem multiBasicBody_escapeOf (n : Nat) {c : Char} (h : Escapable c) (cs : List Char) :
    multiBasicBody (n + 1) (escapeOf c ++ cs) = push c (multiBasicBody n cs) := by
  rcases escapeOf_cases h with ⟨l, hl, hletter⟩ | ⟨a, b, d, e, hdigits, hpoint⟩
  · obtain ⟨hx, hu, hU⟩ := escape?_letter hletter
    rw [hl]
    show multiBasicBody (n + 1) ('\\' :: l :: cs) = _
    rw [multiBasicBody] <;> simp_all
  · rw [hdigits]
    show multiBasicBody (n + 1) ('\\' :: 'u' :: a :: b :: d :: e :: cs) = _
    rw [multiBasicBody, hpoint]
    rfl

theorem multiBasicBody_quote (n : Nat) {x : List Char} (h : ∀ y, x ≠ '"' :: '"' :: y) :
    multiBasicBody (n + 1) ('"' :: x) = push '"' (multiBasicBody n x) := by
  rw [multiBasicBody] <;> simp_all [isControl]

/-- What stands behind the inside of a string of several lines. -/
def closing (q : Char) (rest : List Char) : List Char := q :: q :: q :: rest

/-- Behind a quote that was just written there are two more at most, and then the text is over. -/
theorem basicText_quotes {cs rest y : List Char} {run : Nat} (hrun : 0 < run)
    (h : basicText true 2 run cs ++ closing '"' rest = '"' :: '"' :: y) :
    cs = [] ∨ cs = ['"'] ∧ basicText true 2 run cs = ['"'] := by
  have hnext : ∀ {c : Char} {cs z : List Char} {run : Nat},
      basicText true 2 run (c :: cs) ++ closing '"' rest = '"' :: z →
        c = '"' ∧ run < 2 ∧ basicText true 2 (run + 1) cs ++ closing '"' rest = z := by
    intro c cs z run h
    rcases basicText_cases true 2 run c cs with
      ⟨rfl, hlt, htext⟩ | ⟨hescape, htext⟩ | ⟨hquote, -, -, htext⟩
    · rw [htext] at h
      exact ⟨rfl, hlt, (List.cons.inj h).2⟩
    · obtain ⟨z', hz'⟩ := escapeOf_head hescape (basicText true 2 0 cs ++ closing '"' rest)
      rw [htext, List.append_assoc, hz'] at h
      exact absurd (List.cons.inj h).1 (by decide)
    · rw [htext] at h
      exact absurd (List.cons.inj h).1 hquote
  match cs with
  | [] => exact .inl rfl
  | c :: cs =>
    obtain ⟨rfl, hlt, h⟩ := hnext h
    match cs with
    | [] => exact .inr ⟨rfl, by rw [basicText, if_pos rfl, if_pos hlt, basicText]⟩
    | d :: cs =>
      obtain ⟨-, hlt, -⟩ := hnext h
      omega

theorem multiBasicBody_basicText {cs rest : List Char} {n run : Nat}
    (hrest : ∀ y, rest ≠ '"' :: y) (hn : cs.length < n) :
    multiBasicBody n (basicText true 2 run cs ++ closing '"' rest) = some (cs, rest) := by
  have hthree : ∀ n, multiBasicBody (n + 1) (closing '"' rest) = some ([], rest) := by
    intro n
    rw [closing, multiBasicBody] <;> simp_all
  have hfour : ∀ n, multiBasicBody (n + 1) ('"' :: closing '"' rest) = some (['"'], rest) := by
    intro n
    rw [closing, multiBasicBody]
    simp_all
  have hfive : ∀ n, multiBasicBody (n + 1) ('"' :: '"' :: closing '"' rest) =
      some (['"', '"'], rest) := by
    intro n
    rw [closing, multiBasicBody]
  induction cs generalizing n run with
  | nil =>
    obtain ⟨n, rfl⟩ := Nat.exists_eq_succ_of_ne_zero (Nat.ne_of_gt hn)
    exact hthree n
  | cons c cs ih =>
    obtain ⟨n, rfl⟩ := Nat.exists_eq_succ_of_ne_zero (Nat.ne_of_gt (Nat.zero_lt_of_lt hn))
    have hshorter : cs.length < n := by
      rw [List.length_cons] at hn
      omega
    rcases basicText_cases true 2 run c cs with
      ⟨rfl, hrun, htext⟩ | ⟨hescape, htext⟩ | ⟨hquote, hbackslash, hplain, htext⟩
    · rw [htext, List.cons_append]
      by_cases hend : ∃ y, basicText true 2 (run + 1) cs ++ closing '"' rest = '"' :: '"' :: y
      · -- the closing quotes come with one or two that belong to the text
        obtain ⟨y, hy⟩ := hend
        rcases basicText_quotes (Nat.succ_pos run) hy with rfl | ⟨rfl, hlast⟩
        · exact hfour n
        · rw [hlast]
          exact hfive n
      · rw [multiBasicBody_quote n (not_exists.mp hend), ih hshorter]
        rfl
    · rw [htext, List.append_assoc, multiBasicBody_escapeOf n hescape, ih hshorter]
      rfl
    · rw [htext, List.cons_append,
        multiBasicBody_plain n hquote hbackslash (hplain.imp_right And.right), ih hshorter]
      rfl

/-! ## The inside of a literal string -/

theorem literalBody_append {cs : List Char} (h : ∀ c ∈ cs, c ≠ '\'' ∧ isControl c = false)
    (rest : List Char) : literalBody (cs ++ '\'' :: rest) = some (cs, rest) := by
  induction cs with
  | nil => rw [List.nil_append, literalBody]
  | cons c cs ih =>
    obtain ⟨hquote, hcontrol⟩ := h c (by simp)
    rw [List.cons_append, literalBody]
    · rw [hcontrol, if_neg Bool.false_ne_true, ih fun d hd => h d (by simp [hd])]
      rfl
    · exact hquote

theorem multiLiteralBody_plain {c : Char} (hquote : c ≠ '\'')
    (hcontrol : isControl c = false ∨ c = '\n') (cs : List Char) :
    multiLiteralBody (c :: cs) = push c (multiLiteralBody cs) := by
  have hreturn : c ≠ '\r' := by
    rintro rfl
    rcases hcontrol with h | h <;> cases h
  rw [multiLiteralBody]
  · rcases hcontrol with hcontrol | rfl
    · simp [hcontrol]
    · rfl
  all_goals simp_all

theorem multiLiteralBody_quote {x : List Char} (h : ∀ y, x ≠ '\'' :: '\'' :: y) :
    multiLiteralBody ('\'' :: x) = push '\'' (multiLiteralBody x) := by
  rw [multiLiteralBody] <;> simp_all [isControl]

theorem multiLiteralBody_append {cs rest : List Char} (hrest : ∀ y, rest ≠ '\'' :: y)
    (h : ∀ c ∈ cs, isControl c = false ∨ c = '\n') {run : Nat} (hrun : longestRun '\'' run cs ≤ 2) :
    multiLiteralBody (cs ++ closing '\'' rest) = some (cs, rest) := by
  induction cs generalizing run with
  | nil =>
    rw [List.nil_append, closing, multiLiteralBody] <;> simp_all
  | cons c cs ih =>
    have htail : ∀ d ∈ cs, isControl d = false ∨ d = '\n' := fun d hd => h d (by simp [hd])
    rw [longestRun] at hrun
    rw [List.cons_append]
    by_cases hquote : c = '\''
    · subst hquote
      rw [if_pos rfl] at hrun
      have hread := ih htail (Nat.le_trans (Nat.le_max_right _ _) hrun)
      by_cases hend : ∃ y, cs ++ closing '\'' rest = '\'' :: '\'' :: y
      · obtain ⟨y, hy⟩ := hend
        match cs with
        | [] =>
          rw [List.nil_append, closing, multiLiteralBody]
          simp_all
        | [d] =>
          obtain ⟨rfl, -⟩ := List.cons.inj hy
          rfl
        | d :: e :: cs =>
          -- three quotes in a row are too many
          obtain ⟨hd, hy⟩ := List.cons.inj hy
          obtain ⟨he, -⟩ := List.cons.inj hy
          simp only [hd, he, longestRun, if_true] at hrun
          omega
      · rw [multiLiteralBody_quote (not_exists.mp hend), hread]
        rfl
    · rw [if_neg hquote] at hrun
      rw [multiLiteralBody_plain hquote (h c (by simp)), ih htail hrun]
      rfl

/-! ## Whole strings -/

theorem not_mem_of_longestRun {q : Char} {cs : List Char} {run : Nat}
    (h : longestRun q run cs = 0) : q ∉ cs := by
  induction cs generalizing run with
  | nil => simp
  | cons c cs ih =>
    rw [longestRun] at h
    by_cases hc : c = q
    · rw [if_pos hc] at h
      omega
    · rw [if_neg hc] at h
      exact List.not_mem_cons_of_ne_of_not_mem (Ne.symm hc) (ih h)

theorem dropFirstBreak_eq_self {x : List Char} (h : ∀ c y, x = c :: y → c ≠ '\n' ∧ c ≠ '\r') :
    dropFirstBreak x = x := by
  match x with
  | [] => rfl
  | c :: y =>
    obtain ⟨hbreak, hreturn⟩ := h c y rfl
    rw [dropFirstBreak, lineBreak?] <;> simp_all

theorem dropFirstBreak_leadingBreak {cs x : List Char}
    (h : '\n' ∉ cs → ∀ c y, x = c :: y → c ≠ '\n' ∧ c ≠ '\r') :
    dropFirstBreak (leadingBreak cs ++ x) = x := by
  by_cases hbreak : '\n' ∈ cs
  · rw [leadingBreak, if_pos hbreak]
    rfl
  · rw [leadingBreak, if_neg hbreak]
    exact dropFirstBreak_eq_self (h hbreak)

theorem ne_return_of_plain {c : Char} (h : isControl c = false) : c ≠ '\n' ∧ c ≠ '\r' := by
  refine ⟨?_, ?_⟩ <;> rintro rfl <;> cases h

theorem basicText_head {cs rest : List Char} (hcs : '\n' ∉ cs) (c : Char) (y : List Char)
    (h : basicText true 2 0 cs ++ closing '"' rest = c :: y) : c ≠ '\n' ∧ c ≠ '\r' := by
  match cs with
  | [] =>
    obtain ⟨rfl, -⟩ := List.cons.inj h
    decide
  | d :: cs =>
    rcases basicText_cases true 2 0 d cs with
      ⟨-, -, htext⟩ | ⟨hescape, htext⟩ | ⟨-, -, hplain, htext⟩
    · rw [htext] at h
      obtain ⟨rfl, -⟩ := List.cons.inj h
      decide
    · obtain ⟨z, hz⟩ := escapeOf_head hescape (basicText true 2 0 cs ++ closing '"' rest)
      rw [htext, List.append_assoc, hz] at h
      obtain ⟨rfl, -⟩ := List.cons.inj h
      decide
    · rw [htext] at h
      obtain ⟨rfl, -⟩ := List.cons.inj h
      refine ne_return_of_plain (hplain.resolve_right ?_)
      rintro ⟨-, rfl⟩
      simp at hcs

variable {cs rest : List Char} (n room : Nat)

theorem readValue_basic (hrest : ∀ y, rest ≠ '"' :: y) :
    readValue (n + 1) room ('"' :: (basicText false 0 0 cs ++ '"' :: rest)) =
      some (.str (String.ofList cs), rest) := by
  have hsingle : ∀ y, basicText false 0 0 cs ++ '"' :: rest ≠ '"' :: '"' :: y := by
    intro y h
    match cs with
    | [] => exact hrest y (List.cons.inj h).2
    | c :: cs =>
      rcases basicText_cases false 0 0 c cs with
        ⟨-, hrun, -⟩ | ⟨hescape, htext⟩ | ⟨hquote, -, -, htext⟩
      · omega
      · obtain ⟨z, hz⟩ := escapeOf_head hescape (basicText false 0 0 cs ++ '"' :: rest)
        rw [htext, List.append_assoc, hz] at h
        exact absurd (List.cons.inj h).1 (by decide)
      · rw [htext] at h
        exact hquote (List.cons.inj h).1
  rw [readValue]
  · rw [basicBody_basicText]
    rfl
  · simpa using hsingle

theorem readValue_multiBasic (hrest : ∀ y, rest ≠ '"' :: y) (hn : cs.length ≤ n) :
    readValue (n + 1) room
        ('"' :: '"' :: '"' :: (leadingBreak cs ++ (basicText true 2 0 cs ++ closing '"' rest))) =
      some (.str (String.ofList cs), rest) := by
  rw [readValue, dropFirstBreak_leadingBreak basicText_head,
    multiBasicBody_basicText hrest (Nat.lt_succ_of_le hn)]
  rfl

theorem readValue_literal (hrest : ∀ y, rest ≠ '\'' :: y)
    (h : ∀ c ∈ cs, c ≠ '\'' ∧ isControl c = false) :
    readValue (n + 1) room ('\'' :: (cs ++ '\'' :: rest)) =
      some (.str (String.ofList cs), rest) := by
  have hsingle : ∀ y, cs ++ '\'' :: rest ≠ '\'' :: '\'' :: y := by
    intro y heq
    match cs with
    | [] => exact hrest y (List.cons.inj heq).2
    | c :: cs => exact (h c (by simp)).1 (List.cons.inj heq).1
  rw [readValue]
  · rw [literalBody_append h]
    rfl
  · simpa using hsingle

theorem readValue_multiLiteral (hrest : ∀ y, rest ≠ '\'' :: y)
    (h : ∀ c ∈ cs, isControl c = false ∨ c = '\n') (hrun : longestRun '\'' 0 cs ≤ 2) :
    readValue (n + 1) room
        ('\'' :: '\'' :: '\'' :: (leadingBreak cs ++ (cs ++ closing '\'' rest))) =
      some (.str (String.ofList cs), rest) := by
  have hhead : '\n' ∉ cs → ∀ c y, cs ++ closing '\'' rest = c :: y → c ≠ '\n' ∧ c ≠ '\r' := by
    intro hcs c y heq
    match cs with
    | [] =>
      obtain ⟨rfl, -⟩ := List.cons.inj heq
      decide
    | d :: cs =>
      obtain ⟨rfl, -⟩ := List.cons.inj heq
      refine ne_return_of_plain ((h d (by simp)).resolve_right ?_)
      rintro rfl
      simp at hcs
  rw [readValue, dropFirstBreak_leadingBreak hhead, multiLiteralBody_append hrest h hrun]
  rfl

/-- The forms in which a text can be written, with what they ask of it. -/
inductive Form (cs : List Char) : List Char → Prop where
  | basic : Form cs ('"' :: (basicText false 0 0 cs ++ ['"']))
  | literal (h : ∀ c ∈ cs, c ≠ '\'' ∧ isControl c = false) : Form cs ('\'' :: (cs ++ ['\'']))
  | multiBasic : Form cs (triple '"' ++ (leadingBreak cs ++ (basicText true 2 0 cs ++ triple '"')))
  | multiLiteral (h : ∀ c ∈ cs, isControl c = false ∨ c = '\n') (hrun : longestRun '\'' 0 cs ≤ 2) :
    Form cs (triple '\'' ++ (leadingBreak cs ++ (cs ++ triple '\'')))

theorem form_writeString (cs : List Char) : Form cs (writeString cs) := by
  have hplain : (!cs.any needsEscape) = true → ∀ c ∈ cs, isControl c = false ∨ c = '\n' := by
    intro h c hc
    have hcoded : needsEscape c = false := by
      simpa using List.any_eq_false.mp (by simpa using h) c hc
    by_cases hbreak : c = '\n'
    · exact .inr hbreak
    · exact .inl (by simpa [needsEscape, hbreak] using hcoded)
  simp only [writeString, List.append_assoc, List.cons_append]
  split
  · exact .basic
  split
  · next hform =>
    simp only [Bool.and_eq_true, decide_eq_true_eq] at hform
    obtain ⟨⟨hcoded, hrun⟩, hbreaks⟩ := hform
    have hbreak : ∀ c ∈ cs, c ≠ '\n' := by simpa using hbreaks
    refine .literal fun c hc => ⟨?_, (hplain hcoded c hc).resolve_right (hbreak c hc)⟩
    rintro rfl
    exact not_mem_of_longestRun hrun hc
  split
  · exact .multiBasic
  split
  · next hform =>
    simp only [Bool.and_eq_true, decide_eq_true_eq] at hform
    exact .multiLiteral (hplain hform.1) hform.2
  split
  · exact .multiBasic
  · exact .basic

/-- **A text reads back,** with what follows it, as long as no quote does. -/
theorem readValue_writeString (hquote : ∀ y, rest ≠ '"' :: y) (hsingle : ∀ y, rest ≠ '\'' :: y)
    (hn : cs.length ≤ n) :
    readValue (n + 1) room (writeString cs ++ rest) = some (.str (String.ofList cs), rest) := by
  have hform := form_writeString cs
  generalize writeString cs = text at hform ⊢
  cases hform with
  | basic => simpa using readValue_basic n room hquote
  | literal h => simpa using readValue_literal n room hsingle h
  | multiBasic => simpa [triple, closing] using readValue_multiBasic n room hquote hn
  | multiLiteral h hrun =>
    simpa [triple, closing] using readValue_multiLiteral n room hsingle h hrun

end ArgGrammar.Toml
