import ArgGrammar.Proofs.Spans

/-!
# Lines without quotes and backslashes

Where a line has no quotes and no backslashes there is nothing to resolve: an argument is a word, and
a word stands for itself.

* `Spelling.ReadBy.lex_respelled`: a splitter finds the words of another spelling, if each of them is
  written as a closed word of its own.
* `Words.slice_token`: a word is the text that its token has in the line.
* `Tokenizer.split_plain`: the policies that split at white space find the same words.
* `tokenize_plain`: they give the same tokens, whether a line is completed or not.
-/

namespace ArgGrammar

theorem Text.slice_self (n : Nat) (s : String) : slice n n s = "" := by
  rw [slice, Nat.sub_self]
  exact congrArg String.ofList (takeBytes_byteSize_append [] _)

namespace Spelling

variable {α β : Type} {S : Spelling α} {T : Spelling β}
  {lex : Nat → List Char → List Token × Option Nat}

theorem ReadBy.lex_respelled (hlex : S.ReadBy lex) (hS : S.Readable) {d : Spaced β}
    (hd : d.Valid T) {p : β → Prop} (hp : ∀ w ∈ d.words, p w.1)
    (h : ∀ b, p b → ∃ a, S.closed a ∧ S.text a = T.text b ∧ S.value a = T.value b) :
    lex 0 (d.text T) = (d.tokens T, none) := by
  have hnonempty : Nonempty α := by
    obtain ⟨a, -⟩ := hS.reads 'x' [] (by decide)
    exact ⟨a⟩
  choose! word hword using h
  have hclosed : ∀ w ∈ d.words, S.closed (word w.1) := fun w hw => (hword w.1 (hp w hw)).1
  have hrespells : ∀ w ∈ d.words, S.Respells T word w.1 := fun w hw => (hword w.1 (hp w hw)).2
  let d' : Spaced α := ⟨d.lead, d.words.map fun w => (word w.1, w.2)⟩
  have hvalid : d'.Valid S := ⟨hd.lead, hd.words.map hclosed⟩
  have htext : d'.text S = d.text T := congrArg (d.lead ++ ·) (join_map hrespells)
  have htokens : d'.tokens S = d.tokens T := tokensFrom_map _ hrespells
  have hopened : S.openedFrom (Text.byteSize d'.lead) d'.words = none := by
    refine hS.openedFrom_eq_none _ fun w hw => ?_
    obtain ⟨u, hu, rfl⟩ := List.mem_map.mp hw
    exact hclosed u hu
  have hread := hlex.lex_text hvalid
  rwa [htext, htokens, hopened] at hread

end Spelling

theorem Tokenizer.quote_eq_self {v : String} (hne : v ≠ "")
    (h : ∀ c ∈ v.toList, Tokenizer.needsQuotes c = false) : lenientQuoted.quote v = v := by
  have hany : v.toList.any Tokenizer.needsQuotes = false := by simpa using h
  rw [quote, hany]
  simp [hne]

namespace Words

theorem exists_argument {w : Word} (h : ∀ c ∈ w.chars, c ≠ '\'' ∧ c ≠ '"' ∧ c ≠ '\\') :
    ∃ a, Quoted.spelling.closed a ∧ Quoted.spelling.text a = spelling.text w ∧
      Quoted.spelling.value a = spelling.value w := by
  have hne : String.ofList w.chars ≠ "" := by simpa using w.nonempty
  have hplain : ∀ c ∈ (String.ofList w.chars).toList, Tokenizer.needsQuotes c = false := by
    intro c hc
    rw [String.toList_ofList] at hc
    obtain ⟨hsingle, hdouble, hbackslash⟩ := h c hc
    simp [Tokenizer.needsQuotes, w.inked c hc, hsingle, hdouble, hbackslash]
  obtain ⟨a, hclosed, htext, hvalue⟩ := Quoted.exists_argument (String.ofList w.chars)
  rw [Tokenizer.quote_eq_self hne hplain, String.toList_ofList] at htext
  exact ⟨a, hclosed, htext, hvalue⟩

theorem slice_token {d : Spaced Word} {t : Token} (ht : t ∈ d.tokens spelling) :
    t.value = Text.slice t.start t.stop (String.ofList (d.text spelling)) := by
  obtain ⟨us, w, gap, vs, hwords, rfl⟩ := Spelling.exists_of_mem_tokensFrom ht
  rw [Spaced.text_eq hwords, ← Text.byteSize_append]
  exact (Text.slice_append _ _ _).symm

theorem exists_reading (input : String) :
    ∃ d : Spaced Word, d.Valid spelling ∧ d.text spelling = input.toList ∧
      tokens input = d.tokens spelling := by
  obtain ⟨d, hd⟩ := readable.existsUnique input.toList
  obtain ⟨hvalid, htext⟩ := (hd d).mpr rfl
  have hlex := readBy.lex_text hvalid
  rw [htext] at hlex
  exact ⟨d, hvalid, htext, congrArg Prod.fst hlex⟩

theorem mem_text {d : Spaced Word} {w : Word × List Char} (hw : w ∈ d.words) {c : Char}
    (hc : c ∈ w.1.chars) : c ∈ d.text spelling :=
  List.mem_append_right _ (List.mem_flatMap.mpr ⟨w, hw, List.mem_append_left _ hc⟩)

end Words

namespace Tokenizer

variable {input : String}

theorem split_plain (h : ∀ c ∈ input.toList, c ≠ '\'' ∧ c ≠ '"' ∧ c ≠ '\\') {policy : Tokenizer}
    (hpolicy : policy ≠ raw) (lenient : Bool) :
    policy.split lenient input = .ok (Words.tokens input) := by
  obtain ⟨d, hvalid, htext, htokens⟩ := Words.exists_reading input
  have hplain : ∀ w ∈ d.words, ∀ c ∈ w.1.chars, c ≠ '\'' ∧ c ≠ '"' ∧ c ≠ '\\' :=
    fun w hw c hc => h c (htext ▸ Words.mem_text hw hc)
  have hquoted : Quoted.tokens input = (Words.tokens input, none) := by
    rw [Quoted.tokens, htokens, ← htext]
    exact Quoted.readBy.lex_respelled Quoted.readable hvalid hplain fun _ => Words.exists_argument
  cases policy with
  | lenientQuoted => simp [split, hquoted]
  | strictQuoted => simp [split, hquoted]
  | raw => exact absurd rfl hpolicy
  | spaceSplit => rfl

theorem tokenize_eq_of_split_eq {policy policy' : Tokenizer} (hpolicy : policy ≠ raw)
    (hpolicy' : policy' ≠ raw) {forCompletion : Bool}
    (h : policy.split forCompletion input = policy'.split forCompletion input) :
    policy.tokenize input forCompletion = policy'.tokenize input forCompletion := by
  have htrailing : ∀ n ts, policy.wantsTrailing n ts = policy'.wantsTrailing n ts := by
    intro n ts
    rw [wantsTrailing, wantsTrailing, bne_iff_ne.mpr hpolicy, bne_iff_ne.mpr hpolicy']
  rw [tokenize, tokenize, h]
  simp only [htrailing]

end Tokenizer

/-- **On plain text the policies coincide.** A line without quotes and backslashes is split in one and
the same way by all policies that split at white space, be it for completion or not. None of them
fails, and the value of each token is the text of its bytes. -/
theorem tokenize_plain {input : String}
    (h : ∀ c ∈ input.toList, c ≠ '\'' ∧ c ≠ '"' ∧ c ≠ '\\') (forCompletion : Bool) :
    ∃ ts, Tokenizer.lenientQuoted.tokenize input forCompletion = .ok ts ∧
      Tokenizer.strictQuoted.tokenize input forCompletion = .ok ts ∧
      Tokenizer.spaceSplit.tokenize input forCompletion = .ok ts ∧
      ∀ t ∈ ts, t.Fits input ∧ t.value = Text.slice t.start t.stop input := by
  have hsplit : ∀ policy : Tokenizer, policy ≠ .raw →
      policy.split forCompletion input = .ok (Words.tokens input) :=
    fun policy hpolicy => Tokenizer.split_plain h hpolicy forCompletion
  have hsame : ∀ policy : Tokenizer, policy ≠ .raw → policy.tokenize input forCompletion =
      Tokenizer.spaceSplit.tokenize input forCompletion := fun policy hpolicy =>
    Tokenizer.tokenize_eq_of_split_eq hpolicy (by decide)
      ((hsplit policy hpolicy).trans (hsplit .spaceSplit (by decide)).symm)
  have hwords : ∀ t ∈ Words.tokens input, t.value = Text.slice t.start t.stop input := by
    obtain ⟨d, -, htext, htokens⟩ := Words.exists_reading input
    intro t ht
    have hslice := Words.slice_token (htokens ▸ ht)
    rwa [htext, String.ofList_toList] at hslice
  obtain ⟨ts, hts⟩ : ∃ ts, Tokenizer.spaceSplit.tokenize input forCompletion = .ok ts := by
    rw [Tokenizer.tokenize, hsplit .spaceSplit (by decide)]
    dsimp only
    split <;> exact ⟨_, rfl⟩
  refine ⟨ts, (hsame _ (by decide)).trans hts, (hsame _ (by decide)).trans hts, hts,
    fun t ht => ⟨Tokenizer.fits_of_tokenize hts t ht, ?_⟩⟩
  rw [Tokenizer.tokenize, hsplit .spaceSplit (by decide)] at hts
  dsimp only at hts
  split at hts
  · cases hts
    rcases List.mem_append.mp ht with ht | ht
    · exact hwords t ht
    · -- the token that completion adds has no bytes
      obtain rfl := List.mem_singleton.mp ht
      exact (Text.slice_self _ _).symm
  · cases hts
    exact hwords t ht

/-- White space of two kinds and a character of two bytes, with a token to complete at the end. -/
theorem tokenize_plain_accented :
    (∀ c ∈ "go \t-né ".toList, c ≠ '\'' ∧ c ≠ '"' ∧ c ≠ '\\') ∧
      Tokenizer.strictQuoted.tokenize "go \t-né " true =
        .ok [⟨"go", 0, 2⟩, ⟨"-né", 4, 8⟩, ⟨"", 9, 9⟩] := by
  have hall : "go \t-né ".toList.all (fun c => c ≠ '\'' ∧ c ≠ '"' ∧ c ≠ '\\') = true := by
    decide +kernel
  have hplain : ∀ c ∈ "go \t-né ".toList, c ≠ '\'' ∧ c ≠ '"' ∧ c ≠ '\\' := fun c hc =>
    of_decide_eq_true (List.all_eq_true.mp hall c hc)
  obtain ⟨ts, -, hstrict, hspace, -⟩ := tokenize_plain hplain true
  have hwords : Tokenizer.spaceSplit.tokenize "go \t-né " true =
      .ok [⟨"go", 0, 2⟩, ⟨"-né", 4, 8⟩, ⟨"", 9, 9⟩] := by decide +kernel
  exact ⟨hplain, hstrict.trans (hspace.symm.trans hwords)⟩

end ArgGrammar
