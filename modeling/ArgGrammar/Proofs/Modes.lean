import ArgGrammar.Proofs.Replacement
import ArgGrammar.Proofs.Spans

/-!
# Strict, lenient and completing

A line that ends inside quotes is an error to the strict policy, unless it is split for completion;
in everything else the quoting policies agree. For completion there is always a token at the end of
the line.

* `Quoted.CutOff d before q`: the line `d` ends inside a run that the quote `q` behind `before` opens.
* `Quoted.openedFrom_of_cutOff`, `Quoted.exists_cutOff`: that is when the lexer reports an open quote,
  and where.
* `Tokenizer.tolerant`: the policy that splits as another one does for completion.
* `tokenize_modes_agree`: how the policies and the two modes of each of them are related.
-/

namespace ArgGrammar

theorem Spelling.Readable.openedFrom_concat {α : Type} {S : Spelling α} (hS : S.Readable) (pos : Nat)
    {ws : List (α × List Char)} (h : ∀ w ∈ ws, S.closed w.1) (a : α) (gap : List Char) :
    S.openedFrom pos (ws ++ [(a, gap)]) =
      (S.opened a).map (pos + Text.byteSize (S.join ws) + ·) := by
  induction ws generalizing pos with
  | nil => simp [openedFrom, Text.byteSize]
  | cons w ws ih =>
    obtain ⟨b, gap'⟩ := w
    rw [List.cons_append, openedFrom, hS.unopened b (h (b, gap') (by simp)),
      ih _ fun w hw => h w (by simp [hw]), join_cons, Text.byteSize_append, Text.byteSize_append]
    simp [Nat.add_assoc]

theorem Spelling.Separated.closed_init {α : Type} {S : Spelling α} {ws : List (α × List Char)}
    {w : α × List Char} (h : S.Separated (ws ++ [w])) : ∀ u ∈ ws, S.closed u.1 := by
  obtain ⟨hws, hgaps⟩ := h.init
  exact fun u hu => hws.closed u hu (hgaps u hu)

namespace Quoted

theorem openedOf_concat {ss : List Segment} (h : ∀ s ∈ ss, s.Closed) (s : Segment) :
    openedOf (ss ++ [s]) = if s.isOpen then some (Text.byteSize (textOf ss)) else none := by
  induction ss with
  | nil => rfl
  | cons r ss ih =>
    have htext : textOf (r :: ss) = r.text ++ textOf ss := List.flatMap_cons
    rw [List.cons_append, openedOf, not_isOpen_of_closed (h r (by simp)),
      ih fun t ht => h t (by simp [ht]), htext, Text.byteSize_append]
    cases s.isOpen <;> rfl

theorem closed_init {ss : List Segment} {s : Segment}
    (h : (ss ++ [s]).IsChain fun r _ => r.Closed) : ∀ r ∈ ss, r.Closed := by
  induction ss with
  | nil => simp
  | cons r ss ih =>
    intro t ht
    obtain ⟨u, us, hu⟩ := List.exists_cons_of_ne_nil (l := ss ++ [s]) (by simp)
    rw [List.cons_append, hu] at h
    obtain ⟨hr, hrest⟩ := List.isChain_cons_cons.mp h
    rcases List.mem_cons.mp ht with rfl | ht
    · exact hr
    · exact ih (hu ▸ hrest) t ht

theorem Argument.exists_last (a : Argument) :
    ∃ ss s, a.segments = ss ++ [s] ∧ ∀ r ∈ ss, r.Closed := by
  rcases List.eq_nil_or_concat a.segments with hnil | ⟨ss, s, hss⟩
  · exact absurd hnil a.nonempty
  · rw [List.concat_eq_append] at hss
    exact ⟨ss, s, hss, closed_init (hss ▸ a.closed)⟩

/-- The last argument of the line ends with a quoted run that lacks its quote. The run starts with
the quote `q`, and `before` is all that stands in front of it. -/
def CutOff (d : Spaced Argument) (before : List Char) (q : Char) : Prop :=
  ∃ us a ss body ending, d.words = us ++ [(a, [])] ∧ a.segments = ss ++ [.quoted q body ending] ∧
    ending ≠ .quote ∧ before = d.lead ++ spelling.join us ++ textOf ss

variable {d : Spaced Argument} {before : List Char} {q : Char}

theorem CutOff.isQuote (h : CutOff d before q) : isQuote q = true := by
  obtain ⟨us, a, ss, body, ending, -, hsegments, -, -⟩ := h
  have hvalid := a.valid (.quoted q body ending) (by simp [hsegments])
  exact hvalid.1

theorem CutOff.text_eq (h : CutOff d before q) : ∃ after, d.text spelling = before ++ q :: after := by
  obtain ⟨us, a, ss, body, ending, hwords, hsegments, -, rfl⟩ := h
  refine ⟨body.flatMap Piece.text ++ ending.text q, ?_⟩
  have hlast : spelling.text a = textOf ss ++ q :: (body.flatMap Piece.text ++ ending.text q) := by
    show textOf a.segments = _
    rw [hsegments, textOf, textOf, List.flatMap_append]
    simp [Segment.text]
  simp [Spaced.text, hwords, hlast]

theorem openedFrom_of_cutOff (hd : d.Valid spelling) (h : CutOff d before q) :
    spelling.openedFrom (Text.byteSize d.lead) d.words = some (Text.byteSize before) := by
  obtain ⟨us, a, ss, body, ending, hwords, hsegments, hending, rfl⟩ := h
  have hwordsValid := hd.words
  rw [hwords] at hwordsValid
  have hclosed : ∀ s ∈ ss, s.Closed := closed_init (hsegments ▸ a.closed)
  have hopen : (Segment.quoted q body ending).isOpen = true := by simpa [Segment.isOpen] using hending
  have hopened : spelling.opened a = some (Text.byteSize (textOf ss)) := by
    show openedOf a.segments = _
    rw [hsegments, openedOf_concat hclosed, if_pos hopen]
  rw [hwords, readable.openedFrom_concat _ hwordsValid.closed_init, hopened, Text.byteSize_append,
    Text.byteSize_append]
  rfl

theorem exists_cutOff (hd : d.Valid spelling) {n : Nat}
    (h : spelling.openedFrom (Text.byteSize d.lead) d.words = some n) :
    ∃ before q, CutOff d before q := by
  rcases List.eq_nil_or_concat d.words with hnil | ⟨us, ⟨a, gap⟩, hwords⟩
  · rw [hnil] at h
    cases h
  rw [List.concat_eq_append] at hwords
  have hwordsValid := hd.words
  rw [hwords] at hwordsValid h
  rw [readable.openedFrom_concat _ hwordsValid.closed_init] at h
  -- a word with an open quote has nothing behind it
  have hgap : gap = [] := by
    by_contra hgap
    have hclosed : spelling.closed a := hwordsValid.closed (a, gap) (by simp) hgap
    rw [readable.unopened a hclosed] at h
    cases h
  obtain ⟨ss, s, hsegments, hclosed⟩ := a.exists_last
  have hopened : spelling.opened a = if s.isOpen then some (Text.byteSize (textOf ss)) else none := by
    show openedOf a.segments = _
    rw [hsegments, openedOf_concat hclosed]
  cases s with
  | bare p =>
    rw [hopened] at h
    cases h
  | backslash =>
    rw [hopened] at h
    cases h
  | quoted q body ending =>
    refine ⟨_, q, us, a, ss, body, ending, by rw [hwords, hgap], hsegments, ?_, rfl⟩
    rintro rfl
    rw [hopened] at h
    cases h

theorem exists_reading (input : String) :
    ∃ d : Spaced Argument,
      (∀ d' : Spaced Argument, d'.Valid spelling ∧ d'.text spelling = input.toList ↔ d' = d) ∧
      tokens input =
        (d.tokens spelling, spelling.openedFrom (Text.byteSize d.lead) d.words) := by
  obtain ⟨d, hd⟩ := readable.existsUnique input.toList
  obtain ⟨hvalid, htext⟩ := (hd d).mpr rfl
  have hlex := readBy.lex_text hvalid
  rw [htext] at hlex
  exact ⟨d, hd, hlex⟩

theorem CutOff.located (h : CutOff d before q) {input : String}
    (htext : d.text spelling = input.toList) :
    (∃ after, input.toList = before ++ q :: after) ∧
      (ParseError.located .openQuote input (Text.byteSize before)).position =
        Text.byteSize before := by
  obtain ⟨after, hafter⟩ := h.text_eq
  rw [htext] at hafter
  refine ⟨⟨after, hafter⟩, Nat.min_eq_left ?_⟩
  rw [Text.size, hafter, Text.byteSize_append]
  omega

end Quoted

namespace Tokenizer

variable {policy : Tokenizer} {input : String} {ts : List Token}

/-- Splitting fails at a quote only. -/
theorem exists_quote_of_error {forCompletion : Bool} {e : ParseError}
    (h : policy.tokenize input forCompletion = .error e) :
    e.kind = .tokenize ∧ e.raw = input ∧
      ∃ before q after, input.toList = before ++ q :: after ∧ Quoted.isQuote q = true ∧
        e.position = Text.byteSize before := by
  have hsplit : policy.split forCompletion input = .error e := by
    unfold tokenize at h
    split at h
    · cases h
      assumption
    · dsimp only at h
      split at h <;> cases h
  cases policy with
  | lenientQuoted => cases hsplit
  | raw => cases hsplit
  | spaceSplit => cases hsplit
  | strictQuoted =>
    simp only [split] at hsplit
    split at hsplit
    · next n hopen =>
      split at hsplit
      · cases hsplit
      · cases hsplit
        obtain ⟨d, hd, htokens⟩ := Quoted.exists_reading input
        obtain ⟨hvalid, htext⟩ := (hd d).mpr rfl
        rw [htokens] at hopen
        obtain ⟨before, q, hcut⟩ := Quoted.exists_cutOff hvalid hopen
        obtain rfl : Text.byteSize before = n := by
          rw [Quoted.openedFrom_of_cutOff hvalid hcut] at hopen
          exact Option.some.inj hopen
        obtain ⟨⟨after, hafter⟩, hposition⟩ := hcut.located htext
        exact ⟨rfl, rfl, before, q, after, hafter, hcut.isQuote, hposition⟩
    · cases hsplit

/-- The policy that splits every line as `policy` does for completion. -/
def tolerant : Tokenizer → Tokenizer
  | strictQuoted => lenientQuoted
  | policy => policy

theorem split_true (policy : Tokenizer) (input : String) :
    ∃ ts, policy.split true input = .ok ts ∧ policy.tolerant.split false input = .ok ts := by
  cases policy with
  | strictQuoted => exact ⟨_, (reads_of_quotes (.inr rfl)).completing input, rfl⟩
  | lenientQuoted => exact ⟨_, rfl, rfl⟩
  | raw => exact ⟨_, rfl, rfl⟩
  | spaceSplit => exact ⟨_, rfl, rfl⟩

theorem wantsTrailing_iff {n : Nat} :
    policy.wantsTrailing n ts = true ↔
      ts = [] ∨ policy ≠ .raw ∧ ∃ t, ts.getLast? = some t ∧ t.stop < n := by
  unfold wantsTrailing
  split
  · next hnone => simp [List.getLast?_eq_none_iff.mp hnone]
  · next t hlast =>
    have hne : ts ≠ [] := by
      rintro rfl
      cases hlast
    simp [hne, hlast]

theorem exists_last_of_split (hsplit : policy.split true input = .ok ts)
    (htrailing : policy.wantsTrailing (Text.size input) ts = false) :
    ∃ t, ts.getLast? = some t ∧ t.stop = Text.size input := by
  rw [← Bool.not_eq_true, wantsTrailing_iff, not_or] at htrailing
  obtain ⟨hne, hlast⟩ := htrailing
  refine ⟨ts.getLast hne, List.getLast?_eq_some_getLast hne, ?_⟩
  by_cases hraw : policy = .raw
  · subst hraw
    cases hsplit
    split at hne
    · exact absurd rfl hne
    · next h => simp [h]
  · have hle := (fits_of_split hsplit (List.getLast_mem hne)).stop_le
    by_contra hstop
    exact hlast ⟨hraw, _, List.getLast?_eq_some_getLast hne, by omega⟩

theorem tokenize_true_eq (policy : Tokenizer) (input : String) :
    ∃ ts, policy.tolerant.tokenize input false = .ok ts ∧
      policy.tokenize input true =
        .ok (if policy.wantsTrailing (Text.size input) ts
          then ts ++ [⟨"", Text.size input, Text.size input⟩] else ts) ∧
      policy.split true input = .ok ts := by
  obtain ⟨ts, hsplit, htolerant⟩ := policy.split_true input
  exact ⟨ts, tokenize_of_split htolerant, tokenize_true_of_split hsplit, hsplit⟩

end Tokenizer

open Quoted in
/-- **The modes of splitting agree.** For completion the strict policy splits a line just as the
lenient one does. Otherwise it differs on those lines only whose one reading ends inside a quoted run,
and turns them down at the quote with which that run starts. For completion no policy fails. It finds
the tokens that it finds otherwise (if strict, those of the lenient policy), with an empty one behind
them if there are none or, unless the line is one token, the last of them ends before the line; so the
last token ends where the line does. -/
theorem tokenize_modes_agree (input : String) :
    Tokenizer.strictQuoted.tokenize input true = Tokenizer.lenientQuoted.tokenize input true ∧
    (∃ d : Spaced Argument,
      (∀ d' : Spaced Argument, d'.Valid spelling ∧ d'.text spelling = input.toList ↔ d' = d) ∧
      Tokenizer.lenientQuoted.tokenize input false = .ok (d.tokens spelling) ∧
      ((∀ before q, ¬ CutOff d before q) →
        Tokenizer.strictQuoted.tokenize input false =
          Tokenizer.lenientQuoted.tokenize input false) ∧
      ∀ before q, CutOff d before q →
        Quoted.isQuote q = true ∧ (∃ after, input.toList = before ++ q :: after) ∧
        ∃ e : ParseError, Tokenizer.strictQuoted.tokenize input false = .error e ∧
          e.kind = .tokenize ∧ e.raw = input ∧ e.position = Text.byteSize before) ∧
    ∀ policy : Tokenizer, ∃ ts us last,
      policy.tolerant.tokenize input false = .ok ts ∧ policy.tokenize input true = .ok us ∧
      us.getLast? = some last ∧ last.stop = Text.size input ∧
      ((us = ts ++ [⟨"", Text.size input, Text.size input⟩] ∧
          (ts = [] ∨ policy ≠ .raw ∧ ∃ t, ts.getLast? = some t ∧ t.stop < Text.size input)) ∨
        (us = ts ∧
          ¬ (ts = [] ∨ policy ≠ .raw ∧ ∃ t, ts.getLast? = some t ∧ t.stop < Text.size input))) := by
  refine ⟨?_, ?_, fun policy => ?_⟩
  · have hsplit : Tokenizer.strictQuoted.split true input = .ok (Quoted.tokens input).1 :=
      (Tokenizer.reads_of_quotes (.inr rfl)).completing input
    have hlenient : Tokenizer.lenientQuoted.split true input = .ok (Quoted.tokens input).1 := rfl
    rw [Tokenizer.tokenize_true_of_split hsplit, Tokenizer.tokenize_true_of_split hlenient]
    rfl
  · obtain ⟨d, hd, htokens⟩ := exists_reading input
    obtain ⟨hvalid, htext⟩ := (hd d).mpr rfl
    refine ⟨d, hd, ?_, fun hclosed => ?_, fun before q hcut => ?_⟩
    · exact Tokenizer.tokenize_of_split (congrArg (Except.ok ∘ Prod.fst) htokens)
    · have hopened : spelling.openedFrom (Text.byteSize d.lead) d.words = none := by
        by_contra hsome
        obtain ⟨n, hn⟩ := Option.ne_none_iff_exists'.mp hsome
        obtain ⟨before, q, hcut⟩ := exists_cutOff hvalid hn
        exact hclosed before q hcut
      simp only [Tokenizer.tokenize, Tokenizer.split, htokens, hopened, Bool.false_and]
    · obtain ⟨hquote, hposition⟩ := hcut.located htext
      refine ⟨hcut.isQuote, hquote, .located .openQuote input (Text.byteSize before), ?_, rfl, rfl,
        hposition⟩
      simp only [Tokenizer.tokenize, Tokenizer.split, htokens, openedFrom_of_cutOff hvalid hcut,
        Bool.false_eq_true, if_false]
  · obtain ⟨ts, htolerant, htokenize, hsplit⟩ := policy.tokenize_true_eq input
    by_cases htrailing : policy.wantsTrailing (Text.size input) ts = true
    · rw [if_pos htrailing] at htokenize
      exact ⟨ts, _, _, htolerant, htokenize, List.getLast?_concat, rfl,
        .inl ⟨rfl, Tokenizer.wantsTrailing_iff.mp htrailing⟩⟩
    · rw [if_neg htrailing] at htokenize
      obtain ⟨last, hlast, hstop⟩ :=
        Tokenizer.exists_last_of_split hsplit (Bool.eq_false_iff.mpr htrailing)
      exact ⟨ts, ts, last, htolerant, htokenize, hlast, hstop,
        .inr ⟨rfl, fun h => htrailing (Tokenizer.wantsTrailing_iff.mpr h)⟩⟩

end ArgGrammar
