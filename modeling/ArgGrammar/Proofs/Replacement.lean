import ArgGrammar.Parser
import ArgGrammar.Proofs.Policies

/-!
# Replacing the word at the caret

A line that is cut at the caret consists of words with white space behind them and of one last word,
which may be empty or cut off. Completion replaces that word, and nothing before it changes.

* `Tokenizer.Replaces`: the last token of a line can be replaced by any value that the policy can
  write, and the other tokens stay. `Tokenizer.exists_replaces` says that every line is like this
  when it is split for completion.
* `completeLine_replaces`: the same for a line and a caret.
-/

namespace ArgGrammar

namespace Tokenizer

variable {α : Type} {policy : Tokenizer} {S : Spelling α}
  {lex : Nat → List Char → List Token × Option Nat}

theorem tokenize_true_of_split {input : String} {ts : List Token}
    (h : policy.split true input = .ok ts) :
    policy.tokenize input true =
      .ok (if policy.wantsTrailing (Text.size input) ts
        then ts ++ [⟨"", Text.size input, Text.size input⟩] else ts) := by
  simp only [tokenize, h, Bool.true_and]
  split <;> rfl

theorem wantsTrailing_of_stop_lt (hraw : policy ≠ .raw) {n : Nat} {ts : List Token}
    (h : ∀ t ∈ ts, t.stop < n) : policy.wantsTrailing n ts = true := by
  unfold wantsTrailing
  split
  · rfl
  · next t ht =>
    have hstop : t.stop < n := h t (List.mem_of_getLast? ht)
    simpa [hstop] using hraw

theorem wantsTrailing_concat {n : Nat} {ts : List Token} {t : Token} (h : t.stop = n) :
    policy.wantsTrailing n (ts ++ [t]) = false := by
  rw [wantsTrailing, List.getLast?_concat]
  simp [h]

theorem Reads.tokenize_concat (h : policy.Reads S lex) {d : Spaced α} (hd : d.Ready S) {v : String}
    (hv : policy.Writable v) :
    policy.tokenize (String.ofList (d.text S) ++ policy.quote v) false =
      .ok (d.tokens S ++ [⟨v, Text.byteSize (d.text S),
        Text.byteSize (d.text S) + Text.size (policy.quote v)⟩]) := by
  obtain ⟨a, hclosed, htext, hvalue⟩ := h.quote v hv
  have hline : String.ofList (d.text S) ++ policy.quote v =
      String.ofList ((d.concat a).text S) := by
    rw [Spaced.text_concat, htext, String.ofList_append, String.ofList_toList]
  have htoken : S.token (Text.byteSize (d.text S)) a = ⟨v, Text.byteSize (d.text S),
      Text.byteSize (d.text S) + Text.size (policy.quote v)⟩ := by
    rw [Spelling.token, htext, hvalue]
    rfl
  rw [hline, h.tokenize_text (hd.concat a), Spaced.tokens_concat, htoken]
  intro w hw
  rcases List.mem_append.mp hw with hw | hw
  · exact hd.valid.words.closed w hw (hd.gaps w hw)
  · obtain rfl := List.mem_singleton.mp hw
    exact hclosed

/-- What completion finds on a line: tokens that stay, and one at its end that can be replaced. -/
def Replaces (policy : Tokenizer) (before : String) (a : List Char) (us : List Token) (t : Token) :
    Prop :=
  policy.tokenize before true = .ok (us ++ [t]) ∧ t.start = Text.byteSize a ∧
    ∀ v, policy.Writable v →
      policy.tokenize (String.ofList a ++ policy.quote v) false =
        .ok (us ++ [⟨v, Text.byteSize a, Text.byteSize a + Text.size (policy.quote v)⟩])

theorem Reads.split_text (h : policy.Reads S lex) {d : Spaced α} (hd : d.Valid S) :
    policy.split true (String.ofList (d.text S)) = .ok (d.tokens S) := by
  rw [h.completing, String.toList_ofList, h.readBy.lex_text hd]

theorem Reads.exists_replaces (h : policy.Reads S lex) (hraw : policy ≠ .raw) (cs : List Char) :
    ∃ a b us t, cs = a ++ b ∧ policy.Replaces (String.ofList cs) a us t := by
  obtain ⟨d, hready, hcases⟩ := Spaced.exists_ready h.readable cs
  rcases hcases with rfl | ⟨w, rfl⟩
  · -- behind white space completion adds an empty token
    refine ⟨d.text S, [], d.tokens S, ⟨"", Text.byteSize (d.text S), Text.byteSize (d.text S)⟩,
      by simp, ?_, rfl, fun v hv => h.tokenize_concat hready hv⟩
    have htrailing := wantsTrailing_of_stop_lt hraw fun t ht => hready.stop_lt (S := S) ht
    rw [tokenize_true_of_split (h.split_text hready.valid), Text.size_ofList, if_pos htrailing]
  · -- the last word may be cut off, and is the last token
    refine ⟨d.text S, S.text w, d.tokens S, S.token (Text.byteSize (d.text S)) w,
      Spaced.text_concat w, ?_, rfl, fun v hv => h.tokenize_concat hready hv⟩
    have hstop : (S.token (Text.byteSize (d.text S)) w).stop =
        Text.byteSize ((d.concat w).text S) := by
      rw [Spaced.text_concat, Text.byteSize_append]
      rfl
    have htrailing : policy.wantsTrailing (Text.byteSize ((d.concat w).text S))
        (d.tokens S ++ [S.token (Text.byteSize (d.text S)) w]) = false := wantsTrailing_concat hstop
    rw [tokenize_true_of_split (h.split_text (hready.concat w)), Text.size_ofList,
      Spaced.tokens_concat, htrailing, if_neg Bool.false_ne_true]

theorem exists_replaces_raw (cs : List Char) :
    ∃ a b us t, cs = a ++ b ∧ raw.Replaces (String.ofList cs) a us t := by
  have hvalue : ∀ v, raw.Writable v → raw.tokenize (String.ofList [] ++ raw.quote v) false =
      .ok ([] ++ [⟨v, 0, 0 + Text.size v⟩]) := by
    intro v hv
    have hv' : v ≠ "" := hv
    simp [tokenize, split, quote, hv']
  by_cases hempty : String.ofList cs = ""
  · refine ⟨[], cs, [], ⟨"", 0, 0⟩, rfl, ?_, rfl, hvalue⟩
    rw [hempty]
    rfl
  · refine ⟨[], cs, [], ⟨String.ofList cs, 0, Text.size (String.ofList cs)⟩, rfl, ?_, rfl, hvalue⟩
    simp [tokenize, split, wantsTrailing, hempty]

theorem exists_replaces (policy : Tokenizer) (before : String) :
    ∃ a b us t, before = String.ofList (a ++ b) ∧ policy.Replaces before a us t := by
  have hcs : ∃ a b us t, before.toList = a ++ b ∧
      policy.Replaces (String.ofList before.toList) a us t := by
    by_cases hraw : policy = .raw
    · subst hraw
      exact exists_replaces_raw before.toList
    · obtain ⟨α, S, lex, hreads⟩ := exists_reads hraw
      exact hreads.exists_replaces hraw before.toList
  obtain ⟨a, b, us, t, hsplit, hreplaces⟩ := hcs
  rw [String.ofList_toList] at hreplaces
  exact ⟨a, b, us, t, by rw [← hsplit, String.ofList_toList], hreplaces⟩

theorem replace_last (h : policy.Quotes) (before : String) :
    ∃ (a b : List Char) (us : List Token) (t : Token), before.toList = a ++ b ∧
      policy.tokenize before true = .ok (us ++ [t]) ∧ t.start = Text.byteSize a ∧
      ∀ value, ∃ stop, policy.tokenize (String.ofList a ++ policy.quote value) false =
        .ok (us ++ [⟨value, Text.byteSize a, stop⟩]) := by
  obtain ⟨a, b, us, t, hbefore, htokens, hstart, hreplace⟩ := policy.exists_replaces before
  refine ⟨a, b, us, t, by rw [hbefore, String.toList_ofList], htokens, hstart, fun value => ?_⟩
  have hwritable : policy.Writable value := by
    rcases h with rfl | rfl <;> trivial
  exact ⟨_, hreplace value hwritable⟩

end Tokenizer

/-- **A completion changes only the word at the caret.** The line is cut at the last place between
characters that the caret leaves. What comes first in the answer is the start of the last token of
that part, a place between its characters. If the part is cut there and goes on with a value,
quoted, it splits into the same tokens, with the same values and bytes, except that the last one is
the value on the bytes of its quoted form. -/
theorem completeLine_replaces (p : Parser) (line : String) (caret : Nat) :
    IsGreatest {n | n ≤ min caret (Text.size line) ∧ String.Pos.Raw.IsValid line ⟨n⟩}
      (Text.size (Text.upTo caret line)) ∧
    (∃ after, line = Text.upTo caret line ++ after) ∧
    ∃ us t, p.tokenizer.tokenize (Text.upTo caret line) true = .ok (us ++ [t]) ∧
      (p.completeLine line caret).1 = t.start ∧
      t.start ≤ Text.size (Text.upTo caret line) ∧
      String.Pos.Raw.IsValid (Text.upTo caret line) ⟨t.start⟩ ∧
      ∀ v, p.tokenizer.Writable v →
        p.tokenizer.tokenize
            (Text.upTo t.start (Text.upTo caret line) ++ p.tokenizer.quote v) false =
          .ok (us ++ [⟨v, t.start, t.start + Text.size (p.tokenizer.quote v)⟩]) := by
  obtain ⟨a, b, us, t, hbefore, htokens, hstart, hreplace⟩ :=
    p.tokenizer.exists_replaces (Text.upTo caret line)
  refine ⟨Text.isGreatest_size_upTo caret line, ⟨Text.startingAt caret line, ?_⟩, us, t, htokens,
    ?_, ?_, ?_, ?_⟩
  · rw [Text.upTo, Text.startingAt, ← String.ofList_append, Text.takeBytes_append_dropBytes,
      String.ofList_toList]
  · simp only [Parser.completeLine, Parser.completionStart, htokens, List.getLast?_concat]
  · rw [hstart, hbefore, Text.size_ofList, Text.byteSize_append]
    exact Nat.le_add_right _ _
  · rw [hstart, hbefore]
    exact Text.isValid_byteSize a b
  · rw [hstart, hbefore, Text.upTo_byteSize]
    exact hreplace

/-- The caret stands inside a character, and the word before it is cut off inside quotes. -/
theorem completeLine_replaces_open_quote :
    let p : Parser := ⟨.string "key", .strictQuoted⟩
    (p.completeLine "set 'two wörds" 11).1 = 4 ∧
      p.tokenizer.tokenize "set \"two ways\"" false =
        .ok [⟨"set", 0, 3⟩, ⟨"two ways", 4, 14⟩] := by
  intro p
  obtain ⟨-, -, us, t, htokens, hstart, -, -, hreplace⟩ :=
    completeLine_replaces p "set 'two wörds" 11
  have hbefore : p.tokenizer.tokenize (Text.upTo 11 "set 'two wörds") true =
      .ok ([⟨"set", 0, 3⟩] ++ [⟨"two w", 4, 10⟩]) := by decide +kernel
  rw [hbefore] at htokens
  obtain ⟨rfl, hlast⟩ := List.append_inj' (Except.ok.inj htokens) rfl
  obtain rfl := List.singleton_inj.mp hlast
  have hline : Text.upTo 4 (Text.upTo 11 "set 'two wörds") ++ p.tokenizer.quote "two ways" =
      "set \"two ways\"" := by decide +kernel
  have hsize : Text.size (p.tokenizer.quote "two ways") = 10 := by decide +kernel
  have hvalue := hreplace "two ways" trivial
  rw [hline, hsize] at hvalue
  exact ⟨hstart, hvalue⟩

end ArgGrammar
