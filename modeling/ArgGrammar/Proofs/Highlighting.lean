import ArgGrammar.Proofs.Modes
import ArgGrammar.Shell

/-!
# Highlighting keeps the line

A highlighted line is its tokens in styles, and between them what the tokens leave out.

* `Token.Cover before rest ts`: in `rest`, which stands behind `before`, the tokens `ts` leave out white
  space and nothing else.
* `Tokenizer.cover_of_split`: the tokens of a line leave out white space only, under every policy.
* `Shell.exists_marked`: each segment of a highlighted line is that of a token or of white space.
* `highlight_lossless`: together the segments are the line.
-/

namespace ArgGrammar

/-- In `rest`, which stands behind `before`, there is white space in front of each of the tokens and
behind the last one, and nothing else. -/
inductive Token.Cover : List Char → List Char → List Token → Prop where
  | nil {before gap : List Char} (hgap : Text.Blank gap) : Cover before gap []
  | cons {before gap body rest : List Char} {t : Token} {ts : List Token} (hgap : Text.Blank gap)
      (hstart : t.start = Text.byteSize (before ++ gap))
      (hstop : t.stop = Text.byteSize (before ++ gap ++ body))
      (h : Cover (before ++ gap ++ body) rest ts) :
      Cover before (gap ++ (body ++ rest)) (t :: ts)

/-! ## The tokens of a line -/

theorem Spelling.Separated.cover {α : Type} {S : Spelling α} {ws : List (α × List Char)}
    (h : S.Separated ws) (before : List Char) {lead : List Char} (hlead : Text.Blank lead) :
    Token.Cover before (lead ++ S.join ws) (S.tokensFrom (Text.byteSize (before ++ lead)) ws) := by
  induction ws generalizing before lead with
  | nil =>
    rw [join_nil, List.append_nil]
    exact .nil hlead
  | cons w ws ih =>
    obtain ⟨a, gap⟩ := w
    have hgap : Text.Blank gap := h.blank (a, gap) (by simp)
    have hpos : Text.byteSize (before ++ lead) + Text.byteSize (S.text a) + Text.byteSize gap =
        Text.byteSize (before ++ lead ++ S.text a ++ gap) := by
      simp only [Text.byteSize_append]
    rw [join_cons, tokensFrom, hpos]
    exact .cons hlead rfl (Text.byteSize_append _ _).symm (ih h.tail _ hgap)

theorem Spelling.ReadBy.cover {α : Type} {S : Spelling α}
    {lex : Nat → List Char → List Token × Option Nat} (hlex : S.ReadBy lex) (hS : S.Readable)
    (cs : List Char) : Token.Cover [] cs (lex 0 cs).1 := by
  obtain ⟨d, hd⟩ := hS.existsUnique cs
  obtain ⟨hvalid, rfl⟩ := (hd d).mpr rfl
  rw [hlex.lex_text hvalid]
  exact hvalid.words.cover [] hvalid.lead

theorem Tokenizer.cover_of_split {policy : Tokenizer} {lenient : Bool} {line : String}
    {ts : List Token} (h : policy.split lenient line = .ok ts) : Token.Cover [] line.toList ts := by
  have hquoted : Token.Cover [] line.toList (Quoted.tokens line).1 :=
    Quoted.readBy.cover Quoted.readable line.toList
  cases policy with
  | lenientQuoted =>
    cases h
    exact hquoted
  | strictQuoted =>
    simp only [split] at h
    split at h
    · split at h
      · cases h
        exact hquoted
      · cases h
    · cases h
      exact hquoted
  | spaceSplit =>
    cases h
    exact Words.readBy.cover Words.readable line.toList
  | raw =>
    cases h
    split
    · next hempty =>
      rw [hempty]
      exact .nil (by simp [Text.Blank])
    · -- one token that leaves out nothing
      have hend : Token.Cover line.toList [] [] := .nil (by simp [Text.Blank])
      have hall : Token.Cover [] ([] ++ (line.toList ++ [])) [⟨line, 0, Text.size line⟩] :=
        .cons (by simp [Text.Blank]) rfl rfl hend
      simpa using hall

/-! ## The segments of a highlighted line -/

namespace Shell

theorem gap_eq {line : String} {before gap rest : List Char}
    (hline : line = String.ofList (before ++ (gap ++ rest))) :
    Shell.gap line (Text.byteSize before) (Text.byteSize (before ++ gap)) =
      if gap = [] then [] else [(.plain, String.ofList gap)] := by
  rw [Shell.gap, Text.byteSize_append]
  by_cases hgap : gap = []
  · simp [hgap, Text.byteSize]
  · have hpos := Text.byteSize_pos hgap
    rw [if_pos (by omega), if_neg hgap, hline, Text.slice_append]

/-- A segment with the token that it shows, or with none if it shows what tokens leave out. -/
abbrev Marked := Option Token × Style × String

/-- Segments that are marked show their token's text in the line, or white space. -/
structure Faithful (line : String) (marked : List Marked) : Prop where
  token : ∀ t segment, (some t, segment) ∈ marked → segment.2 = Text.slice t.start t.stop line
  blank : ∀ segment, (none, segment) ∈ marked → Text.Blank segment.2.toList

variable {line : String}

theorem Faithful.nil : Faithful line [] := ⟨by simp, by simp⟩

theorem Faithful.append {ms ns : List Marked} (hms : Faithful line ms) (hns : Faithful line ns) :
    Faithful line (ms ++ ns) where
  token t segment h := (List.mem_append.mp h).elim (hms.token t segment) (hns.token t segment)
  blank segment h := (List.mem_append.mp h).elim (hms.blank segment) (hns.blank segment)

theorem faithful_token (t : Token) (style : Style) :
    Faithful line [(some t, style, Text.slice t.start t.stop line)] where
  token u segment h := by
    obtain ⟨hu, rfl⟩ := Prod.mk.inj (List.mem_singleton.mp h)
    rw [Option.some.inj hu]
  blank segment h := by simp at h

theorem exists_marked_gap {before gap rest : List Char} (hgap : Text.Blank gap)
    (hline : line = String.ofList (before ++ (gap ++ rest))) :
    ∃ marked : List Marked,
      marked.map (·.2) = Shell.gap line (Text.byteSize before) (Text.byteSize (before ++ gap)) ∧
      marked.filterMap (·.1) = [] ∧ Faithful line marked ∧
      String.join (marked.map (·.2.2)) = String.ofList gap := by
  rw [gap_eq hline]
  by_cases hnil : gap = []
  · exact ⟨[], by simp [hnil], rfl, .nil, by simp [hnil]⟩
  · refine ⟨[(none, .plain, String.ofList gap)], by simp [hnil], rfl, ⟨by simp, ?_⟩, by simp⟩
    intro segment h
    obtain ⟨-, rfl⟩ := Prod.mk.inj (List.mem_singleton.mp h)
    simpa using hgap

theorem exists_marked {before rest : List Char} {ts : List Token} (h : Token.Cover before rest ts)
    (hline : line = String.ofList (before ++ rest)) (index : Nat) :
    ∃ marked : List Marked,
      marked.map (·.2) = segments line index (Text.byteSize before) ts ∧
      marked.filterMap (·.1) = ts ∧ Faithful line marked ∧
      String.join (marked.map (·.2.2)) = String.ofList rest := by
  induction h generalizing index with
  | @nil before gap hgap =>
    have hsize : Text.size line = Text.byteSize (before ++ gap) := by rw [hline, Text.size_ofList]
    rw [segments, hsize]
    have hend : line = String.ofList (before ++ (gap ++ [])) := by simpa using hline
    exact exists_marked_gap hgap hend
  | @cons before gap body rest t ts hgap hstart hstop _ ih =>
    have hsource : Text.slice t.start t.stop line = String.ofList body := by
      rw [hstart, hstop, Text.byteSize_append _ body, hline, ← List.append_assoc,
        Text.slice_append]
    obtain ⟨ms, hms, htokens, hfaithful, hjoin⟩ := exists_marked_gap hgap hline
    obtain ⟨ns, hns, htokens', hfaithful', hjoin'⟩ :=
      ih (by simpa using hline) (index + 1)
    rw [segments, hstart, ← hms, hstop, ← hns]
    refine ⟨ms ++ ((some t, styleOf index (Text.slice t.start t.stop line),
      Text.slice t.start t.stop line) :: ns), ?_, ?_, ?_, ?_⟩
    · simp [hstart, hstop]
    · simp [htokens, htokens']
    · exact hfaithful.append ((faithful_token t _).append hfaithful')
    · simp [hjoin, hjoin', hsource, String.join_append, String.join_cons]

theorem tolerant_eq (tokenizer : Tokenizer) :
    (if tokenizer = .strictQuoted then .lenientQuoted else tokenizer) = tokenizer.tolerant := by
  cases tokenizer <;> rfl

end Shell

/-- **Highlighting is lossless.** For every policy and every line, be it highlighted or not, the
segments together are the line. When it is highlighted, its segments are those of the tokens, each
token once and in order, and segments between them: the segment of a token is the text of the token's
bytes, and all others are white space. The strict policy is highlighted with the lenient tokens, which
a line has even while a quote is open in it. -/
theorem highlight_lossless (tokenizer : Tokenizer) (line : String) :
    (∀ enabled, String.join ((Shell.highlight tokenizer enabled line).map (·.2)) = line) ∧
    ∃ ts, tokenizer.tolerant.tokenize line false = .ok ts ∧
      ∃ marked : List Shell.Marked,
        marked.map (·.2) = Shell.highlight tokenizer true line ∧ marked.filterMap (·.1) = ts ∧
        (∀ t segment, (some t, segment) ∈ marked → segment.2 = Text.slice t.start t.stop line) ∧
        ∀ segment, (none, segment) ∈ marked → Text.Blank segment.2.toList := by
  obtain ⟨ts, -, hsplit⟩ := tokenizer.split_true line
  have htokens := Tokenizer.tokenize_of_split hsplit
  have henabled : Shell.highlight tokenizer true line = Shell.segments line 0 0 ts := by
    simp only [Shell.highlight, Shell.tolerant_eq, htokens]
  have hdisabled : Shell.highlight tokenizer false line = [(.plain, line)] := by
    simp only [Shell.highlight]
  have hline : line = String.ofList ([] ++ line.toList) := by simp
  obtain ⟨marked, hmarked, hmarks, hfaithful, hjoin⟩ :=
    Shell.exists_marked (Tokenizer.cover_of_split hsplit) hline 0
  refine ⟨fun enabled => ?_, ts, htokens, marked, hmarked.trans henabled.symm, hmarks,
    hfaithful.token, hfaithful.blank⟩
  cases enabled with
  | false => simp [hdisabled]
  | true =>
    calc String.join ((Shell.highlight tokenizer true line).map (·.2))
        = String.join ((marked.map (·.2)).map (·.2)) := by rw [henabled, hmarked]; rfl
      _ = String.join (marked.map (·.2.2)) := by rw [List.map_map]; rfl
      _ = line := by rw [hjoin, String.ofList_toList]

/-- White space at both ends, a character of two bytes and an open quote, under the strict policy. -/
theorem highlight_lossless_open_quote :
    Shell.highlight .strictQuoted true " é  'a b" =
        [(.plain, " "), (.bold, "é"), (.plain, "  "), (.green, "'a b")] ∧
      String.join ((Shell.highlight .strictQuoted true " é  'a b").map (·.2)) = " é  'a b" :=
  ⟨by decide +kernel, (highlight_lossless .strictQuoted " é  'a b").1 true⟩

end ArgGrammar
