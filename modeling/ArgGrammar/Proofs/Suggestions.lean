import ArgGrammar.Proofs.Spans
import ArgGrammar.Proofs.Replacement
import ArgGrammar.Shell

/-!
# The range that a suggestion replaces

A caret inside a character stands before it: completion reads the line up to the last place between
characters that the caret leaves. The range of a suggestion starts where the last token of that part
starts. It ends at the caret itself, or at the end of the line if the caret is behind it, so it is a
part of the line only when the caret is not inside a character.

* `Text.isValid_min_iff`, `Text.isValid_min_iff_eq_upTo`: whether a caret is inside a character, and what
  that means for the part in front of it.
* `Parser.completionStart_valid`: the last token starts at a place between characters of that part.
* `suggestion_range`: what the range of a suggestion is, and when it is a part of the line.
* `suggestion_range_inside`: with the caret inside a character it is not.
-/

namespace ArgGrammar

namespace Text

variable {caret : Nat} {line : String}

theorem isValid_min_iff :
    String.Pos.Raw.IsValid line ⟨min caret (size line)⟩ ↔
      size line ≤ caret ∨ String.Pos.Raw.IsValid line ⟨caret⟩ := by
  rcases Nat.le_total (size line) caret with hbehind | hinside
  · rw [Nat.min_eq_right hbehind]
    exact iff_of_true (isValid_size line) (.inl hbehind)
  · rw [Nat.min_eq_left hinside]
    refine ⟨.inr, fun h => h.elim (fun hle => ?_) id⟩
    obtain rfl : caret = size line := Nat.le_antisymm hinside hle
    exact isValid_size line

theorem isValid_min_iff_eq_upTo :
    String.Pos.Raw.IsValid line ⟨min caret (size line)⟩ ↔
      min caret (size line) = size (upTo caret line) := by
  obtain ⟨⟨hle, hvalid⟩, hgreatest⟩ := isGreatest_size_upTo caret line
  constructor
  · intro h
    exact Nat.le_antisymm (hgreatest ⟨Nat.le_refl _, h⟩) hle
  · intro h
    rwa [h]

theorem isValid_of_upTo {n : Nat} (h : String.Pos.Raw.IsValid (upTo caret line) ⟨n⟩) :
    String.Pos.Raw.IsValid line ⟨n⟩ := by
  obtain ⟨u, v, hsplit, hn⟩ := isValid_iff.mp h
  rw [upTo, String.toList_ofList] at hsplit
  refine isValid_iff.mpr ⟨u, v ++ dropBytes caret line.toList, ?_, hn⟩
  rw [← List.append_assoc, ← hsplit, takeBytes_append_dropBytes]

end Text

theorem Parser.completionStart_valid (p : Parser) (before : String) :
    String.Pos.Raw.IsValid before ⟨p.completionStart before⟩ := by
  obtain ⟨a, b, us, t, hbefore, htokens, hstart, -⟩ := p.tokenizer.exists_replaces before
  have hcompletion : p.completionStart before = Text.byteSize a := by
    simp only [completionStart, htokens, List.getLast?_concat, hstart]
  rw [hcompletion, hbefore]
  exact Text.isValid_byteSize a b

/-- **The range of a suggestion** starts where completion says, at a place between characters, and
ends in the line, at the caret or at the end of the line. That is as far as completion reads the line,
and a place between characters, if the caret is behind the line or at such a place itself, and not
otherwise. -/
theorem suggestion_range (p : Parser) (line : String) (caret : Nat) {s : Shell.Suggestion}
    (hs : s ∈ Shell.suggest p line caret) :
    s.start = (p.completeLine line caret).1 ∧ s.value ∈ (p.completeLine line caret).2 ∧
      s.start ≤ s.stop ∧ s.stop ≤ Text.size line ∧ String.Pos.Raw.IsValid line ⟨s.start⟩ ∧
      s.stop = min caret (Text.size line) ∧
      (s.stop = Text.size (Text.upTo caret line) ↔
        Text.size line ≤ caret ∨ String.Pos.Raw.IsValid line ⟨caret⟩) ∧
      (String.Pos.Raw.IsValid line ⟨s.stop⟩ ↔
        Text.size line ≤ caret ∨ String.Pos.Raw.IsValid line ⟨caret⟩) := by
  have hvalid := p.completionStart_valid (Text.upTo caret line)
  have hstart : p.completionStart (Text.upTo caret line) ≤ min caret (Text.size line) :=
    (Text.le_size_of_isValid hvalid).trans (Text.isGreatest_size_upTo caret line).1.1
  obtain ⟨value, hvalue, hs⟩ := List.mem_map.mp hs
  have hstop : s.stop = min caret (Text.size line) := by
    rw [← hs]
    exact Nat.max_eq_left hstart
  have hfirst : s.start = p.completionStart (Text.upTo caret line) := by rw [← hs]
  refine ⟨hfirst, hs ▸ hvalue, ?_, ?_, ?_, hstop, ?_, ?_⟩
  · rwa [hfirst, hstop]
  · rw [hstop]
    exact Nat.min_le_right _ _
  · rw [hfirst]
    exact Text.isValid_of_upTo hvalid
  · rw [hstop, ← Text.isValid_min_iff_eq_upTo, Text.isValid_min_iff]
  · rw [hstop, Text.isValid_min_iff]

/-- A caret in the middle of a line, behind a character of two bytes. -/
theorem suggestion_range_accented :
    ⟨"list", 3, 5, true⟩ ∈ Shell.suggest ⟨.seq [.string "a", Demo.list], .spaceSplit⟩ "é li é" 5 ∧
      String.Pos.Raw.IsValid "é li é" ⟨5⟩ := by
  have hmem : ⟨"list", 3, 5, true⟩ ∈
      Shell.suggest ⟨.seq [.string "a", Demo.list], .spaceSplit⟩ "é li é" 5 := by decide +kernel
  obtain ⟨-, -, -, -, -, -, -, hvalid⟩ := suggestion_range _ _ _ hmem
  have hcaret : String.Pos.Raw.IsValid "é li é" ⟨5⟩ := by decide +kernel
  exact ⟨hmem, hvalid.mpr (.inr hcaret)⟩

/-- With the caret inside a character the range ends inside it, behind all that completion read. -/
theorem suggestion_range_inside :
    ∃ s ∈ Shell.suggest (Demo.parser {}) "é" 1, ¬ String.Pos.Raw.IsValid "é" ⟨s.stop⟩ ∧
      s.stop ≠ Text.size (Text.upTo 1 "é") := by
  have hmem : ⟨"set", 0, 1, true⟩ ∈ Shell.suggest (Demo.parser {}) "é" 1 := by decide +kernel
  exact ⟨_, hmem, by decide +kernel, by decide +kernel⟩

end ArgGrammar
