import ArgGrammar.ParseError
import ArgGrammar.Proofs.Boundary

/-!
# The caret under an error

An annotated error is the message, a part of the line around the place of the error, and a caret. The
place is counted in bytes, the column of the caret in characters of the part that is shown.

* `Excerpt before after shown caret`: `shown` is the text around the place between `before` and
  `after`, and `caret` is the column of that place in it.
* `Excerpt.under`, `Excerpt.at_end`, `Excerpt.length_le`, `Excerpt.isLine`: what stands in that column,
  how long an excerpt is, and that it is one line if the text is.
* `annotated_caret`: an annotated error shows an excerpt, and the caret in its column.
-/

namespace ArgGrammar.ParseError

/-- Three dots for a text of which only forty characters are shown. -/
def dots (cs : List Char) : List Char := if 40 < cs.length then ['.', '.', '.'] else []

/-- What is shown of a text around the place between `before` and `after`, and the column of that
place: at most forty characters on either side, and dots where there are more. -/
inductive Excerpt (before after : List Char) : List Char → Nat → Prop where
  | intro {head tail : List Char} (hhead : head <:+ before)
      (hheadLength : head.length = min before.length 40) (htail : tail <+: after)
      (htailLength : tail.length = min after.length 40) :
      Excerpt before after (dots before ++ head ++ (tail ++ dots after))
        (dots before ++ head).length

theorem excerpt_shown (before after : List Char) :
    Excerpt before after (shownBefore before ++ shownAfter after) (shownBefore before).length := by
  have hhead : (before.drop (before.length - 40)).length = min before.length 40 := by
    rw [List.length_drop]
    omega
  have htail : (after.take 40).length = min after.length 40 := by
    rw [List.length_take, Nat.min_comm]
  exact .intro (List.drop_suffix _ _) hhead (List.take_prefix _ _) htail

theorem length_dots_le (cs : List Char) : (dots cs).length ≤ 3 := by
  rw [dots]
  split <;> simp

theorem not_mem_dots (cs : List Char) : '\n' ∉ dots cs := by
  rw [dots]
  split <;> simp

namespace Excerpt

variable {before after shown : List Char} {caret : Nat}

theorem caret_eq (h : Excerpt before after shown caret) :
    caret = (dots before).length + min before.length 40 := by
  obtain ⟨-, hlength, -, -⟩ := h
  rw [List.length_append, hlength]

theorem under (h : Excerpt before after shown caret) : shown[caret]? = after.head? := by
  obtain ⟨-, -, htail, hlength⟩ := h
  rw [List.getElem?_append_right (Nat.le_refl _), Nat.sub_self]
  cases after with
  | nil =>
    rw [List.prefix_nil.mp htail]
    rfl
  | cons a after =>
    rw [List.length_cons] at hlength
    obtain ⟨b, tail, rfl⟩ := List.exists_cons_of_length_pos (show 0 < _ by rw [hlength]; omega)
    rw [(List.cons_prefix_cons.mp htail).1]
    rfl

theorem at_end (h : Excerpt before [] shown caret) : caret = shown.length := by
  obtain ⟨-, -, htail, -⟩ := h
  rw [List.prefix_nil.mp htail]
  simp [dots]

theorem length_le (h : Excerpt before after shown caret) : shown.length ≤ 86 := by
  have hbefore := length_dots_le before
  have hafter := length_dots_le after
  obtain ⟨-, hheadLength, -, htailLength⟩ := h
  simp only [List.length_append]
  omega

theorem isLine (h : Excerpt before after shown caret) (hline : '\n' ∉ before ++ after) :
    '\n' ∉ shown := by
  obtain ⟨hhead, -, htail, -⟩ := h
  rw [List.mem_append, not_or] at hline
  have hkept : ∀ {cs kept : List Char}, kept.Sublist cs → '\n' ∉ cs → '\n' ∉ kept :=
    fun hsub hcs hmem => hcs (hsub.subset hmem)
  simp only [List.mem_append, not_or]
  exact ⟨⟨not_mem_dots before, hkept hhead.sublist hline.1⟩, hkept htail.sublist hline.2,
    not_mem_dots after⟩

end Excerpt

theorem annotated_located (complaint : Complaint) {raw : String} {before after : List Char}
    (hraw : raw.toList = before ++ after) :
    (located complaint raw (Text.byteSize before)).annotated =
      complaint.message ++ "\n" ++ String.ofList (shownBefore before ++ shownAfter after) ++ "\n" ++
        String.ofList (List.replicate (shownBefore before).length ' ') ++ "^" := by
  have hsize : min (Text.byteSize before) (Text.size raw) = Text.byteSize before := by
    rw [Text.size, hraw, Text.byteSize_append]
    omega
  rw [located, hsize, annotated]
  simp only [hraw, Text.takeBytes_byteSize_append, Text.dropBytes_byteSize_append]
  rfl

/-- **The caret stands under the character at the place of the error.** For any complaint, hence any
message, about any place between characters of any line, the annotated error is the message, a line of
at most 86 characters and a caret behind blanks. The line shows the last forty characters before the
place and the first forty from it on, or all if there are fewer, with dots for the others. In the column
of the caret it has the character at the place; if there is none, the caret stands right behind it. -/
theorem annotated_caret (complaint : Complaint) {raw : String} {position : Nat}
    (hline : '\n' ∉ raw.toList) (hposition : String.Pos.Raw.IsValid raw ⟨position⟩) :
    ∃ before after shown caret,
      raw.toList = before ++ after ∧ (String.ofList before).utf8ByteSize = position ∧
        Excerpt before after shown caret ∧
        (located complaint raw position).annotated =
          complaint.message ++ "\n" ++ String.ofList shown ++ "\n" ++
            String.ofList (List.replicate caret ' ') ++ "^" ∧
        shown[caret]? = after.head? ∧ (after = [] → caret = shown.length) ∧
        shown.length ≤ 86 ∧ '\n' ∉ shown := by
  obtain ⟨before, after, hraw, rfl⟩ := Text.isValid_iff.mp hposition
  have hexcerpt := excerpt_shown before after
  refine ⟨before, after, _, _, hraw, (Text.byteSize_eq_utf8ByteSize before).symm, hexcerpt,
    annotated_located complaint hraw, hexcerpt.under, ?_, hexcerpt.length_le,
    hexcerpt.isLine (hraw ▸ hline)⟩
  rintro rfl
  exact hexcerpt.at_end

/-- Forty-one characters of two bytes before the place, and forty-one characters from it on. -/
theorem annotated_caret_accented :
    let raw := String.ofList (List.replicate 41 'é' ++ 'x' :: List.replicate 40 'y')
    '\n' ∉ raw.toList ∧ String.Pos.Raw.IsValid raw ⟨82⟩ ∧
      ∃ shown, (located .tooMany raw 82).annotated =
        "Too many arguments" ++ "\n" ++ String.ofList shown ++ "\n" ++
          String.ofList (List.replicate 43 ' ') ++ "^" ∧
        shown[43]? = some 'x' := by
  intro raw
  have htoList : raw.toList = List.replicate 41 'é' ++ 'x' :: List.replicate 40 'y' :=
    String.toList_ofList
  have hline : '\n' ∉ raw.toList := by
    rw [htoList]
    decide
  have hposition : String.Pos.Raw.IsValid raw ⟨82⟩ :=
    Text.isValid_byteSize (List.replicate 41 'é') ('x' :: List.replicate 40 'y')
  obtain ⟨before, after, shown, caret, hraw, hsize, hexcerpt, htext, hunder, -⟩ :=
    annotated_caret .tooMany hline hposition
  rw [htoList] at hraw
  obtain rfl : before = List.replicate 41 'é' := by
    rw [← Text.takeBytes_byteSize_append before after, ← hraw, Text.byteSize_eq_utf8ByteSize, hsize]
    decide
  obtain rfl : caret = 43 := hexcerpt.caret_eq
  refine ⟨hline, hposition, shown, htext, ?_⟩
  rw [hunder, ← List.append_cancel_left hraw]
  rfl

end ArgGrammar.ParseError
