import ArgGrammar.Proofs.TomlValues

/-!
# TOML documents read back

A document in its plain form is sections with an empty line between them: a header, and a line for
each key.

* `Toml.Line`, `Toml.Section`: what a document is made of; a section has each key once.
* `Toml.document`: the characters of a document, and `Toml.content`, what it says.
* `Toml.readStatements_document`: the statements of a document.
* `Toml.ofStatements?_document`: the table that they describe, if no section is there twice.
* `Toml.read?_document`: a document reads back.
-/

namespace ArgGrammar

namespace OrderedMap

variable {α β : Type} [DecidableEq α] {m : OrderedMap α β} {k : α}

theorem get?_eq_none (h : k ∉ m.keys) : m.get? k = none := by
  induction m with
  | nil => rfl
  | cons p m ih =>
    obtain ⟨hne, hrest⟩ := List.ne_and_not_mem_of_not_mem_cons h
    rw [get?, if_neg (Ne.symm hne), ih hrest]

theorem insert_of_not_mem (h : k ∉ m.keys) (v : β) : m.insert k v = m ++ [(k, v)] := by
  induction m with
  | nil => rfl
  | cons p m ih =>
    obtain ⟨hne, hrest⟩ := List.ne_and_not_mem_of_not_mem_cons h
    rw [insert, if_neg (Ne.symm hne), ih hrest]
    rfl

theorem get?_concat (h : k ∉ m.keys) (v : β) : get? (m ++ [(k, v)]) k = some v := by
  rw [← insert_of_not_mem h, get?_insert_self]

theorem insert_concat (h : k ∉ m.keys) (v v' : β) :
    insert (m ++ [(k, v)]) k v' = m ++ [(k, v')] := by
  induction m with
  | nil => simp [insert]
  | cons p m ih =>
    obtain ⟨hne, hrest⟩ := List.ne_and_not_mem_of_not_mem_cons h
    rw [List.cons_append, insert, if_neg (Ne.symm hne), ih hrest]
    rfl

end OrderedMap

namespace Toml

/-! ## Sections -/

/-- Whether a key can stand without quotes. -/
def IsBareKey (key : String) : Prop := key.toList ≠ [] ∧ key.toList.all isBare = true

instance (key : String) : Decidable (IsBareKey key) := inferInstanceAs (Decidable (_ ∧ _))

/-- A line that sets a key. -/
structure Line where
  key : String
  /-- The value as it is written. -/
  text : List Char
  value : Toml
  bare : IsBareKey key
  denotes : Denotes text value

/-- The lines under a header. -/
structure Section where
  name : String
  lines : List Line
  bare : IsBareKey name
  nodup : (lines.map Line.key).Nodup

namespace Line

/-- The characters of a line. -/
def chars (l : Line) : List Char := l.key.toList ++ ' ' :: '=' :: ' ' :: (l.text ++ ['\n'])

/-- What a line says. -/
def statement (l : Line) : Statement := .assign [l.key] l.value

/-- What a line adds to its table. -/
def entry (l : Line) : String × Toml := (l.key, l.value)

end Line

namespace Section

/-- The characters of a section. -/
def chars (s : Section) : List Char :=
  '[' :: (s.name.toList ++ ']' :: '\n' :: s.lines.flatMap Line.chars)

/-- What a section says. -/
def statements (s : Section) : List Statement := .header [s.name] :: s.lines.map Line.statement

/-- What a section adds to the document. -/
def entry (s : Section) : String × Toml := (s.name, .table .header (s.lines.map Line.entry))

end Section

/-- The characters of a document. -/
def document : List Section → List Char
  | [] => []
  | [s] => s.chars
  | s :: rest => s.chars ++ '\n' :: document rest

/-- The table of a document. -/
def content (sections : List Section) : Entries := sections.map Section.entry

/-! ## Reading keys -/

theorem IsBareKey.forall_mem {key : String} (h : IsBareKey key) :
    ∀ c ∈ key.toList, isBare c = true := List.all_eq_true.mp h.2

theorem IsBareKey.exists_head {key : String} (h : IsBareKey key) :
    ∃ c cs, key.toList = c :: cs ∧ isBare c = true := by
  match hkey : key.toList, h.1 with
  | c :: cs, _ => exact ⟨c, cs, rfl, h.forall_mem c (by simp [hkey])⟩

theorem ne_of_isBare {c d : Char} (h : isBare c = true) (hd : isBare d = false) : c ≠ d := by
  rintro rfl
  rw [h] at hd
  cases hd

theorem IsBareKey.append_ne {key : String} (h : IsBareKey key) {c : Char} (hc : isBare c = false)
    (cs : List Char) (y : List Char) : key.toList ++ cs ≠ c :: y := by
  obtain ⟨b, bs, hkey, hb⟩ := h.exists_head
  rw [hkey]
  exact fun heq => ne_of_isBare hb hc (List.cons.inj heq).1

theorem skipSpaces_of_ink {c : Char} (h : isSpace c = false) (cs : List Char) :
    skipSpaces (c :: cs) = c :: cs := by
  rw [skipSpaces, List.dropWhile_cons_of_neg (by simp [h])]

theorem isSpace_of_isBare {c : Char} (h : isBare c = true) : isSpace c = false := by
  have hspace := ne_of_isBare h (d := ' ') rfl
  have htab := ne_of_isBare h (d := '\t') rfl
  simp [isSpace, hspace, htab]

theorem readKey_bare {key : String} (h : IsBareKey key) (n : Nat) {c d : Char} {cs rest : List Char}
    (hc : isBare c = false) (hrest : skipSpaces (c :: cs) = d :: rest) (hd : d ≠ '.') :
    readKey (n + 1) (key.toList ++ c :: cs) = some ([key], d :: rest) := by
  obtain ⟨b, bs, hkey, hb⟩ := h.exists_head
  have hskip : skipSpaces (key.toList ++ c :: cs) = key.toList ++ c :: cs := by
    rw [hkey]
    exact skipSpaces_of_ink (isSpace_of_isBare hb) _
  have htake : (key.toList ++ c :: cs).takeWhile isBare = key.toList := by
    rw [List.takeWhile_append_of_pos h.forall_mem, List.takeWhile_cons_of_neg (by simp [hc]),
      List.append_nil]
  have hdrop : (key.toList ++ c :: cs).dropWhile isBare = c :: cs := by
    rw [List.dropWhile_append_of_pos h.forall_mem, List.dropWhile_cons_of_neg (by simp [hc])]
  have hpart : readPart (key.toList ++ c :: cs) = some (key, c :: cs) := by
    rw [readPart]
    · have hname : String.ofList (b :: bs) = key := by rw [← hkey, String.ofList_toList]
      simp only [htake, hdrop]
      simp only [hkey, hname]
    · exact h.append_ne rfl _
    · exact h.append_ne rfl _
  simp only [readKey, hskip, hpart, hrest]
  split
  · next heq => exact absurd (List.cons.inj heq).1 hd
  · rfl

/-! ## Reading statements -/

theorem endLine_break (more : List Char) : endLine ('\n' :: more) = some more := rfl

theorem readStatement_header {s : Section} (size : Nat) (more : List Char) :
    readStatement size ('[' :: (s.name.toList ++ ']' :: '\n' :: more)) =
      some (.header [s.name], more) := by
  have hkey : readKey maxDepth (s.name.toList ++ ']' :: '\n' :: more) =
      some ([s.name], ']' :: '\n' :: more) :=
    readKey_bare s.bare 79 rfl rfl (by decide)
  rw [readStatement]
  · rw [hkey]
    rfl
  · exact s.bare.append_ne rfl _

theorem readStatement_line {l : Line} {size : Nat} (hsize : l.text.length < size)
    (more : List Char) :
    readStatement size (l.key.toList ++ ' ' :: '=' :: ' ' :: (l.text ++ '\n' :: more)) =
      some (l.statement, more) := by
  have hkey : readKey maxDepth (l.key.toList ++ ' ' :: '=' :: ' ' :: (l.text ++ '\n' :: more)) =
      some ([l.key], '=' :: ' ' :: (l.text ++ '\n' :: more)) :=
    readKey_bare l.bare 79 rfl rfl (by decide)
  obtain ⟨n, rfl⟩ := Nat.exists_eq_succ_of_ne_zero (Nat.ne_of_gt (Nat.zero_lt_of_lt hsize))
  have hskip : skipSpaces (' ' :: (l.text ++ '\n' :: more)) = l.text ++ '\n' :: more := by
    match htext : l.text with
    | [] => rfl
    | c :: cs => exact skipSpaces_of_ink (l.denotes.inked c cs htext) _
  have hvalue := l.denotes.reads n more (Nat.le_of_lt_succ hsize)
  rw [readStatement]
  · rw [hkey]
    simp only [hskip, hvalue, endLine_break]
    rfl
  · exact fun y => l.bare.append_ne rfl _ _
  · exact l.bare.append_ne rfl _

theorem readStatements_cons {size n : Nat} {c : Char} {cs rest : List Char} {s : Statement}
    (hink : isSpace c = false) (hbreak : c ≠ '\n') (hreturn : c ≠ '\r') (hcomment : c ≠ '#')
    (h : readStatement size (c :: cs) = some (s, rest)) :
    readStatements size (n + 1) (c :: cs) = (readStatements size n rest).map (s :: ·) := by
  rw [readStatements, skipSpaces_of_ink hink]
  simp_all

variable {size : Nat}

theorem readStatements_line {l : Line} (hsize : l.text.length < size) (n : Nat)
    (more : List Char) :
    readStatements size (n + 1) (l.chars ++ more) =
      (readStatements size n more).map (l.statement :: ·) := by
  have hread := readStatement_line hsize more
  obtain ⟨b, bs, hkey, hb⟩ := l.bare.exists_head
  have hchars : l.chars ++ more = b :: (bs ++ ' ' :: '=' :: ' ' :: (l.text ++ '\n' :: more)) := by
    simp [Line.chars, hkey]
  rw [hkey, List.cons_append] at hread
  rw [hchars]
  exact readStatements_cons (isSpace_of_isBare hb) (ne_of_isBare hb rfl) (ne_of_isBare hb rfl)
    (ne_of_isBare hb rfl) hread

theorem readStatements_lines {lines : List Line} (hsize : ∀ l ∈ lines, l.text.length < size)
    (n : Nat) (more : List Char) :
    readStatements size (n + lines.length) (lines.flatMap Line.chars ++ more) =
      (readStatements size n more).map (lines.map Line.statement ++ ·) := by
  induction lines with
  | nil => simp
  | cons l lines ih =>
    have hline := readStatements_line (hsize l (by simp)) (n + lines.length)
      (lines.flatMap Line.chars ++ more)
    rw [List.flatMap_cons, List.append_assoc, List.length_cons, ← Nat.add_assoc, hline,
      ih fun l hl => hsize l (by simp [hl]), Option.map_map]
    rfl

theorem readStatements_section {s : Section} (hsize : ∀ l ∈ s.lines, l.text.length < size)
    (n : Nat) (more : List Char) :
    readStatements size (n + s.lines.length + 1) (s.chars ++ more) =
      (readStatements size n more).map (s.statements ++ ·) := by
  have hread := readStatement_header (s := s) size (s.lines.flatMap Line.chars ++ more)
  have hchars : s.chars ++ more =
      '[' :: (s.name.toList ++ ']' :: '\n' :: (s.lines.flatMap Line.chars ++ more)) := by
    simp [Section.chars]
  rw [hchars, readStatements_cons rfl (by decide) (by decide) (by decide) hread,
    readStatements_lines hsize, Option.map_map]
  rfl

theorem Section.length_chars (s : Section) :
    s.lines.length < s.chars.length ∧ ∀ l ∈ s.lines, l.text.length < s.chars.length := by
  have hlines : ∀ lines : List Line, lines.length ≤ (lines.flatMap Line.chars).length := by
    intro lines
    induction lines with
    | nil => exact Nat.zero_le _
    | cons l lines ih =>
      simp only [List.flatMap_cons, List.length_append, List.length_cons, Line.chars]
      omega
  have hchars : (s.lines.flatMap Line.chars).length < s.chars.length := by
    simp only [Section.chars, List.length_cons, List.length_append]
    omega
  refine ⟨Nat.lt_of_le_of_lt (hlines s.lines) hchars, fun l hl => ?_⟩
  have hsub : l.chars.Sublist (s.lines.flatMap Line.chars) := by
    rw [List.flatMap_def]
    exact List.sublist_flatten_of_mem (List.mem_map_of_mem hl)
  have hline : l.text.length < l.chars.length := by
    simp only [Line.chars, List.length_cons, List.length_append]
    omega
  exact Nat.lt_trans (Nat.lt_of_lt_of_le hline hsub.length_le) hchars

theorem document_cons (s : Section) {rest : List Section} (h : rest ≠ []) :
    document (s :: rest) = s.chars ++ '\n' :: document rest := by
  rw [document]
  exact h

theorem length_le_document {sections : List Section} {s : Section} (h : s ∈ sections) :
    s.chars.length ≤ (document sections).length := by
  induction sections using document.induct with
  | case1 => cases h
  | case2 s' =>
    obtain rfl := List.mem_singleton.mp h
    exact Nat.le_of_eq (by rw [document])
  | case3 s' rest hrest ih =>
    rw [document_cons s' hrest, List.length_append, List.length_cons]
    rcases List.mem_cons.mp h with rfl | h
    · omega
    · have := ih h
      omega

theorem readStatements_document (sections : List Section) {n : Nat}
    (hsize : ∀ s ∈ sections, ∀ l ∈ s.lines, l.text.length < size)
    (hn : (document sections).length < n) :
    readStatements size n (document sections) = some (sections.flatMap Section.statements) := by
  have hend : ∀ n, readStatements size n [] = some [] := by
    intro n
    cases n <;> rfl
  induction sections using document.induct generalizing n with
  | case1 => exact hend n
  | case2 s =>
    have hlines := s.length_chars.1
    rw [document] at hn ⊢
    obtain ⟨m, rfl⟩ : ∃ m, n = m + s.lines.length + 1 := ⟨n - s.lines.length - 1, by omega⟩
    have hsection := readStatements_section (hsize s (by simp)) m []
    rw [List.append_nil, hend] at hsection
    rw [hsection]
    simp
  | case3 s rest hrest ih =>
    have hlines := s.length_chars.1
    have hothers : ∀ s ∈ rest, ∀ l ∈ s.lines, l.text.length < size :=
      fun s hs => hsize s (by simp [hs])
    rw [document_cons s hrest, List.length_append, List.length_cons] at hn
    obtain ⟨m, rfl⟩ : ∃ m, n = m + 1 + s.lines.length + 1 :=
      ⟨n - s.lines.length - 2, by omega⟩
    have hempty : readStatements size (m + 1) ('\n' :: document rest) =
        readStatements size m (document rest) := rfl
    rw [document_cons s hrest, readStatements_section (hsize s (by simp)), hempty,
      ih hothers (by omega)]
    rfl

/-! ## The table of a document -/

variable {es : Entries} {name : String}

theorem assign_line {done : List Line} {l : Line} (hname : name ∉ es.keys)
    (hkey : l.key ∉ done.map Line.key) :
    assign [name] [l.key] l.value (es ++ [(name, .table .header (done.map Line.entry))]) =
      some (es ++ [(name, .table .header ((done ++ [l]).map Line.entry))]) := by
  have hnew : l.key ∉ OrderedMap.keys (done.map Line.entry) := by
    rw [OrderedMap.keys, List.map_map]
    exact hkey
  rw [assign, updateUnder, OrderedMap.get?_concat hname]
  simp only [assign, set, setIn, OrderedMap.get?_eq_none hnew, Option.map_some,
    OrderedMap.insert_concat hname, OrderedMap.insert_of_not_mem hnew]
  simp [Line.entry]

theorem applyStatements_lines (done : List Line) {lines : List Line} (hname : name ∉ es.keys)
    (hnodup : ((done ++ lines).map Line.key).Nodup) (more : List Statement) :
    applyStatements (lines.map Line.statement ++ more) [name]
        (es ++ [(name, .table .header (done.map Line.entry))]) =
      applyStatements more [name]
        (es ++ [(name, .table .header ((done ++ lines).map Line.entry))]) := by
  induction lines generalizing done with
  | nil => simp
  | cons l lines ih =>
    have hkey : l.key ∉ done.map Line.key := by
      rw [List.map_append, List.map_cons, List.nodup_append] at hnodup
      exact fun hmem => hnodup.2.2 _ hmem _ (by simp) rfl
    rw [List.map_cons, List.cons_append, Line.statement, applyStatements, assign_line hname hkey,
      Option.bind_some, ih (done ++ [l]) (by simpa using hnodup)]
    simp

theorem applyStatements_section {s : Section} (hname : s.name ∉ es.keys) (under : List String)
    (more : List Statement) :
    applyStatements (s.statements ++ more) under es =
      applyStatements more [s.name] (es ++ [s.entry]) := by
  have hheader : declare [s.name] es = some (es ++ [(s.name, .table .header [])]) := by
    rw [declare, along, OrderedMap.get?_eq_none hname]
    simp only [OrderedMap.insert_of_not_mem hname]
  rw [Section.statements, List.cons_append, applyStatements, hheader, Option.bind_some]
  exact applyStatements_lines [] hname (by simpa using s.nodup) more

theorem applyStatements_document (es : Entries) {sections : List Section}
    (hnodup : (es.keys ++ sections.map Section.name).Nodup) (under : List String) :
    applyStatements (sections.flatMap Section.statements) under es =
      some (es ++ content sections) := by
  induction sections generalizing es under with
  | nil => simp [applyStatements, content]
  | cons s sections ih =>
    have hname : s.name ∉ es.keys := by
      rw [List.map_cons, List.nodup_append] at hnodup
      exact fun hmem => hnodup.2.2 _ hmem _ (by simp) rfl
    have hkeys : OrderedMap.keys (es ++ [s.entry]) = es.keys ++ [s.name] := by
      simp [OrderedMap.keys, Section.entry]
    rw [List.flatMap_cons, applyStatements_section hname, ih _ (by rw [hkeys]; simpa using hnodup)]
    simp [content]

theorem ofStatements?_document {sections : List Section}
    (hnodup : (sections.map Section.name).Nodup) :
    ofStatements? (sections.flatMap Section.statements) = some (content sections) :=
  applyStatements_document [] hnodup []

/-! ## Whole documents -/

theorem dropMark_document (sections : List Section) :
    dropMark (document sections) = document sections := by
  cases sections using document.fun_cases with
  | case1 => rfl
  | case2 s => rw [document]; rfl
  | case3 s rest hrest => rw [document_cons s hrest]; rfl

/-- **A document reads back,** if it has no section twice. -/
theorem read?_document {sections : List Section} (hnodup : (sections.map Section.name).Nodup) :
    read? (String.ofList (document sections)) = some (content sections) := by
  have hsize : ∀ s ∈ sections, ∀ l ∈ s.lines, l.text.length < (document sections).length + 1 :=
    fun s hs l hl => Nat.lt_succ_of_le <|
      Nat.le_trans (Nat.le_of_lt (s.length_chars.2 l hl)) (length_le_document hs)
  rw [read?, String.toList_ofList, dropMark_document,
    readStatements_document sections hsize (Nat.lt_succ_self _), Option.bind_some,
    ofStatements?_document hnodup]

end Toml

end ArgGrammar
