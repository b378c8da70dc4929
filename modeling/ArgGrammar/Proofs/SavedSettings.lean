import ArgGrammar.Program
import ArgGrammar.Proofs.Files
import ArgGrammar.Proofs.TomlDocuments

/-!
# Saved settings

Settings are written as a TOML document, and reading it gives back the settings.

* `Settings.document`, `Settings.toList_toToml`: the sections that are written.
* `Settings.ofToml?_toToml`: settings read back from their document.
* `Settings.maxSize_lt_of_ofToml?`, `Settings.load_eq_ok`: settings that were read fit in a document.
* `Program.loadSettings_named`, `Program.applyOptions_idle`: the settings in force are those of the
  file that is named, with the options on top.
* `Program.runCommand_write`: what writing the settings to a file that was read does.
* `written_settings`: settings that are written are those in force from then on.
-/

namespace ArgGrammar

theorem OutputFormat.ofName?_name (f : OutputFormat) : ofName? f.name = some f := by
  cases f <;> decide

theorem LogLevel.ofName?_name (l : LogLevel) : ofName? l.name = some l := by cases l <;> decide

namespace Settings

/-! ## The document of settings -/

/-- A line with a text. -/
def textLine (key value : String) (h : Toml.IsBareKey key) : Toml.Line where
  key := key
  text := Toml.writeString value.toList
  value := .str value
  bare := h
  denotes := by
    have hdenotes := Toml.denotes_writeString value.toList
    rwa [String.ofList_toList] at hdenotes

/-- A line with a truth value. -/
def truthLine (key : String) (value : Bool) (h : Toml.IsBareKey key) : Toml.Line where
  key := key
  text := if value then ['t', 'r', 'u', 'e'] else ['f', 'a', 'l', 's', 'e']
  value := .bool value
  bare := h
  denotes := Toml.denotes_truth value

/-- A line with a natural number. -/
def natLine (key : String) (value : Nat) (hvalue : value < Nat.pow 2 64)
    (h : Toml.IsBareKey key) : Toml.Line where
  key := key
  text := Nat.toDigits 10 value
  value := .int value
  bare := h
  denotes := Toml.denotes_nat (Nat.lt_trans hvalue (by decide))

/-- The sections that are written for settings. -/
def document (s : Settings) (h : s.history.maxSize < Nat.pow 2 64) : List Toml.Section :=
  [{  name := "parser"
      lines :=
        [textLine "tokenizer" s.parser.tokenizer.name (by decide),
          textLine "unknown_short_flags" s.parser.unknownShort.name (by decide),
          textLine "unknown_long_flags" s.parser.unknownLong.name (by decide)]
      bare := by decide
      nodup := by simp [textLine] },
    { name := "display"
      lines :=
        [textLine "format" s.display.format.name (by decide),
          truthLine "color_output" s.display.color (by decide),
          truthLine "show_caret" s.display.caret (by decide)]
      bare := by decide
      nodup := by simp [textLine, truthLine] },
    { name := "history"
      lines :=
        [natLine "max_size" s.history.maxSize h (by decide),
          textLine "file_path" s.history.filePath (by decide),
          truthLine "persist" s.history.persist (by decide)]
      bare := by decide
      nodup := by simp [textLine, truthLine, natLine] },
    { name := "logging"
      lines :=
        [textLine "level" s.logging.level.name (by decide),
          truthLine "timestamps" s.logging.timestamps (by decide)]
      bare := by decide
      nodup := by simp [textLine, truthLine] }]

theorem toList_line (key value : String) :
    (line key value).toList = key.toList ++ ' ' :: '=' :: ' ' :: (value.toList ++ ['\n']) := by
  simp [line]

theorem toList_quoted (text : String) : (quoted text).toList = Toml.writeString text.toList := by
  rw [quoted, String.toList_ofList]

theorem toList_truth (b : Bool) :
    (truth b).toList = if b then ['t', 'r', 'u', 'e'] else ['f', 'a', 'l', 's', 'e'] := by
  cases b <;> rfl

theorem toList_toString (n : Nat) : (toString n).toList = Nat.toDigits 10 n := by
  rw [Nat.toString_eq_ofList_toDigits, String.toList_ofList]

theorem toList_toToml (s : Settings) (h : s.history.maxSize < Nat.pow 2 64) :
    s.toToml.toList = Toml.document (s.document h) := by
  have hparser : "[parser]\n".toList = '[' :: ("parser".toList ++ [']', '\n']) := by decide
  have hdisplay : "\n[display]\n".toList = '\n' :: '[' :: ("display".toList ++ [']', '\n']) := by
    decide
  have hhistory : "\n[history]\n".toList = '\n' :: '[' :: ("history".toList ++ [']', '\n']) := by
    decide
  have hlogging : "\n[logging]\n".toList = '\n' :: '[' :: ("logging".toList ++ [']', '\n']) := by
    decide
  unfold toToml document
  simp only [String.toList_append, hparser, hdisplay, hhistory, hlogging, toList_line,
    toList_quoted, toList_truth, toList_toString, Toml.document, Toml.Section.chars,
    Toml.Line.chars, textLine, truthLine, natLine, List.flatMap_cons, List.flatMap_nil,
    List.append_assoc, List.cons_append, List.nil_append, List.append_nil]

/-! ## Reading the document -/

theorem natOf_ofNat {n : Nat} (h : n < Nat.pow 2 64) : natOf (.int n) = some n := by
  have hrange : 0 ≤ (n : Int) ∧ (n : Int) < (Nat.pow 2 64 : Nat) :=
    ⟨Int.natCast_nonneg n, Int.ofNat_lt.mpr h⟩
  rw [natOf, if_pos hrange, Int.toNat_natCast]

/-- The entries of the parser settings. -/
def parserEntries (p : ParserSettings) : Toml.Entries :=
  [("tokenizer", .str p.tokenizer.name), ("unknown_short_flags", .str p.unknownShort.name),
    ("unknown_long_flags", .str p.unknownLong.name)]

/-- The entries of the display settings. -/
def displayEntries (d : DisplaySettings) : Toml.Entries :=
  [("format", .str d.format.name), ("color_output", .bool d.color), ("show_caret", .bool d.caret)]

/-- The entries of the history settings. -/
def historyEntries (h : HistorySettings) : Toml.Entries :=
  [("max_size", .int h.maxSize), ("file_path", .str h.filePath), ("persist", .bool h.persist)]

/-- The entries of the logging settings. -/
def loggingEntries (l : LoggingSettings) : Toml.Entries :=
  [("level", .str l.level.name), ("timestamps", .bool l.timestamps)]

theorem content_document (s : Settings) (h : s.history.maxSize < Nat.pow 2 64) :
    Toml.content (s.document h) =
      [("parser", .table .header (parserEntries s.parser)),
        ("display", .table .header (displayEntries s.display)),
        ("history", .table .header (historyEntries s.history)),
        ("logging", .table .header (loggingEntries s.logging))] :=
  rfl

theorem parserOf?_entries (p std : ParserSettings) : parserOf? (parserEntries p) std = some p := by
  simp [parserOf?, parserEntries, field, OrderedMap.get?, named, Tokenizer.ofName?_name,
    UnknownFlag.ofName?_name]

theorem displayOf?_entries (d std : DisplaySettings) :
    displayOf? (displayEntries d) std = some d := by
  simp [displayOf?, displayEntries, field, OrderedMap.get?, named, boolOf,
    OutputFormat.ofName?_name]

theorem historyOf?_entries {h : HistorySettings} (hsize : h.maxSize < Nat.pow 2 64)
    (std : HistorySettings) : historyOf? (historyEntries h) std = some h := by
  simp [historyOf?, historyEntries, field, OrderedMap.get?, natOf_ofNat hsize, textOf, boolOf]

theorem loggingOf?_entries (l std : LoggingSettings) :
    loggingOf? (loggingEntries l) std = some l := by
  simp [loggingOf?, loggingEntries, field, OrderedMap.get?, named, boolOf, LogLevel.ofName?_name]

theorem bind_section? {α : Type} {es inner : Toml.Entries} {key : String} {origin : TableOrigin}
    (fields : List String) (h : es.get? key = some (.table origin inner))
    (hlegible : Toml.legibleEntries inner = true) (read : Toml.Entries → Option α) :
    (section? es key fields).bind read = read inner := by
  rw [section?, h]
  simp only [hlegible, if_true, Option.bind_some]

theorem ofEntries?_content (s std : Settings) (h : s.history.maxSize < Nat.pow 2 64) :
    ofEntries? (Toml.content (s.document h)) std = some s := by
  rw [content_document]
  generalize hes : ([("parser", .table .header (parserEntries s.parser)),
    ("display", .table .header (displayEntries s.display)),
    ("history", .table .header (historyEntries s.history)),
    ("logging", .table .header (loggingEntries s.logging))] : Toml.Entries) = es
  have hforeign : foreign es = [] := by
    subst hes
    rfl
  have hparser : (section? es "parser" parserFields).bind (parserOf? · std.parser) =
      some s.parser :=
    (bind_section? _ (by subst hes; rfl) rfl _).trans (parserOf?_entries _ _)
  have hdisplay : (section? es "display" displayFields).bind (displayOf? · std.display) =
      some s.display :=
    (bind_section? _ (by subst hes; rfl) rfl _).trans (displayOf?_entries _ _)
  have hhistory : (section? es "history" historyFields).bind (historyOf? · std.history) =
      some s.history :=
    (bind_section? _ (by subst hes; rfl) rfl _).trans (historyOf?_entries h _)
  have hlogging : (section? es "logging" loggingFields).bind (loggingOf? · std.logging) =
      some s.logging :=
    (bind_section? _ (by subst hes; rfl) rfl _).trans (loggingOf?_entries _ _)
  rw [ofEntries?, hforeign, hparser, hdisplay, hhistory, hlogging]
  rfl

/-- **Settings read back from their document,** whatever settings stand for those that are
missing. -/
theorem ofToml?_toToml (s std : Settings) (h : s.history.maxSize < Nat.pow 2 64) :
    ofToml? s.toToml std = some s := by
  have htext : s.toToml = String.ofList (Toml.document (s.document h)) := by
    rw [← toList_toToml s h, String.ofList_toList]
  have hnodup : ((s.document h).map Toml.Section.name).Nodup := by
    show ["parser", "display", "history", "logging"].Nodup
    decide
  rw [ofToml?, htext, Toml.read?_document hnodup, Option.bind_some, ofEntries?_content]

/-! ## Settings that were read -/

theorem lt_of_natOf {v : Toml} {n : Nat} (h : natOf v = some n) : n < Nat.pow 2 64 := by
  cases v with
  | int z =>
    rw [natOf] at h
    split at h
    · next hz =>
      obtain rfl := Option.some.inj h
      omega
    · cases h
  | _ => cases h

theorem maxSize_lt_of_historyOf? {es : Toml.Entries} {h std : HistorySettings}
    (hstd : std.maxSize < Nat.pow 2 64) (hread : historyOf? es std = some h) :
    h.maxSize < Nat.pow 2 64 := by
  simp only [historyOf?, Option.bind_eq_bind, Option.bind_eq_some_iff] at hread
  obtain ⟨n, hn, filePath, -, persist, -, hh⟩ := hread
  obtain rfl := Option.some.inj hh
  rw [field] at hn
  split at hn
  · obtain rfl := Option.some.inj hn
    exact hstd
  · exact lt_of_natOf hn

theorem maxSize_standard_lt (home : String) : (standard home).history.maxSize < Nat.pow 2 64 := by
  show 1000 < Nat.pow 2 64
  decide

theorem maxSize_lt_of_ofToml? {text : String} {s std : Settings}
    (hstd : std.history.maxSize < Nat.pow 2 64) (h : ofToml? text std = some s) :
    s.history.maxSize < Nat.pow 2 64 := by
  obtain ⟨es, -, hes⟩ := Option.bind_eq_some_iff.mp h
  rw [ofEntries?] at hes
  -- the sections one after another, behind the check of what is foreign
  obtain ⟨-, -, hes⟩ := Option.bind_eq_some_iff.mp hes
  obtain ⟨parser, -, hes⟩ := Option.bind_eq_some_iff.mp hes
  obtain ⟨display, -, hes⟩ := Option.bind_eq_some_iff.mp hes
  obtain ⟨history, hsection, hes⟩ := Option.bind_eq_some_iff.mp hes
  obtain ⟨logging, -, hes⟩ := Option.bind_eq_some_iff.mp hes
  obtain ⟨inner, -, hhistory⟩ := Option.bind_eq_some_iff.mp hsection
  obtain rfl := Option.some.inj hes
  exact maxSize_lt_of_historyOf? hstd hhistory

theorem ofFile_eq_ok {home path : String} {files : FileTree} {s : Settings} :
    ofFile home files path = .ok s ↔
      ∃ text, files.look path = .ok (.file text) ∧ ofToml? text (standard home) = some s := by
  rw [ofFile, FileTree.has, FileTree.read]
  cases files.look path with
  | error fault => simp
  | ok node =>
    cases node with
    | directory => simp
    | file text => cases hread : ofToml? text (standard home) <;> simp [hread]

theorem load_eq_ok {home path : String} {files : FileTree} {s : Settings} :
    load home files (some path) = .ok s ↔
      (∃ text, files.look path = .ok (.file text) ∧ ofToml? text (standard home) = some s) ∧
        s.check = .ok () := by
  rw [← ofFile_eq_ok, load]
  cases ofFile home files path with
  | error e => simp
  | ok read =>
    cases hcheck : read.check with
    | error e =>
      simp only [hcheck]
      constructor
      · intro h
        cases h
      · rintro ⟨hs, hok⟩
        cases hs
        rw [hcheck] at hok
        cases hok
    | ok _ =>
      simp only [hcheck]
      constructor
      · intro h
        cases h
        exact ⟨rfl, hcheck⟩
      · exact And.left

end Settings

namespace Program

variable {inv : Invocation} {w : World}

theorem applyOptions_idle (configFile : Option String) (command : Option Command) (s : Settings) :
    applyOptions { configFile, command } s = s := by
  simp [applyOptions, levelFor]

theorem history_applyOptions (inv : Invocation) (s : Settings) :
    (applyOptions inv s).history = s.history := rfl

theorem exists_warnFormat (inv : Invocation) (w : World) :
    ∃ stderr, warnFormat inv w = { w with stderr } := by
  rw [warnFormat]
  split
  · exact ⟨w.stderr, rfl⟩
  · split
    · exact ⟨w.stderr, rfl⟩
    · exact ⟨_, rfl⟩

theorem loadSettings_named {path : String} {read : Settings} (hpath : inv.configFile = some path)
    (hload : Settings.load w.home w.files (some path) = .ok read) :
    loadSettings inv w = (.ok (applyOptions inv read), warnFormat inv w) := by
  rw [loadSettings, hpath, hload]

theorem runConfig_write {path : String} {read : Settings} (hpath : inv.configFile = some path)
    (hload : Settings.load w.home w.files (some path) = .ok read) (s : Settings)
    (display validate : Bool) :
    ∃ shown files, runConfig inv s display validate true w = (.ok shown, { w with files }) ∧
      shown.success = true ∧ files.look path = .ok (.file s.toToml) := by
  obtain ⟨⟨old, hlook, -⟩, -⟩ := Settings.load_eq_ok.mp hload
  obtain ⟨place, hlocate, hnode, hdeep⟩ := FileTree.writeDeep_of_file s.toToml hlook
  have hsave : s.save w.files path = (.ok (), w.files.put place (.file s.toToml)) := by
    rw [Settings.save, hdeep]
  have hname : configPath inv w.home = path := by rw [configPath, hpath, Option.getD_some]
  obtain ⟨lines, hchecked⟩ :
      ∃ lines, (if validate then checkFile path w else ([], true)) = (lines, true) := by
    cases validate with
    | false => exact ⟨_, rfl⟩
    | true => exact ⟨_, by rw [if_pos rfl, checkFile, hload]⟩
  have hconfig : runConfig inv s display validate true w =
      (.ok ⟨Text.joinWith "\n" (lines ++ ["Configuration written to " ++ path] ++
        (if display || !(validate || true) then [s.toToml] else [])), true⟩,
        { w with files := w.files.put place (.file s.toToml) }) := by
    simp only [runConfig, hname, hsave, hchecked, if_true]
  exact ⟨_, _, hconfig, rfl, FileTree.look_put_self hnode hlocate⟩

theorem runCommand_write {path : String} {read : Settings} (hpath : inv.configFile = some path)
    {display validate : Bool} (hcommand : inv.command = some (.config display validate true))
    (hload : Settings.load w.home w.files (some path) = .ok read) (s : Settings) :
    ∃ w₁, runCommand inv s w = (.ok (some true), w₁) ∧
      w₁.files.look path = .ok (.file s.toToml) := by
  obtain ⟨shown, files, hconfig, hsuccess, hlook⟩ :=
    runConfig_write hpath hload s display validate
  have hemit : (emit shown { w with files }).files = files := by
    rw [emit, if_pos hsuccess]
    split <;> rfl
  refine ⟨emit shown { w with files }, ?_, by rw [hemit, hlook]⟩
  simp only [runCommand, perform, hcommand, hconfig, Except.map, hsuccess]

end Program

/-- **Settings that are written are those in force from then on.** Settings read back from their
document. Where a file that can be read is named, with any options, and the settings in force are
written to it, the command succeeds, they pass the check, and they are in force whenever the file is
named without options. -/
theorem written_settings :
    (∀ s std : Settings, s.history.maxSize < Nat.pow 2 64 →
      Settings.ofToml? s.toToml std = some s) ∧
    ∀ (inv : Invocation) (path : String) (display validate : Bool) (w : World) (read : Settings),
      inv.configFile = some path → inv.command = some (.config display validate true) →
      Settings.load w.home w.files (some path) = .ok read →
      ∃ s w₁ w₂, Program.loadSettings inv w = (.ok s, w₁) ∧
        Program.runCommand inv s w₁ = (.ok (some true), w₂) ∧ s.check = .ok () ∧
        ∀ command, Program.loadSettings { configFile := some path, command } w₂ = (.ok s, w₂) := by
  refine ⟨Settings.ofToml?_toToml, ?_⟩
  intro inv path display validate w read hpath hcommand hload
  obtain ⟨⟨old, -, hread⟩, hcheck⟩ := Settings.load_eq_ok.mp hload
  have hforce := Program.loadSettings_named hpath hload
  obtain ⟨stderr, hwarn⟩ := Program.exists_warnFormat inv w
  rw [hwarn] at hforce
  obtain ⟨w₂, hrun, hlook⟩ :=
    Program.runCommand_write (w := { w with stderr }) hpath hcommand hload
      (Program.applyOptions inv read)
  have hsize : (Program.applyOptions inv read).history.maxSize < Nat.pow 2 64 := by
    rw [Program.history_applyOptions]
    exact Settings.maxSize_lt_of_ofToml? (Settings.maxSize_standard_lt _) hread
  have hpass : (Program.applyOptions inv read).check = .ok () := by
    rw [Settings.check, Program.history_applyOptions]
    exact hcheck
  have hagain : Settings.load w₂.home w₂.files (some path) =
      .ok (Program.applyOptions inv read) :=
    Settings.load_eq_ok.mpr ⟨⟨_, hlook, Settings.ofToml?_toToml _ _ hsize⟩, hpass⟩
  refine ⟨_, _, w₂, hforce, hrun, hpass, fun command => ?_⟩
  rw [Program.loadSettings_named rfl hagain, Program.applyOptions_idle]
  rfl

/-- A history file whose name has quotes of both kinds, a backslash, a line break and a control
character, with options on top of the settings. -/
theorem written_settings_odd_name :
    let text := "history.file_path = \"a\\\"'\\\\b\\nc\\u0001\" # a name\n[logging]\n"
    let w : World := { home := "/home/u", files := { nodes := [(["c.toml"], .file text)] } }
    let inv : Invocation :=
      { configFile := some "/./c.toml", tokenizer := some .raw, noColor := true, verbose := true
        command := some (.config false true true) }
    let read : Settings := { history := { filePath := "a\"'\\b\nc\x01" } }
    Settings.ofToml? read.toToml (.standard w.home) = some read ∧
      Settings.load w.home w.files (some "/./c.toml") = .ok read ∧
      ∃ s w₁ w₂, Program.loadSettings inv w = (.ok s, w₁) ∧
        Program.runCommand inv s w₁ = (.ok (some true), w₂) ∧ s.check = .ok () ∧
        ∀ command,
          Program.loadSettings { configFile := some "/./c.toml", command } w₂ = (.ok s, w₂) := by
  intro text w inv read
  have hread : Settings.ofToml? text (.standard w.home) = some read := by decide +kernel
  have hload : Settings.load w.home w.files (some "/./c.toml") = .ok read :=
    Settings.load_eq_ok.mpr ⟨⟨text, rfl, hread⟩, rfl⟩
  exact ⟨written_settings.1 read _ (by decide), hload,
    written_settings.2 inv "/./c.toml" false true w read rfl rfl hload⟩

end ArgGrammar
