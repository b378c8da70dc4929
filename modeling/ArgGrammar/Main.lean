import ArgGrammar.Program

/-!
# The program at work

Reads the files that the command line names, runs the program on them, and writes what it shows and
what it changed. The shell then takes line after line.

- `AtWork.lookAt`, `AtWork.snapshot`: what is in the file system.
- `AtWork.store`: brings the file system up to date.
- `AtWork.converse`: the shell.
-/

namespace ArgGrammar.AtWork

/-- The path of a place. -/
def placePath (place : List String) : String := pathOf true (place.map .down)

/-- The places on the way of steps from another place, whatever is there. -/
def placesOn (place : List String) : List PathStep → List (List String)
  | [] => []
  | .stay :: steps => placesOn place steps
  | .up :: steps => placesOn place.dropLast steps
  | .down name :: steps => (place ++ [name]) :: placesOn (place ++ [name]) steps

/-- Adds what is at a place of the file system, if its directory is known. What cannot be read as a
text counts as a directory. -/
def lookAt (t : FileTree) (place : List String) : IO FileTree := do
  if t.node? place.dropLast = some .directory then
    try
      return t.put place (.file (← IO.FS.readFile (placePath place)))
    catch e =>
      match e with
      | .noFileOrDirectory .. => return t
      | _ => return t.put place .directory
  else return t

/-- Adds what a path leads through, as it is in the file system. -/
def snapshot (path : String) (t : FileTree) : IO FileTree := do
  if (pathFault? path).isSome then return t
  (placesOn (if isRooted path then [] else t.start) (pathSteps path)).foldlM lookAt t

/-- The files before anything was looked at: the directories around the current one. -/
def blank : IO FileTree := do
  let steps := pathSteps (← IO.currentDir).toString
  let places := placesOn [] steps
  let t := places.foldl (fun t place => t.put place .directory) FileTree.empty
  return { t with start := places.getLast?.getD [] }

/-- Writes what has changed. -/
def store (old new : FileTree) : IO Unit := do
  for (place, node) in new.nodes do
    if old.node? place ≠ some node then
      match node with
      | .directory => IO.FS.createDirAll (placePath place)
      | .file text => IO.FS.writeFile (placePath place) text

/-- Shows what a line leads to, and whether the shell goes on. -/
def reply (e : Shell.Evaluation) : IO Bool := do
  match e with
  | .empty => return true
  | .exit => return false
  | .output text => IO.println text; return true
  | .failed text => IO.eprintln text; return true

/-- Takes line after line until the input or the user ends the shell. -/
partial def converse (parser : Parser) (formatter : Formatter) (stdin : IO.FS.Stream) :
    IO Unit := do
  IO.print (Shell.promptLeft parser.tokenizer)
  (← IO.getStdout).flush
  let line ← stdin.getLine
  if line.isEmpty then return
  if ← reply (Shell.evaluate parser formatter ((Text.lines line).headD "")) then
    converse parser formatter stdin

/-- Runs the shell with the history file at hand. -/
def runShell (inv : Invocation) (s : Settings) : IO UInt32 := do
  if s.history.persist then
    let old ← snapshot s.history.filePath (← blank)
    store old (Shell.openHistory s.history old)
  let stdin ← IO.getStdin
  if ← stdin.isTty then
    converse (Demo.parser s.parser) (.ofSettings s.display) stdin
    unless inv.quiet do
      IO.println "Goodbye!"
    return 0
  else
    IO.eprintln ("Error: " ++ Program.noTerminal.message)
    return 1

end ArgGrammar.AtWork

open ArgGrammar in
/-- Runs the program on the words of the command line. -/
def main (words : List String) : IO UInt32 := do
  let home := (← IO.getEnv "HOME").getD "."
  let path :=
    match Invocation.read words with
    | .ok inv => Program.configPath inv home
    | .error _ => Settings.defaultPath home
  let files ← AtWork.snapshot path (← AtWork.blank)
  let (next, w) := Program.run words { home, files }
  IO.print w.stdout
  IO.eprint w.stderr
  AtWork.store files w.files
  match next with
  | .exit code => return code.toUInt32
  | .shell inv s => AtWork.runShell inv s
