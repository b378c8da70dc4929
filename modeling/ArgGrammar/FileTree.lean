import ArgGrammar.OrderedMap
import ArgGrammar.Text.Bytes
import ArgGrammar.Text.Lines

/-!
# Files and directories

A file tree is a list of places with what is there. A place is the list of names that lead to it
from the root, which is always a directory. A path is a text, and to follow it is to go from
directory to directory: each part needs the directory in front of it to be there, also when the part
goes back up.

- `FileTree`: the files and directories.
- `FileFault`: why an operation on files failed.
- `PathStep`, `pathSteps`, `fileSteps`, `parentSteps`: the parts of a path.
- `FileTree.follow`, `FileTree.locate`: the place to which steps and paths lead.
- `FileTree.read`, `FileTree.edit`, `FileTree.write`: operations on files.
- `FileTree.makeDir`, `FileTree.makeParents`, `FileTree.writeDeep`: operations that make
  directories.
-/

namespace ArgGrammar

/-- What is at a place. -/
inductive FileNode where
  | file (text : String)
  | directory
  deriving DecidableEq, Repr

/-- Files and directories by place. -/
structure FileTree where
  /-- The places with what is there. -/
  nodes : OrderedMap (List String) FileNode
  /-- The directory from which relative paths start. -/
  start : List String := []
  deriving DecidableEq, Repr

/-- Why an operation on files failed. -/
inductive FileFault where
  /-- There is nothing at the path. -/
  | notFound
  /-- There is something at the path already. -/
  | alreadyExists
  /-- A directory is needed where there is a file. -/
  | notADirectory
  /-- A file is needed where there is a directory. -/
  | isADirectory
  /-- The path, or one of its names, is too long. -/
  | nameTooLong
  /-- The path has a character that no path can have. -/
  | invalidName
  deriving DecidableEq, Repr

/-- The wording of a fault. -/
def FileFault.message : FileFault → String
  | .notFound => "No such file or directory (os error 2)"
  | .alreadyExists => "File exists (os error 17)"
  | .notADirectory => "Not a directory (os error 20)"
  | .isADirectory => "Is a directory (os error 21)"
  | .nameTooLong => "File name too long (os error 36)"
  | .invalidName => "file name contained an unexpected NUL byte"

/-! ## Paths -/

/-- The runs of characters between slashes. -/
def splitSlashes : List Char → List (List Char)
  | [] => [[]]
  | '/' :: cs => [] :: splitSlashes cs
  | c :: cs =>
    match splitSlashes cs with
    | [] => [[c]]
    | part :: parts => (c :: part) :: parts

/-- What a part of a path asks for. -/
inductive PathStep where
  /-- To stay in the directory. -/
  | stay
  /-- To go to the directory around it. -/
  | up
  /-- To go to what has a name in it. -/
  | down (name : String)
  deriving DecidableEq, Repr

/-- The step that a part of a path asks for; an empty part says nothing. -/
def PathStep.ofPart? (part : String) : Option PathStep :=
  if part = "" then none
  else if part = "." then some .stay
  else if part = ".." then some .up
  else some (.down part)

/-- The text of a step. -/
def PathStep.text : PathStep → String
  | .stay => "."
  | .up => ".."
  | .down name => name

/-- The steps of a path. -/
def pathSteps (path : String) : List PathStep :=
  ((splitSlashes path.toList).map String.ofList).filterMap PathStep.ofPart?

/-- Whether a path starts at the root. -/
def isRooted (path : String) : Bool := path.toList.head? = some '/'

/-- Whether a path ends in a slash, so that it can only lead to a directory. -/
def endsInSlash (path : String) : Bool := path.toList.getLast? = some '/'

/-- The steps to a file that is to be written. With a slash at its end, a path only leads to the
directory around its last part, in which it names no file. -/
def fileSteps (path : String) : List PathStep :=
  if endsInSlash path then (pathSteps path).dropLast ++ [.stay] else pathSteps path

/-- The path of some steps. -/
def pathOf (rooted : Bool) (steps : List PathStep) : String :=
  (if rooted then "/" else "") ++ Text.joinWith "/" (steps.map PathStep.text)

/-- The steps that lead to the directory of a path: those in front of the last one that moves. -/
def parentSteps (path : String) : List PathStep :=
  ((pathSteps path).filter (· ≠ .stay)).dropLast

/-- The most bytes that a name may have. -/
def maxName : Nat := 255

/-- The most bytes that a path may have. -/
def maxPath : Nat := 4095

/-- What is wrong with a path, whatever files there are. -/
def pathFault? (path : String) : Option FileFault :=
  if path = "" then some .notFound
  else if path.toList.any (·.toNat = 0) then some .invalidName
  else if maxPath < Text.size path then some .nameTooLong
  else none

namespace FileTree

/-! ## Places -/

/-- The tree with nothing in it. -/
def empty : FileTree := { nodes := [] }

/-- What is at a place. -/
def node? (t : FileTree) (place : List String) : Option FileNode :=
  if place.isEmpty then some .directory else t.nodes.get? place

/-- Puts a node at a place. -/
def put (t : FileTree) (place : List String) (node : FileNode) : FileTree :=
  { t with nodes := t.nodes.insert place node }

/-- The place to which steps lead from another. There may be nothing at their end, but each step is
taken in a directory. -/
def follow (t : FileTree) (place : List String) : List PathStep → Except FileFault (List String)
  | [] => .ok place
  | step :: steps =>
    match t.node? place, step with
    | none, _ => .error .notFound
    | some (.file _), _ => .error .notADirectory
    | some .directory, .stay => follow t place steps
    | some .directory, .up => follow t place.dropLast steps
    | some .directory, .down name =>
      if maxName < Text.size name then .error .nameTooLong
      else follow t (place ++ [name]) steps

/-- The place to which a path with some steps leads. -/
def locateBy (t : FileTree) (path : String) (steps : List PathStep) :
    Except FileFault (List String) :=
  match pathFault? path with
  | some fault => .error fault
  | none => t.follow (if isRooted path then [] else t.start) steps

/-- The place to which a path leads. A slash at its end asks to stay in a directory. -/
def locate (t : FileTree) (path : String) : Except FileFault (List String) :=
  t.locateBy path (pathSteps path ++ if endsInSlash path then [.stay] else [])

/-- What is at a path. -/
def look (t : FileTree) (path : String) : Except FileFault FileNode :=
  match t.locate path with
  | .error fault => .error fault
  | .ok place =>
    match t.node? place with
    | none => .error .notFound
    | some node => .ok node

/-- Whether there is anything at a path. -/
def has (t : FileTree) (path : String) : Bool :=
  match t.look path with
  | .ok _ => true
  | .error _ => false

/-- Whether there is a directory at a path. -/
def hasDir (t : FileTree) (path : String) : Bool :=
  match t.look path with
  | .ok .directory => true
  | _ => false

/-! ## Files -/

/-- The text of a file. -/
def read (t : FileTree) (path : String) : Except FileFault String :=
  match t.look path with
  | .error fault => .error fault
  | .ok .directory => .error .isADirectory
  | .ok (.file text) => .ok text

/-- Changes the text of a file, whose directory has to be there; a file that is missing starts
empty. -/
def edit (t : FileTree) (path : String) (f : String → String) : Except FileFault FileTree :=
  match t.locateBy path (fileSteps path) with
  | .error fault => .error fault
  | .ok place =>
    match t.node? place with
    | none => .ok (t.put place (.file (f "")))
    | some (.file text) => .ok (t.put place (.file (f text)))
    | some .directory => .error .isADirectory

/-- Writes a text to a file, whose directory has to be there. -/
def write (t : FileTree) (path : String) (text : String) : Except FileFault FileTree :=
  t.edit path fun _ => text

/-! ## Directories -/

/-- Makes a directory in one that is there. -/
def makeDir (t : FileTree) (path : String) : Except FileFault FileTree :=
  match t.locateBy path (pathSteps path) with
  | .error fault => .error fault
  | .ok place =>
    match t.node? place with
    | none => .ok (t.put place .directory)
    | some _ => .error .alreadyExists

/-- Makes the directory at the end of steps, which are given from the last to the first. If its own
directory is missing, that one is made before. What was made stays when a later one fails. -/
def makeDirs (t : FileTree) (rooted : Bool) : List PathStep → Except FileFault Unit × FileTree
  | [] => (.ok (), t)
  | step :: steps =>
    let path := pathOf rooted (step :: steps).reverse
    let finish (t : FileTree) : Except FileFault Unit × FileTree :=
      match t.makeDir path with
      | .ok t => (.ok (), t)
      | .error fault => (if t.hasDir path then .ok () else .error fault, t)
    match t.makeDir path with
    | .error .notFound =>
      match makeDirs t rooted steps with
      | (.error fault, t) => (.error fault, t)
      | (.ok _, t) => finish t
    | _ => finish t

/-- Makes the directory of a path. -/
def makeParents (t : FileTree) (path : String) : Except FileFault Unit × FileTree :=
  t.makeDirs (isRooted path) (parentSteps path).reverse

/-- Writes a text to a file after making its directory. -/
def writeDeep (t : FileTree) (path : String) (text : String) : Except FileFault Unit × FileTree :=
  match t.makeParents path with
  | (.error fault, t) => (.error fault, t)
  | (.ok _, t) =>
    match t.write path text with
    | .ok t => (.ok (), t)
    | .error fault => (.error fault, t)

end FileTree

end ArgGrammar
