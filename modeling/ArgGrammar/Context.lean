import ArgGrammar.Value

/-!
# What a parse records

- `Context`: keys in order of first writing, each with its values in order of writing.
- `Context.put`: appends a value under a key.
- `Context.mark`, `Context.rollback`: the lengths at a moment, and the way back to them.
- `Context.all`, `Context.one?`, `Context.requireOne`, `Context.getOne`, …: queries.
- `ContextError`: why a query has no answer.
-/

namespace ArgGrammar

/-- The values recorded so far, by key. -/
structure Context where
  /-- The keys in order of first writing, with their values in order of writing. -/
  entries : List (String × List Value)
  deriving DecidableEq, Repr

/-- The lengths of the entries of a context at some moment. -/
structure Mark where
  /-- The number of values under each key, in the order of the keys. -/
  lengths : List Nat
  deriving DecidableEq, Repr

/-- Why a query on a context has no answer. -/
inductive ContextError where
  /-- Nothing is recorded under the key. -/
  | missing (key : String)
  /-- Several values are recorded where one is wanted. -/
  | ambiguous (key : String) (count : Nat)
  /-- The value does not have the form that is wanted. -/
  | typeMismatch (key : String) (expected : Value.Form)
  deriving DecidableEq, Repr

/-- The wording of a context error. -/
def ContextError.message : ContextError → String
  | .missing key => "No value recorded for '" ++ key ++ "'"
  | .ambiguous key count =>
    "Expected one value for '" ++ key ++ "', found " ++ toString count
  | .typeMismatch key expected => "Value for '" ++ key ++ "' is not of type " ++ expected.name

namespace Context

/-- The context in which nothing is recorded. -/
def empty : Context := ⟨[]⟩

/-- Appends `v` under `key` to a list of entries. -/
def putEntry (key : String) (v : Value) : List (String × List Value) → List (String × List Value)
  | [] => [(key, [v])]
  | (k, vs) :: rest => if k = key then (k, vs ++ [v]) :: rest else (k, vs) :: putEntry key v rest

/-- Appends a value under a key. -/
def put (c : Context) (key : String) (v : Value) : Context := ⟨putEntry key v c.entries⟩

/-- The keys in order of first writing. -/
def keys (c : Context) : List String := c.entries.map Prod.fst

/-- The number of keys. -/
def size (c : Context) : Nat := c.entries.length

/-- All values under a key, in order of writing. -/
def all (c : Context) (key : String) : List Value := (c.entries.lookup key).getD []

/-- The number of values under a key. -/
def count (c : Context) (key : String) : Nat := (c.all key).length

/-- Whether anything is recorded under a key. -/
def hasAny (c : Context) (key : String) : Bool := !(c.all key).isEmpty

/-- The first value under a key. -/
def first? (c : Context) (key : String) : Option Value := (c.all key).head?

/-- The value under a key, if there is exactly one. -/
def one? (c : Context) (key : String) : Option Value :=
  match c.all key with
  | [v] => some v
  | _ => none

/-- The value under a key, or why there is not exactly one. -/
def requireOne (c : Context) (key : String) : Except ContextError Value :=
  match c.all key with
  | [] => .error (.missing key)
  | [v] => .ok v
  | vs => .error (.ambiguous key vs.length)

/-- The one value under a key, in a given form. -/
def getOne (c : Context) (key : String) (form : Value.Form) : Except ContextError Value :=
  match c.requireOne key with
  | .error e => .error e
  | .ok v =>
    match v.as? form with
    | some w => .ok w
    | none => .error (.typeMismatch key form)

/-- The first value under a key, if it has the given form. -/
def getFirst? (c : Context) (key : String) (form : Value.Form) : Option Value :=
  (c.first? key).bind (·.as? form)

/-- The values under a key that have the given form. -/
def getAll (c : Context) (key : String) (form : Value.Form) : List Value :=
  (c.all key).filterMap (·.as? form)

/-- What the one value under a key holds, if it is a foreign one. -/
def onePayload? (c : Context) (key : String) : Option String := (c.one? key).bind (·.payload?)

/-- The lengths of the entries now. -/
def mark (c : Context) : Mark := ⟨c.entries.map (·.2.length)⟩

/-- Drops what was written since the mark: later keys, and later values of older keys. -/
def rollback (c : Context) (m : Mark) : Context :=
  ⟨c.entries.zipWith (fun e n => (e.1, e.2.take n)) m.lengths⟩

/-- Whether two lists of values are equal as a program sees it. -/
def sameValues : List Value → List Value → Bool
  | [], [] => true
  | v :: vs, w :: ws => v.same w && sameValues vs ws
  | _, _ => false

/-- Equality as a program sees it: the order of the keys does not count. -/
def same (c d : Context) : Bool :=
  c.size == d.size &&
    c.entries.all fun e =>
      match d.entries.lookup e.1 with
      | some vs => sameValues e.2 vs
      | none => false

/-- A context as a JSON object of lists. -/
def toJson (c : Context) : Json := .obj (c.entries.map fun e => (e.1, .arr (e.2.map Value.toJson)))

@[simp] theorem rollback_mark (c : Context) : c.rollback c.mark = c := by
  obtain ⟨entries⟩ := c
  simp only [rollback, mark, Context.mk.injEq]
  induction entries with
  | nil => rfl
  | cons e rest ih => simp_all

end Context

end ArgGrammar
