/-!
# Maps in order of first insertion

- `OrderedMap`: keys with their values, in the order in which the keys first came.
- `OrderedMap.insert`: a new key goes to the end, a known one keeps its place and takes the new
  value.
- `OrderedMap.get?`, `OrderedMap.keys`, `OrderedMap.ofList`.
-/

namespace ArgGrammar

/-- Keys with their values, in the order in which the keys first came. -/
abbrev OrderedMap (α β : Type) := List (α × β)

namespace OrderedMap

variable {α β : Type} [DecidableEq α]

/-- The value under a key. -/
def get? (m : OrderedMap α β) (k : α) : Option β :=
  match m with
  | [] => none
  | (k', v) :: rest => if k' = k then some v else get? rest k

/-- Sets the value under a key, which keeps its place if it has one. -/
def insert (m : OrderedMap α β) (k : α) (v : β) : OrderedMap α β :=
  match m with
  | [] => [(k, v)]
  | (k', v') :: rest => if k' = k then (k', v) :: rest else (k', v') :: insert rest k v

/-- The keys in order. -/
def keys (m : OrderedMap α β) : List α := m.map Prod.fst

/-- The map that holds the pairs of a list, the last one of each key. -/
def ofList (pairs : List (α × β)) : OrderedMap α β :=
  pairs.foldl (fun m p => insert m p.1 p.2) []

theorem get?_insert_self (m : OrderedMap α β) (k : α) (v : β) : (m.insert k v).get? k = some v := by
  induction m with
  | nil => simp [insert, get?]
  | cons p rest ih => by_cases h : p.1 = k <;> simp [insert, get?, h, ih]

theorem get?_insert_of_ne (m : OrderedMap α β) {k k' : α} (v : β) (h : k ≠ k') :
    (m.insert k v).get? k' = m.get? k' := by
  induction m with
  | nil => simp [insert, get?, h]
  | cons p rest ih =>
    obtain ⟨a, b⟩ := p
    by_cases hp : a = k
    · subst hp; simp [insert, get?, h]
    · by_cases hp' : a = k' <;> simp_all [insert, get?]

theorem keys_insert (m : OrderedMap α β) (k : α) (v : β) :
    (m.insert k v).keys = if k ∈ m.keys then m.keys else m.keys ++ [k] := by
  induction m with
  | nil => simp [insert, keys]
  | cons p rest ih =>
    unfold keys at ih
    by_cases h : p.1 = k
    · simp [insert, keys, h]
    · simp only [insert, h, if_false, keys, List.map_cons, ih, List.mem_cons]
      have : ¬ k = p.1 := fun e => h e.symm
      simp only [this, false_or]
      split <;> simp

end OrderedMap

end ArgGrammar
