/-!
# Byte offsets in UTF-8

Positions in a line are counted in the bytes of its UTF-8 form. They are computed from the sizes of
characters, so that every offset met here is the size of some leading run of characters.

- `byteSize`: the number of bytes that a run of characters takes.
- `takeBytes`, `dropBytes`: the characters that fit in a number of bytes, and the others.
- `size`, `upTo`, `startingAt`, `slice`: the same for texts.
-/

namespace ArgGrammar.Text

/-- The number of bytes that `cs` takes in UTF-8. -/
def byteSize : List Char → Nat
  | [] => 0
  | c :: cs => c.utf8Size + byteSize cs

/-- The longest leading run of `cs` that fits in `n` bytes. -/
def takeBytes : Nat → List Char → List Char
  | _, [] => []
  | n, c :: cs => if c.utf8Size ≤ n then c :: takeBytes (n - c.utf8Size) cs else []

/-- What is left of `cs` after the longest leading run that fits in `n` bytes. -/
def dropBytes : Nat → List Char → List Char
  | _, [] => []
  | n, c :: cs => if c.utf8Size ≤ n then dropBytes (n - c.utf8Size) cs else c :: cs

@[simp] theorem byteSize_append (u v : List Char) :
    byteSize (u ++ v) = byteSize u + byteSize v := by
  induction u with
  | nil => simp [byteSize]
  | cons c u ih => simp [byteSize, ih, Nat.add_assoc]

@[simp] theorem takeBytes_append_dropBytes (n : Nat) (cs : List Char) :
    takeBytes n cs ++ dropBytes n cs = cs := by
  induction cs generalizing n with
  | nil => rfl
  | cons c cs ih => by_cases h : c.utf8Size ≤ n <;> simp [takeBytes, dropBytes, h, ih]

theorem byteSize_takeBytes_le (n : Nat) (cs : List Char) : byteSize (takeBytes n cs) ≤ n := by
  induction cs generalizing n with
  | nil => simp [takeBytes, byteSize]
  | cons c cs ih =>
    by_cases h : c.utf8Size ≤ n
    · have := ih (n - c.utf8Size)
      simp only [takeBytes, h, if_true, byteSize]; omega
    · simp [takeBytes, h, byteSize]

@[simp] theorem takeBytes_byteSize_append (u v : List Char) :
    takeBytes (byteSize u) (u ++ v) = u := by
  induction u with
  | nil =>
    cases v with
    | nil => rfl
    | cons c v =>
      have : 0 < c.utf8Size := Char.utf8Size_pos c
      simp [takeBytes, byteSize]; omega
  | cons c u ih => simp [takeBytes, byteSize, ih]

@[simp] theorem dropBytes_byteSize_append (u v : List Char) :
    dropBytes (byteSize u) (u ++ v) = v := by
  have h := takeBytes_append_dropBytes (byteSize u) (u ++ v)
  rw [takeBytes_byteSize_append] at h
  exact List.append_cancel_left h

/-- The number of bytes of a text. -/
def size (s : String) : Nat := byteSize s.toList

/-- The longest leading part of `s` that fits in `n` bytes. -/
def upTo (n : Nat) (s : String) : String := String.ofList (takeBytes n s.toList)

/-- The text from byte `n` of `s` on. -/
def startingAt (n : Nat) (s : String) : String := String.ofList (dropBytes n s.toList)

/-- The bytes `start` to `stop` of `s`. -/
def slice (start stop : Nat) (s : String) : String :=
  String.ofList (takeBytes (stop - start) (dropBytes start s.toList))

end ArgGrammar.Text
