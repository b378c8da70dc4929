import ArgGrammar.Text.Range

/-!
# White space

- `isBlank`: the Unicode property White_Space, 25 characters.
- `trimStart`, `trim`: a text without the white space at its ends.
-/

namespace ArgGrammar.Text

/-- The characters with the property White_Space, in increasing order. -/
def blankRanges : List Range :=
  [(0x9, 0xD), (0x20, 0x20), (0x85, 0x85), (0xA0, 0xA0), (0x1680, 0x1680), (0x2000, 0x200A),
   (0x2028, 0x2029), (0x202F, 0x202F), (0x205F, 0x205F), (0x3000, 0x3000)]

/-- Whether `c` is white space. -/
def isBlank (c : Char) : Bool := inRanges blankRanges c

/-- `s` without its leading white space. -/
def trimStart (s : String) : String := String.ofList (s.toList.dropWhile isBlank)

/-- `s` without the white space at either end. -/
def trim (s : String) : String :=
  String.ofList ((s.toList.dropWhile isBlank).reverse.dropWhile isBlank).reverse

end ArgGrammar.Text
