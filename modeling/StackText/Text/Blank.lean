/-! The characters that separate words, and trimming them from the ends of a text. -/

namespace StackText.Text

/-- (isBlank c) holds of every white-space character of Unicode and of the four information
separators U+001C to U+001F. The zero-width characters and the byte order mark are not blank.
-/
def isBlank (c : Char) : Bool :=
  let n := c.toNat
  (0x9 ≤ n && n ≤ 0xD) || (0x1C ≤ n && n ≤ 0x20) || n == 0x85 || n == 0xA0 || n == 0x1680
    || (0x2000 ≤ n && n ≤ 0x200A) || n == 0x2028 || n == 0x2029 || n == 0x202F || n == 0x205F
    || n == 0x3000

/-- Removes from both ends the characters of a class. -/
def trimBy (drop : Char → Bool) (text : List Char) : List Char :=
  ((text.dropWhile drop).reverse.dropWhile drop).reverse

/-- Removes the blanks at both ends. -/
def trim (text : String) : String :=
  String.ofList (trimBy isBlank text.toList)

end StackText.Text
