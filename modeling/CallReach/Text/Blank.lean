/-!
# Blank characters and words

The characters that separate the words of a type spelling, and the cutting of
a text into words.  The set is that of Unicode white space together with the
four information separators, so it is wider than `Char.isWhitespace`.
-/

namespace CallReach.Text

/-- A character that separates words. -/
def isBlank (c : Char) : Bool :=
  let n := c.toNat
  (0x09 ≤ n && n ≤ 0x0D) || (0x1C ≤ n && n ≤ 0x20) || n == 0x85 || n == 0xA0 ||
    n == 0x1680 || (0x2000 ≤ n && n ≤ 0x200A) || n == 0x2028 || n == 0x2029 ||
    n == 0x202F || n == 0x205F || n == 0x3000

/-- One of the information separators U+001C to U+001F.  They separate words
but are not ignored around a number. -/
def isSeparator (c : Char) : Bool :=
  0x1C ≤ c.toNat && c.toNat ≤ 0x1F

/-- The maximal runs of characters that are not blank, from left to right. -/
def words : List Char → List (List Char)
  | [] => []
  | c :: rest =>
      if isBlank c then words rest
      else (c :: rest.takeWhile (!isBlank ·)) :: words (rest.dropWhile (!isBlank ·))
termination_by text => text.length
decreasing_by
  · simp
  · have := (List.dropWhile_sublist (!isBlank ·) (l := rest)).length_le
    simp only [List.length_cons]
    omega

/-- Words joined by single spaces. -/
def unwords (ws : List (List Char)) : List Char :=
  List.intercalate [' '] ws

/-- A text without the characters of a class at both ends. -/
def trim (drop : Char → Bool) (text : List Char) : List Char :=
  ((text.dropWhile drop).reverse.dropWhile drop).reverse

end CallReach.Text
