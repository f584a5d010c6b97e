/-
  LinearTime.Text.Blank — white space, control characters, trimming.

  The blank characters are those with the Unicode property White_Space, the
  control characters those of category Cc.  Texts are lists of characters.

  Core only.
-/

namespace LinearTime.Text

/-- The characters with the Unicode property White_Space. -/
def isBlank (c : Char) : Bool :=
  let n := c.toNat
  (0x09 ≤ n && n ≤ 0x0D) || n == 0x20 || n == 0x85 || n == 0xA0 || n == 0x1680
    || (0x2000 ≤ n && n ≤ 0x200A) || n == 0x2028 || n == 0x2029 || n == 0x202F
    || n == 0x205F || n == 0x3000

/-- The characters of category Cc. -/
def isControl (c : Char) : Bool :=
  c.toNat ≤ 0x1F || (0x7F ≤ c.toNat && c.toNat ≤ 0x9F)

/-- Drops the blanks at the start. -/
def trimStart (cs : List Char) : List Char := cs.dropWhile isBlank

/-- Drops the blanks at the end. -/
def trimEnd (cs : List Char) : List Char := (cs.reverse.dropWhile isBlank).reverse

/-- Drops the blanks at both ends. -/
def trim (cs : List Char) : List Char := trimEnd (trimStart cs)

/-- Puts a character in front of the first piece, or starts a new piece if it
    is the separator. -/
def addToPieces (sep c : Char) : List (List Char) → List (List Char)
  | [] => [[c]]
  | piece :: pieces => if c = sep then [] :: piece :: pieces else (c :: piece) :: pieces

/-- The pieces between the separators: one more than there are separators. -/
def splitOn (sep : Char) (cs : List Char) : List (List Char) :=
  cs.foldr (addToPieces sep) [[]]

/-- What stands before and after the first separator, if there is one. -/
def splitFirst? (sep : Char) : List Char → Option (List Char × List Char)
  | [] => none
  | c :: cs =>
    if c = sep then some ([], cs)
    else (splitFirst? sep cs).map (fun (before, after) => (c :: before, after))

/-- Removes the text `start` from the front, if it is there. -/
def stripStart? : (start : List Char) → List Char → Option (List Char)
  | [], cs => some cs
  | _ :: _, [] => none
  | s :: start, c :: cs => if s = c then stripStart? start cs else none

end LinearTime.Text
