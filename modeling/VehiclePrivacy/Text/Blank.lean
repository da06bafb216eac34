/-!
# Blank characters and trimming

Which characters count as blank around a number, a key or a list item, and how text is freed of
them. The table is Unicode's White_Space property: it is wider than the blanks of a JSON text, and
wider than `Char.isWhitespace`, which it contains.
-/

namespace VehiclePrivacy.Text

/-- The characters with Unicode's White_Space property, twenty-five in all. -/
def isBlank (c : Char) : Bool :=
  let n := c.toNat
  (0x09 ≤ n && n ≤ 0x0D) || n == 0x20 || n == 0x85 || n == 0xA0 || n == 0x1680 ||
    (0x2000 ≤ n && n ≤ 0x200A) || n == 0x2028 || n == 0x2029 || n == 0x202F || n == 0x205F ||
    n == 0x3000

/-- `s` without the characters at its end that satisfy `p`. -/
def dropEndWhile (p : Char → Bool) (s : List Char) : List Char :=
  (s.reverse.dropWhile p).reverse

/-- A list of characters without the blanks at either end. -/
def trimChars (s : List Char) : List Char :=
  dropEndWhile isBlank (s.dropWhile isBlank)

/-- A text without the blanks at either end. -/
def trim (s : String) : String :=
  String.ofList (trimChars s.toList)

/-- The pieces between the characters equal to `sep`, one more than there are of those. -/
def cut (sep : Char) (s : List Char) : List (List Char) :=
  s.foldr (fun c pieces =>
    if c = sep then [] :: pieces
    else match pieces with
      | [] => [[c]]
      | piece :: more => (c :: piece) :: more) [[]]

/-- The lines of a text, each trimmed. -/
def trimmedLines (s : String) : List (List Char) :=
  (cut '\n' s.toList).map trimChars

/-- The lines of a text that say something: trimmed, not blank, and no `#` comment. -/
def contentLines (s : String) : List (List Char) :=
  (trimmedLines s).filter fun line => !line.isEmpty && line.head? != some '#'

/-- The items of a comma-separated list: trimmed, blank ones left out. -/
def listItems (s : String) : List String :=
  (((cut ',' s.toList).map trimChars).filter (!·.isEmpty)).map String.ofList

end VehiclePrivacy.Text
