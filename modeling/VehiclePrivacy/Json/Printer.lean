import VehiclePrivacy.Json.Basic
import VehiclePrivacy.Decimal.Notation

/-!
# Writing a value as text

The compact form: no blanks, members in their order, integers in decimal and doubles with the fewest
digits that read back. In a string only the quote, the backslash and the control characters below
the space are escaped.
-/

namespace VehiclePrivacy.Json

/-- A lower-case hexadecimal digit. -/
def hexDigit (n : Nat) : Char := Nat.digitChar (n % 16)

/-- A character of a string. -/
def escapeChar (c : Char) : List Char :=
  match c with
  | '"' => ['\\', '"']
  | '\\' => ['\\', '\\']
  | '\x08' => ['\\', 'b']
  | '\t' => ['\\', 't']
  | '\n' => ['\\', 'n']
  | '\x0c' => ['\\', 'f']
  | '\r' => ['\\', 'r']
  | c =>
    if c.toNat < 0x20 then ['\\', 'u', '0', '0', hexDigit (c.toNat / 16), hexDigit c.toNat] else [c]

/-- A string in quotes. -/
def quote (s : String) : List Char := '"' :: s.toList.flatMap escapeChar ++ ['"']

/-- An integer in decimal. -/
def integerChars (i : Int) : List Char :=
  (if i < 0 then ['-'] else []) ++ Nat.toDigits 10 i.natAbs

/-- A scalar as text. -/
def scalarChars : Scalar → List Char
  | .null => ['n', 'u', 'l', 'l']
  | .bool true => ['t', 'r', 'u', 'e']
  | .bool false => ['f', 'a', 'l', 's', 'e']
  | .number (.integer i) => integerChars i
  | .number (.real x) => Decimal.Notation.json.chars x
  | .string s => quote s

mutual

/-- The characters of a value. -/
def chars : Json → List Char
  | .scalar s => scalarChars s
  | .array [] => ['[', ']']
  | .array (v :: rest) => '[' :: chars v ++ itemChars rest
  | .object [] => ['\x7b', '\x7d']
  | .object ((n, v) :: rest) => '\x7b' :: quote n ++ ':' :: chars v ++ memberChars rest

/-- The items after the first one, and the closing bracket. -/
def itemChars : List Json → List Char
  | [] => [']']
  | v :: rest => ',' :: chars v ++ itemChars rest

/-- The members after the first one, and the closing brace. -/
def memberChars : List (String × Json) → List Char
  | [] => ['\x7d']
  | (n, v) :: rest => ',' :: quote n ++ ':' :: chars v ++ memberChars rest

end

/-- A value as text. -/
def render (v : Json) : String := String.ofList v.chars

/-- A scalar as text. -/
def scalarText (s : Scalar) : String := String.ofList (scalarChars s)

end VehiclePrivacy.Json
