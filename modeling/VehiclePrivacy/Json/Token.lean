import VehiclePrivacy.Json.Numeral

/-!
# Tokens of a JSON text

What the scanner hands to the readers. A text that cannot be cut into tokens any further ends in
one broken token, and that token still says what is wrong with it, because two readers may judge it
differently: one that builds a value, and one that merely skips it.
-/

namespace VehiclePrivacy.Json

/-- Why a text is not read. -/
inductive Fault where
  /-- A character stands where the grammar does not allow it, or a number is out of range. -/
  | malformed
  /-- The text ends too early. -/
  | truncated
  /-- The text is well formed so far, but says something else than expected. -/
  | mismatch
  deriving DecidableEq, Repr

/-- The kind of fault in words. -/
def Fault.message : Fault → String
  | malformed => "json syntax"
  | truncated => "json eof"
  | mismatch => "json data"

/-- A token. -/
inductive Token where
  | opening (b : Bracket)
  | closing (b : Bracket)
  | comma
  | colon
  /-- `null`, `true` or `false`. -/
  | word (value : Scalar)
  /-- The characters of a number. -/
  | number (lexeme : List Char)
  /-- A complete string; it has no content if its surrogates are not paired. -/
  | text (content : Option String)
  /-- A number that breaks off. -/
  | brokenNumber (fault : Fault)
  /-- A string that breaks off; `paired` tells whether its surrogates were paired up to there. -/
  | brokenText (fault : Fault) (paired : Bool)
  /-- A word that breaks off, or a character that begins no token. -/
  | broken (fault : Fault)
  deriving DecidableEq

/-- What is wrong with a token that stands for a value and is none: a broken token says it itself,
and unpaired surrogates are met before the place where a string breaks off. -/
def Token.fault : Token → Fault
  | .brokenNumber f => f
  | .brokenText f paired => if paired then f else .malformed
  | .broken f => f
  | _ => .malformed

/-- The scalar that a token stands for. A bracket opens something else than a scalar, and a number
out of range and a string without content cannot be read. -/
def Token.scalar : Token → Except Fault Scalar
  | .word v => .ok v
  | .number lexeme =>
    match numberValue? lexeme with
    | some n => .ok (.number n)
    | none => .error .malformed
  | .text (some s) => .ok (.string s)
  | .opening _ => .error .mismatch
  | t => .error t.fault

end VehiclePrivacy.Json
