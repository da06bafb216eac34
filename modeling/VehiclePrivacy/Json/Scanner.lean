import VehiclePrivacy.Json.Token

/-!
# Cutting a JSON text into tokens

The scanner is a fold of one step per character, so a run over a text passes through the run over
any first part of it (`run_append`). Its modes are the token under way, if any. After a broken token
it emits nothing more.

Two rules need care. A number ends only at the first character that cannot continue it, which is
then scanned on its own. And four octets must be left after `\u`: if fewer are, the text is
truncated, whatever they are; only if four are left can they be malformed.
-/

namespace VehiclePrivacy.Json.Scanner

/-- How far a number has been read. -/
inductive NumberPart where
  /-- A minus sign. -/
  | sign
  /-- A zero as the first digit, after which no digit may follow. -/
  | zero
  /-- Digits before the point. -/
  | whole
  /-- The point. -/
  | point
  /-- Digits after the point. -/
  | fraction
  /-- The exponent mark. -/
  | mark
  /-- The sign of the exponent. -/
  | markSign
  /-- Digits of the exponent. -/
  | exponent
  deriving DecidableEq, Repr

namespace NumberPart

/-- Whether a number may end here. -/
def complete : NumberPart → Bool
  | zero | whole | fraction | exponent => true
  | sign | point | mark | markSign => false

/-- The part that a character continues with, if it can. -/
def next? (p : NumberPart) (c : Char) : Option NumberPart :=
  let digit := c.isDigit
  let isMark := c = 'e' || c = 'E'
  match p with
  | sign => if c = '0' then some zero else if digit then some whole else none
  | zero => if c = '.' then some point else if isMark then some mark else none
  | whole =>
    if digit then some whole else if c = '.' then some point else if isMark then some mark else none
  | point => if digit then some fraction else none
  | fraction => if digit then some fraction else if isMark then some mark else none
  | mark => if c = '+' || c = '-' then some markSign else if digit then some exponent else none
  | markSign => if digit then some exponent else none
  | exponent => if digit then some exponent else none

end NumberPart

/-- Where a string stands between two characters. -/
inductive TextPart where
  /-- Between characters. -/
  | plain
  /-- After a backslash. -/
  | escape
  /-- After `\u` with hexadecimal digits still owed; `lead` is a leading surrogate to be paired. -/
  | hex (owed : Nat) (value : Nat) (lead : Option Nat)
  /-- After a leading surrogate. -/
  | afterLead (lead : Nat)
  /-- After a leading surrogate and a backslash. -/
  | afterLeadEscape (lead : Nat)
  deriving DecidableEq, Repr

/-- The token under way. -/
inductive Mode where
  /-- Between tokens. -/
  | idle
  /-- In a word, with the letters still owed. -/
  | word (owed : List Char) (value : Scalar)
  /-- In a number, with its characters so far, last first. -/
  | number (part : NumberPart) (seen : List Char)
  /-- In a string, with its content so far, last first. -/
  | text (part : TextPart) (content : List Char) (paired : Bool)
  /-- After a character that is no hexadecimal digit, with octets still owed. -/
  | badHex (owed : Nat) (paired : Bool)
  /-- After a broken token. -/
  | stopped
  deriving DecidableEq

end Scanner

open Scanner

/-- The scanner: the tokens emitted, last first, and the token under way. -/
structure Scanner where
  emitted : List Token
  mode : Mode

namespace Scanner

/-- The scanner before the first character. -/
def start : Scanner := ⟨[], .idle⟩

/-- Emits a token and is between tokens. -/
def emit (s : Scanner) (t : Token) : Scanner := ⟨t :: s.emitted, .idle⟩

/-- Emits a broken token and stops. -/
def fail (s : Scanner) (t : Token) : Scanner := ⟨t :: s.emitted, .stopped⟩

/-- Goes on in another mode. -/
def enter (s : Scanner) (m : Mode) : Scanner := { s with mode := m }

/-- The blanks between tokens. -/
def isSpace (c : Char) : Bool := c = ' ' || c = '\t' || c = '\n' || c = '\r'

/-- A character between tokens. -/
def begin (s : Scanner) (c : Char) : Scanner :=
  if isSpace c then s.enter .idle
  else if c = '"' then s.enter (.text .plain [] true)
  else if c = '-' then s.enter (.number .sign [c])
  else if c = '0' then s.enter (.number .zero [c])
  else if c.isDigit then s.enter (.number .whole [c])
  else if c = '\x7b' then s.emit (.opening .object)
  else if c = '\x7d' then s.emit (.closing .object)
  else if c = '[' then s.emit (.opening .array)
  else if c = ']' then s.emit (.closing .array)
  else if c = ',' then s.emit .comma
  else if c = ':' then s.emit .colon
  else if c = 'n' then s.enter (.word ['u', 'l', 'l'] .null)
  else if c = 't' then s.enter (.word ['r', 'u', 'e'] (.bool true))
  else if c = 'f' then s.enter (.word ['a', 'l', 's', 'e'] (.bool false))
  else s.fail (.broken .malformed)

/-- A character in a number. -/
def stepNumber (s : Scanner) (part : NumberPart) (seen : List Char) (c : Char) : Scanner :=
  match part.next? c with
  | some part => s.enter (.number part (c :: seen))
  | none =>
    if part.complete && !(part = .zero && c.isDigit) then (s.emit (.number seen.reverse)).begin c
    else s.fail (.brokenNumber .malformed)

/-- The value of a hexadecimal digit. -/
def hexValue? (c : Char) : Option Nat :=
  if c.isDigit then some (c.toNat - '0'.toNat)
  else if 'a' ≤ c ∧ c ≤ 'f' then some (c.toNat - 'a'.toNat + 10)
  else if 'A' ≤ c ∧ c ≤ 'F' then some (c.toNat - 'A'.toNat + 10)
  else none

/-- The character that follows a backslash, by the letter that names it. -/
def escaped? (c : Char) : Option Char :=
  match c with
  | '"' => some '"'
  | '\\' => some '\\'
  | '/' => some '/'
  | 'b' => some '\x08'
  | 'f' => some '\x0c'
  | 'n' => some '\n'
  | 'r' => some '\r'
  | 't' => some '\t'
  | _ => none

/-- A leading surrogate begins a pair. -/
def isLead (n : Nat) : Bool := 0xD800 ≤ n && n ≤ 0xDBFF

/-- A trailing surrogate ends a pair. -/
def isTrail (n : Nat) : Bool := 0xDC00 ≤ n && n ≤ 0xDFFF

/-- The character that a pair of surrogates stands for. -/
def ofPair (lead trail : Nat) : Char :=
  Char.ofNat (0x10000 + (lead - 0xD800) * 0x400 + (trail - 0xDC00))

/-- A string character outside any escape. -/
def stepPlain (s : Scanner) (content : List Char) (paired : Bool) (c : Char) : Scanner :=
  if c = '"' then s.emit (.text (if paired then some (String.ofList content.reverse) else none))
  else if c = '\\' then s.enter (.text .escape content paired)
  else if c.toNat < 0x20 then s.fail (.brokenText .malformed paired)
  else s.enter (.text .plain (c :: content) paired)

/-- The character after a backslash. -/
def stepEscape (s : Scanner) (content : List Char) (paired : Bool) (c : Char) : Scanner :=
  if c = 'u' then s.enter (.text (.hex 4 0 none) content paired)
  else match escaped? c with
    | some x => s.enter (.text .plain (x :: content) paired)
    | none => s.fail (.brokenText .malformed paired)

/-- The end of four hexadecimal digits. -/
def endHex (s : Scanner) (value : Nat) (lead : Option Nat) (content : List Char) (paired : Bool) :
    Scanner :=
  match lead with
  | none =>
    if isLead value then s.enter (.text (.afterLead value) content paired)
    else if isTrail value then s.enter (.text .plain content false)
    else s.enter (.text .plain (Char.ofNat value :: content) paired)
  | some lead =>
    if isTrail value then s.enter (.text .plain (ofPair lead value :: content) paired)
    else s.enter (.text .plain content false)

/-- A character that is no hexadecimal digit, where `owed` octets were still to come. -/
def failHex (s : Scanner) (owed : Nat) (paired : Bool) (c : Char) : Scanner :=
  if owed ≤ c.utf8Size then s.fail (.brokenText .malformed paired)
  else s.enter (.badHex (owed - c.utf8Size) paired)

/-- A character of four hexadecimal digits. -/
def stepHex (s : Scanner) (owed value : Nat) (lead : Option Nat) (content : List Char)
    (paired : Bool) (c : Char) : Scanner :=
  match hexValue? c with
  | none => s.failHex owed paired c
  | some d =>
    if owed ≤ 1 then s.endHex (16 * value + d) lead content paired
    else s.enter (.text (.hex (owed - 1) (16 * value + d) lead) content paired)

/-- A character in a string. A leading surrogate must be followed by an escaped trailing one; if it
is not, the string has no content, and goes on as if the surrogate had been a character. -/
def stepText (s : Scanner) (part : TextPart) (content : List Char) (paired : Bool) (c : Char) :
    Scanner :=
  match part with
  | .plain => s.stepPlain content paired c
  | .escape => s.stepEscape content paired c
  | .hex owed value lead => s.stepHex owed value lead content paired c
  | .afterLead lead =>
    if c = '\\' then s.enter (.text (.afterLeadEscape lead) content paired)
    else s.stepPlain content false c
  | .afterLeadEscape lead =>
    if c = 'u' then s.enter (.text (.hex 4 0 (some lead)) content paired)
    else s.stepEscape content false c

/-- One character. -/
def step (s : Scanner) (c : Char) : Scanner :=
  match s.mode with
  | .idle => s.begin c
  | .word owed value =>
    match owed with
    | [] => (s.emit (.word value)).begin c
    | [l] => if c = l then s.emit (.word value) else s.fail (.broken .malformed)
    | l :: more => if c = l then s.enter (.word more value) else s.fail (.broken .malformed)
  | .number part seen => s.stepNumber part seen c
  | .text part content paired => s.stepText part content paired c
  | .badHex owed paired => s.failHex owed paired c
  | .stopped => s

/-- The end of the text. -/
def finish (s : Scanner) : List Token :=
  let last : List Token := match s.mode with
    | .idle | .stopped => []
    | .word _ _ => [.broken .truncated]
    | .number part seen =>
      if part.complete then [.number seen.reverse] else [.brokenNumber .truncated]
    | .text _ _ paired => [.brokenText .truncated paired]
    | .badHex _ paired => [.brokenText .truncated paired]
  s.emitted.reverse ++ last

/-- The scanner after some characters. -/
def run (s : Scanner) (cs : List Char) : Scanner := cs.foldl step s

/-- A run over a text in two parts is a run over the first part, then over the second. -/
theorem run_append (s : Scanner) (p q : List Char) : s.run (p ++ q) = (s.run p).run q :=
  List.foldl_append

end Scanner

/-- The tokens of a text. -/
def tokens (s : String) : List Token := (Scanner.start.run s.toList).finish

end VehiclePrivacy.Json
