import VehiclePrivacy.Json.Scanner

/-!
# Reading a text of a known shape

Decoders read tokens straight into the types of the library, and the first thing wrong in the order
of the text decides what is reported. Each decoder takes at least one token, and its result says so;
that is why the loops over members and items end.

A record is written as an object, its members in any order, or as an array of its fields in order.
Members of other names are skipped by `skip`, which asks for less than a reader does: any depth, any
size of number, any surrogates. It is stricter in one point: a number that the text cuts off is
malformed.
-/

namespace VehiclePrivacy.Json

/-- A value read from the front of some tokens, and the fewer tokens behind it. -/
structure Taken (α : Type) (ts : List Token) where
  value : α
  rest : List Token
  shorter : rest.length < ts.length

/-- Reads a value from the front of some tokens. -/
abbrev Decoder (α : Type) := (ts : List Token) → Except Fault (Taken α ts)

namespace Decoder

variable {α β σ : Type}

/-- The same value, read from more tokens. -/
def longer {us ts : List Token} (h : us.length < ts.length) (t : Taken α us) : Taken α ts :=
  ⟨t.value, t.rest, Nat.lt_trans t.shorter h⟩

/-- Reads one value, then another that depends on it. -/
def andThen (d : Decoder α) (f : α → Decoder β) : Decoder β := fun ts => do
  let a ← d ts
  let b ← f a.value a.rest
  return longer a.shorter b

/-- Reads one token that no choice is left for. -/
def expect (t : Token) : Decoder Unit
  | [] => .error .truncated
  | u :: rest => if u = t then .ok ⟨(), rest, by simp⟩ else .error .malformed

/-- Reads a scalar of the kind that `f` knows. -/
def ofScalar (f : Scalar → Option α) : Decoder α
  | [] => .error .truncated
  | t :: rest => do
    let v ← t.scalar
    match f v with
    | some a => return ⟨a, rest, by simp⟩
    | none => .error .mismatch

/-- Reads a natural number of one machine word. -/
def natural : Decoder Nat := ofScalar fun
  | .number (.integer (.ofNat n)) => some n
  | _ => none

/-- Reads a number as a double. -/
def float : Decoder Float := ofScalar fun
  | .number n => some n.toFloat
  | _ => none

/-- Reads a string, or `null` for none. -/
def optionalText : Decoder (Option String) := ofScalar fun
  | .null => some none
  | .string s => some (some s)
  | _ => none

/-! ## Skipping -/

/-- What a value that is skipped goes on with. -/
inductive Skipping where
  /-- A value. -/
  | value
  /-- The first item or member of the innermost container, or its end. -/
  | first
  /-- A comma or the end of the innermost container. -/
  | next
  /-- A member name. -/
  | name
  /-- The colon after a member name. -/
  | colon
  deriving DecidableEq

/-- After a value inside the given containers, innermost first; `none` is the end. -/
def afterSkipped : List Bracket → Option (List Bracket × Skipping)
  | [] => none
  | b :: stack => some (b :: stack, .next)

/-- A token where the value of something skipped is expected. -/
def skipValue (stack : List Bracket) : Token → Except Fault (Option (List Bracket × Skipping))
  | .opening b => .ok (some (b :: stack, .first))
  | .word _ | .number _ | .text _ => .ok (afterSkipped stack)
  | .brokenText f _ | .broken f => .error f
  | _ => .error .malformed

/-- A token where the member name of something skipped is expected. -/
def skipName (stack : List Bracket) : Token → Except Fault (Option (List Bracket × Skipping))
  | .text _ => .ok (some (stack, .colon))
  | .brokenText f _ => .error f
  | _ => .error .malformed

/-- One token of something skipped. -/
def skipStep (stack : List Bracket) (s : Skipping) (t : Token) :
    Except Fault (Option (List Bracket × Skipping)) :=
  match s, stack with
  | .value, stack => skipValue stack t
  | .name, stack => skipName stack t
  | .colon, stack => if t = .colon then .ok (some (stack, .value)) else .error .malformed
  | .first, b :: outer =>
    if t = .closing b then .ok (afterSkipped outer)
    else match b with
      | .array => skipValue stack t
      | .object => skipName stack t
  | .next, b :: outer =>
    if t = .closing b then .ok (afterSkipped outer)
    else if t = .comma then .ok (some (stack, match b with | .array => .value | .object => .name))
    else .error .malformed
  | _, [] => .error .malformed

/-- Skips the rest of a value inside the given containers. -/
def skipFrom (stack : List Bracket) (s : Skipping) : Decoder Unit
  | [] => .error .truncated
  | t :: rest =>
    match skipStep stack s t with
    | .error f => .error f
    | .ok none => .ok ⟨(), rest, by simp⟩
    | .ok (some (stack, s)) => (skipFrom stack s rest).map (longer (by simp))

/-- Skips a value. -/
def skip : Decoder Unit := skipFrom [] .value

/-! ## Containers -/

/-- Ends a record; a field that is missing makes it something else than expected. -/
def endRecord (finish : σ → Option α) (s : σ) : Except Fault α :=
  match finish s with
  | some a => .ok a
  | none => .error .mismatch

/-- The fields of a record in order, up to the end of its array. -/
def inOrder (field : String → σ → Decoder σ) (finish : σ → Option α) (first : Bool) (s : σ) :
    List String → Decoder α
  | [], ts => do
    let a ← endRecord finish s
    let t ← expect (.closing .array) ts
    return ⟨a, t.rest, t.shorter⟩
  | n :: names, ts =>
    match ts with
    | [] => .error .truncated
    | t :: rest =>
      if t = .closing .array then do
        let a ← endRecord finish s
        return ⟨a, rest, by simp⟩
      else if first then
        andThen (field n s) (fun s => inOrder field finish false s names) (t :: rest)
      else if t = .comma then
        (andThen (field n s) (fun s => inOrder field finish false s names) rest).map
          (longer (by simp))
      else .error .malformed

/-- One member of a record, and the names seen with it. A name of the record must not come twice;
that is found out before the colon. -/
def member (names : List String) (field : String → σ → Decoder σ) (seen : List String) (s : σ) :
    Decoder (List String × σ)
  | [] => .error .truncated
  | t :: rest =>
    match t with
    | .text (some n) =>
      if n ∈ seen then .error .mismatch
      else
        let value : Decoder (List String × σ) := fun ts =>
          if n ∈ names then (field n s ts).map fun t => ⟨(n :: seen, t.value), t.rest, t.shorter⟩
          else (skip ts).map fun t => ⟨(seen, s), t.rest, t.shorter⟩
        (andThen (expect .colon) (fun _ => value) rest).map (longer (by simp))
    | .brokenText f paired => .error (Token.brokenText f paired).fault
    | _ => .error .malformed

/-- The members of a record in any order, up to the end of its object. -/
def inAnyOrder (names : List String) (field : String → σ → Decoder σ) (finish : σ → Option α)
    (first : Bool) (seen : List String) (s : σ) (ts : List Token) : Except Fault (Taken α ts) :=
  match ts with
  | [] => .error .truncated
  | t :: rest =>
    if t = .closing .object then do
      let a ← endRecord finish s
      return ⟨a, rest, by simp⟩
    else if first then do
      let m ← member names field seen s (t :: rest)
      have := m.shorter
      let a ← inAnyOrder names field finish false m.value.1 m.value.2 m.rest
      return longer m.shorter a
    else if t = .comma then do
      let m ← member names field seen s rest
      have := m.shorter
      let a ← inAnyOrder names field finish false m.value.1 m.value.2 m.rest
      return longer (Nat.lt_trans m.shorter (by simp)) a
    else .error .malformed
termination_by ts.length
decreasing_by
  all_goals simp_all
  all_goals omega

/-- Reads a record with fields of the given names: `field` takes the value of one of them into the
state, and `finish` makes the record of the last state, if nothing is missing. -/
def record (names : List String) (field : String → σ → Decoder σ) (s : σ) (finish : σ → Option α) :
    Decoder α
  | [] => .error .truncated
  | .opening .array :: rest => (inOrder field finish true s names rest).map (longer (by simp))
  | .opening .object :: rest =>
    (inAnyOrder names field finish true [] s rest).map (longer (by simp))
  | t :: _ =>
    match t.scalar with
    | .ok _ => .error .mismatch
    | .error f => .error f

/-- The items of an array up to its end, `before` those that came already, last first. -/
def items (d : Decoder α) (first : Bool) (before : List α) (ts : List Token) :
    Except Fault (Taken (List α) ts) :=
  match ts with
  | [] => .error .truncated
  | t :: rest =>
    if t = .closing .array then .ok ⟨before.reverse, rest, by simp⟩
    else if first then do
      let a ← d (t :: rest)
      have := a.shorter
      let more ← items d false (a.value :: before) a.rest
      return longer a.shorter more
    else if t = .comma then do
      let a ← d rest
      have := a.shorter
      let more ← items d false (a.value :: before) a.rest
      return longer (Nat.lt_trans a.shorter (by simp)) more
    else .error .malformed
termination_by ts.length
decreasing_by
  all_goals simp_all
  all_goals omega

/-- Reads an array of values that `d` reads. -/
def list (d : Decoder α) : Decoder (List α)
  | [] => .error .truncated
  | .opening .array :: rest => (items d true [] rest).map (longer (by simp))
  | t :: _ =>
    match t.scalar with
    | .ok _ => .error .mismatch
    | .error f => .error f

/-- Reads one of some names: as a string, or as an object whose only member has that name and the
value `null`. Anything else cannot be read at all. -/
def oneOf (named? : String → Option α) : Decoder α :=
  let name : Decoder α := ofScalar fun
    | .string s => named? s
    | _ => none
  let nothing : Decoder Unit := ofScalar fun
    | .null => some ()
    | _ => none
  fun
  | [] => .error .truncated
  | .opening .object :: rest =>
    (andThen name (fun a =>
      andThen (expect .colon) fun _ => andThen nothing fun _ => fun ts =>
        (expect (.closing .object) ts).map fun t => ⟨a, t.rest, t.shorter⟩) rest).map
      (longer (by simp))
  | .text s :: rest => name (.text s :: rest)
  | .brokenText f paired :: _ => .error (Token.brokenText f paired).fault
  | _ => .error .malformed

end Decoder

/-- Reads a whole text with a decoder. -/
def decode {α : Type} (d : Decoder α) (text : String) : Except Fault α := do
  let t ← d (tokens text)
  if t.rest.isEmpty then return t.value else .error .malformed

end VehiclePrivacy.Json
