import VehiclePrivacy.Json.Path
import VehiclePrivacy.Json.Scanner

/-!
# Building a value from tokens

The reader is a fold of one step per token. Its stack holds the containers that are open, each with
a hole for the part under way, so the stack is also the path of the value that comes next.

While it builds, the reader tells a listener of every value, in document order: of a scalar when it
is complete, of a container when it opens. A listener may stop the reading there and then; nothing
of the text that follows is judged any more. `Json.walk` tells a listener of a finished value in the
same order.
-/

namespace VehiclePrivacy.Json

/-- What is known of a value when its first token is complete. -/
inductive Head where
  | scalar (value : Scalar)
  | opening (b : Bracket)
  deriving DecidableEq

/-- The first token of a value. -/
def head : Json → Head
  | .scalar s => .scalar s
  | .array _ => .opening .array
  | .object _ => .opening .object

/-- A state that learns of values, and may have enough at some point. -/
structure Listener (σ : Type) where
  hear : σ → Path → Head → σ
  stop : σ → Bool

/-- The listener that nothing stops. -/
def Listener.idle : Listener Unit := ⟨fun _ _ _ => (), fun _ => false⟩

mutual

/-- Tells a listener of a value at a path and of all its parts, until it has enough. -/
def walk {σ : Type} (l : Listener σ) (path : Path) (s : σ) : Json → σ
  | .scalar v => l.hear s path (.scalar v)
  | .array items =>
    let s := l.hear s path (.opening .array)
    if l.stop s then s else walkItems l path 0 s items
  | .object members =>
    let s := l.hear s path (.opening .object)
    if l.stop s then s else walkMembers l path s members

/-- The items of an array at a path, from the index `i` on. -/
def walkItems {σ : Type} (l : Listener σ) (path : Path) (i : Nat) (s : σ) : List Json → σ
  | [] => s
  | v :: rest =>
    let s := walk l (path ++ [.index i]) s v
    if l.stop s then s else walkItems l path (i + 1) s rest

/-- The members of an object at a path. -/
def walkMembers {σ : Type} (l : Listener σ) (path : Path) (s : σ) : List (String × Json) → σ
  | [] => s
  | (n, v) :: rest =>
    let s := walk l (path ++ [.name n]) s v
    if l.stop s then s else walkMembers l path s rest

end

/-- What a reader insists on beyond the grammar. -/
structure Demands where
  /-- No object has two members of one name. -/
  distinctNames : Bool
  /-- The value is an object. -/
  objectRoot : Bool

/-- An open container with a hole for the value under way. Its parts so far come last first, and an
array counts them. -/
inductive Frame where
  | item (index : Nat) (before : List Json)
  | member (before : List (String × Json)) (name : String)

/-- The step from the container to the hole. -/
def Frame.step : Frame → Step
  | .item i _ => .index i
  | .member _ n => .name n

/-- What a reader expects next. -/
inductive Phase where
  /-- A value for the innermost hole. -/
  | value
  /-- In an array, behind so many items. -/
  | items (count : Nat) (before : List Json)
  /-- In an object, between members. -/
  | members (before : List (String × Json))
  /-- A member name. -/
  | name (before : List (String × Json))
  /-- The colon after a member name. -/
  | colon (before : List (String × Json)) (name : String)
  /-- The end of the text. -/
  | done (v : Json)
  /-- Nothing any more: the text cannot be read. -/
  | failed (f : Fault)
  /-- Nothing any more: the listener had enough. -/
  | stopped

/-- A reader: its listener's state, the open containers, and what comes next. -/
structure Reader (σ : Type) where
  listening : σ
  stack : List Frame
  phase : Phase

namespace Reader

variable {σ : Type}

/-- The most containers that may be open at once. -/
def maxDepth : Nat := 127

/-- The reader before the first token. -/
def start (s : σ) : Reader σ := ⟨s, [], .value⟩

/-- The path of the innermost hole. -/
def path (r : Reader σ) : Path := (r.stack.map Frame.step).reverse

/-- Goes on in another phase. -/
def enter (r : Reader σ) (p : Phase) : Reader σ := { r with phase := p }

/-- Gives up. -/
def fail (r : Reader σ) (f : Fault) : Reader σ := r.enter (.failed f)

/-- A member put behind the others, or, if the name is there already, in its place. -/
def putMember (n : String) (v : Json) (before : List (String × Json)) : List (String × Json) :=
  if before.any (·.1 == n) then setMember n v before else (n, v) :: before

/-- Fills the innermost hole with a finished value. -/
def fill (r : Reader σ) (v : Json) : Reader σ :=
  match r.stack with
  | [] => r.enter (.done v)
  | .item i before :: stack => { r with stack, phase := .items (i + 1) (v :: before) }
  | .member before n :: stack => { r with stack, phase := .members (putMember n v before) }

/-- Tells the listener of the value that begins, and goes on unless that was enough. -/
def tell (l : Listener σ) (r : Reader σ) (h : Head) (next : Reader σ → Reader σ) : Reader σ :=
  let r := { r with listening := l.hear r.listening r.path h }
  if l.stop r.listening then r.enter .stopped else next r

/-- A complete scalar. -/
def scalar (d : Demands) (l : Listener σ) (r : Reader σ) (v : Scalar) : Reader σ :=
  if d.objectRoot && r.stack.isEmpty then r.fail .mismatch
  else r.tell l (.scalar v) (·.fill (.scalar v))

/-- An opening bracket where a value is expected. -/
def opening (d : Demands) (l : Listener σ) (r : Reader σ) (b : Bracket) : Reader σ :=
  if maxDepth ≤ r.stack.length then r.fail .malformed
  else if d.objectRoot && r.stack.isEmpty && b = .array then r.fail .mismatch
  else r.tell l (.opening b) fun r => r.enter <| match b with
    | .array => .items 0 []
    | .object => .members []

/-- A token where a value is expected. -/
def value (d : Demands) (l : Listener σ) (r : Reader σ) (t : Token) : Reader σ :=
  match t with
  | .opening b => r.opening d l b
  | t => match t.scalar with
    | .ok v => r.scalar d l v
    | .error f => r.fail f

/-- A token where a member name is expected. -/
def memberName (d : Demands) (r : Reader σ) (before : List (String × Json)) (t : Token) :
    Reader σ :=
  match t with
  | .text (some n) =>
    if d.distinctNames && before.any (·.1 == n) then r.fail .mismatch
    else r.enter (.colon before n)
  | .text none => r.fail .malformed
  | .brokenText f paired => r.fail (Token.brokenText f paired).fault
  | _ => r.fail .malformed

/-- One token. -/
def step (d : Demands) (l : Listener σ) (r : Reader σ) (t : Token) : Reader σ :=
  match r.phase with
  | .value => r.value d l t
  | .items count before =>
    if t = .closing .array then r.fill (.array before.reverse)
    else if count = 0 then { r with stack := .item 0 [] :: r.stack }.value d l t
    else if t = .comma then { r with stack := .item count before :: r.stack, phase := .value }
    else r.fail .malformed
  | .members before =>
    if t = .closing .object then r.fill (.object before.reverse)
    else if before.isEmpty then r.memberName d before t
    else if t = .comma then r.enter (.name before)
    else r.fail .malformed
  | .name before => r.memberName d before t
  | .colon before n =>
    if t = .colon then { r with stack := .member before n :: r.stack, phase := .value }
    else r.fail .malformed
  | .done _ => r.fail .malformed
  | .failed _ | .stopped => r

/-- The reader after some tokens. -/
def run (d : Demands) (l : Listener σ) (r : Reader σ) (ts : List Token) : Reader σ :=
  ts.foldl (step d l) r

/-- A run over tokens in two parts is a run over the first part, then over the second. -/
theorem run_append (d : Demands) (l : Listener σ) (r : Reader σ) (p q : List Token) :
    r.run d l (p ++ q) = (r.run d l p).run d l q :=
  List.foldl_append

end Reader

/-- How a reading ends. -/
inductive Outcome where
  | value (v : Json)
  | fault (f : Fault)
  | stopped

/-- How a reading ends where the text ends. -/
def Phase.outcome : Phase → Outcome
  | .done v => .value v
  | .failed f => .fault f
  | .stopped => .stopped
  | _ => .fault .truncated

/-- Reads a text with a listener: what the listener knows in the end, and the outcome. -/
def read {σ : Type} (d : Demands) (l : Listener σ) (s : σ) (text : String) : σ × Outcome :=
  let r := (Reader.start s).run d l (tokens text)
  (r.listening, r.phase.outcome)

/-- Reads a text as a value. A repeated member keeps its first place and takes its last value. -/
def parse (text : String) : Except Fault Json :=
  match read ⟨false, false⟩ Listener.idle () text with
  | (_, .value v) => .ok v
  | (_, .fault f) => .error f
  | (_, .stopped) => .error .malformed

end VehiclePrivacy.Json
