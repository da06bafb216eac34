/-!
# Capabilities

The five things that can be turned on and off on their own, two filters and three redactions, and
the sets of them that are active. A set is shown as a flag word, in which every capability has its
own bit.
-/

namespace VehiclePrivacy

/-- Something that can be turned on and off. -/
inductive Capability where
  | speedFilter
  | positionFilter
  | idRedaction
  | sizeRedaction
  | partIIRedaction
  deriving DecidableEq, Repr

namespace Capability

/-- All capabilities, in the order in which they are listed. -/
def all : List Capability :=
  [speedFilter, positionFilter, idRedaction, sizeRedaction, partIIRedaction]

/-- The capability's bit in a flag word. -/
def bit : Capability → Nat
  | speedFilter => 1
  | positionFilter => 2
  | idRedaction => 4
  | sizeRedaction => 16
  | partIIRedaction => 256

/-- The capability's name. -/
def name : Capability → String
  | speedFilter => "velocity_filter"
  | positionFilter => "geofence_filter"
  | idRedaction => "id_redaction"
  | sizeRedaction => "size_redaction"
  | partIIRedaction => "partii_redaction"

end Capability

/-- Which capabilities are active. -/
structure Activation where
  speedFilter : Bool
  positionFilter : Bool
  idRedaction : Bool
  sizeRedaction : Bool
  partIIRedaction : Bool
  deriving DecidableEq, Repr

namespace Activation

/-- Nothing is active. -/
def none : Activation := ⟨false, false, false, false, false⟩

/-- Everything is active. -/
def full : Activation := ⟨true, true, true, true, true⟩

/-- Whether a capability is active. -/
def has (a : Activation) : Capability → Bool
  | .speedFilter => a.speedFilter
  | .positionFilter => a.positionFilter
  | .idRedaction => a.idRedaction
  | .sizeRedaction => a.sizeRedaction
  | .partIIRedaction => a.partIIRedaction

/-- The set with one capability turned on or off. -/
def set (a : Activation) (c : Capability) (on : Bool) : Activation :=
  match c with
  | .speedFilter => { a with speedFilter := on }
  | .positionFilter => { a with positionFilter := on }
  | .idRedaction => { a with idRedaction := on }
  | .sizeRedaction => { a with sizeRedaction := on }
  | .partIIRedaction => { a with partIIRedaction := on }

/-- The set with a capability turned on. -/
def insert (a : Activation) (c : Capability) : Activation := a.set c true

/-- The set with a capability turned off. -/
def erase (a : Activation) (c : Capability) : Activation := a.set c false

/-- The set of the listed capabilities. -/
def ofList (cs : List Capability) : Activation := cs.foldl insert none

/-- The active capabilities, in the order of `Capability.all`. -/
def toList (a : Activation) : List Capability := Capability.all.filter a.has

/-- The flag word. -/
def bits (a : Activation) : Nat := a.toList.foldl (fun word c => word + c.bit) 0

/-- The names of the active capabilities between braces, for messages. -/
def listing (a : Activation) : String :=
  "\x7b" ++ ", ".intercalate (a.toList.map fun c => "\"" ++ c.name ++ "\"") ++ "\x7d"

/-- Setting a capability decides about it and about no other. -/
theorem has_set (a : Activation) (c d : Capability) (on : Bool) :
    (a.set c on).has d = if d = c then on else a.has d := by
  cases c <;> cases d <;> rfl

end Activation

end VehiclePrivacy
