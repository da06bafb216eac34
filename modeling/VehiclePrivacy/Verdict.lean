import VehiclePrivacy.Json.Decode
import VehiclePrivacy.Json.Printer

/-!
# What becomes of a message

A message is retained, held back by a filter, or held back because something is wrong with it.
-/

namespace VehiclePrivacy

/-- What becomes of a message. -/
inductive Verdict where
  /-- Retained. -/
  | success
  /-- Too slow or too fast. -/
  | speed
  /-- Outside the geofence. -/
  | geoposition
  /-- Not readable as one JSON object. -/
  | parse
  /-- Without a field that an active filter asks for. -/
  | missing
  /-- With a field of another kind than expected. -/
  | other
  deriving DecidableEq, Repr

namespace Verdict

/-- All verdicts. -/
def all : List Verdict := [success, speed, geoposition, parse, missing, other]

/-- The verdict in one word. -/
def name : Verdict → String
  | success => "success"
  | speed => "speed"
  | geoposition => "geoposition"
  | parse => "parse"
  | missing => "missing"
  | other => "other"

/-- The verdict that a word names. -/
def named? (n : String) : Option Verdict := all.find? fun v => v.name == n

/-- Whether the message is retained. -/
def retains (v : Verdict) : Bool := v = success

/-- Whether a filter holds the message back, and nothing is wrong with it. -/
def isFiltered : Verdict → Bool
  | speed | geoposition => true
  | _ => false

/-- The verdict as JSON. -/
def toJson (v : Verdict) : Json := .string v.name

/-- Reads a verdict. -/
def decoder : Json.Decoder Verdict := Json.Decoder.oneOf named?

end Verdict

end VehiclePrivacy
