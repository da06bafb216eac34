import VehiclePrivacy.Json.Basic

/-!
# Members of a name, at any depth

`hasMember` looks for a member of a name anywhere in a value, and `eraseMember` takes out all of
them with all that is below them. What is left keeps its order.
-/

namespace VehiclePrivacy.Json

mutual

/-- Whether a member of that name is anywhere in the value. -/
def hasMember (n : String) : Json → Bool
  | .scalar _ => false
  | .array items => itemsHaveMember n items
  | .object members => members.any (·.1 == n) || membersHaveMember n members

/-- Whether a member of that name is in one of the items. -/
def itemsHaveMember (n : String) : List Json → Bool
  | [] => false
  | v :: rest => hasMember n v || itemsHaveMember n rest

/-- Whether a member of that name is in the value of one of the members. -/
def membersHaveMember (n : String) : List (String × Json) → Bool
  | [] => false
  | (_, v) :: rest => hasMember n v || membersHaveMember n rest

end

mutual

/-- The value without any member of that name, and whether there was one. -/
def eraseMember (n : String) : Json → Json × Bool
  | .scalar s => (.scalar s, false)
  | .array items =>
    let (items, found) := eraseInItems n items
    (.array items, found)
  | .object members =>
    let (members, found) := eraseInMembers n members
    (.object members, found)

/-- The items without any member of that name. -/
def eraseInItems (n : String) : List Json → List Json × Bool
  | [] => ([], false)
  | v :: rest =>
    let (v, inValue) := eraseMember n v
    let (rest, inRest) := eraseInItems n rest
    (v :: rest, inValue || inRest)

/-- The members of other names, their values without any member of that name. -/
def eraseInMembers (n : String) : List (String × Json) → List (String × Json) × Bool
  | [] => ([], false)
  | (m, v) :: rest =>
    let (v, inValue) := eraseMember n v
    let (rest, inRest) := eraseInMembers n rest
    if m = n then (rest, true) else ((m, v) :: rest, inValue || inRest)

end

end VehiclePrivacy.Json
