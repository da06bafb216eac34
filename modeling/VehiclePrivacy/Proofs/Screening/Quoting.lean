import VehiclePrivacy.Proofs.Json.Outlines
import VehiclePrivacy.Proofs.Screening.Review

/-!
# Numbers and numeric strings

A numeric field may be written as a number or as a string. A screening takes both for the number that
they say (`hear_quoted`), and else it hears nothing of numbers and strings but that they are scalars.
So a message is screened to the same end in either form (`read_quoted`).
-/

namespace VehiclePrivacy

variable {v w : Scalar} {field : Field} {n : String}

/-! ## The outline of a message -/

/-- A recognised member with the outline of its value. -/
def Sighting.outline (x : Sighting) : Sighting := { x with value := x.value.outline }

mutual

/-- The recognised members of an outline are the outlines of the recognised members. -/
theorem sightings_outline (path : Json.Path) :
    ∀ v : Json, sightings path v.outline = (sightings path v).map Sighting.outline
  | .scalar _ => rfl
  | .array items => sightingsInItems_outline path 0 items
  | .object members => sightingsInMembers_outline path members

theorem sightingsInItems_outline (path : Json.Path) (i : Nat) :
    ∀ items : List Json, sightingsInItems path i (Json.outlineItems items) =
      (sightingsInItems path i items).map Sighting.outline
  | [] => rfl
  | v :: rest => by
    rw [Json.outlineItems, sightingsInItems, sightings_outline _ v,
      sightingsInItems_outline path (i + 1) rest, sightingsInItems, List.map_append]

theorem sightingsInMembers_outline (path : Json.Path) :
    ∀ members : List (String × Json), sightingsInMembers path (Json.outlineMembers members) =
      (sightingsInMembers path members).map Sighting.outline
  | [] => rfl
  | (n, v) :: rest => by
    have hhead : (Field.named? n).toList.map (Sighting.mk · (path ++ [.name n]) v.outline) =
        ((Field.named? n).toList.map (Sighting.mk · (path ++ [.name n]) v)).map
          Sighting.outline := by
      cases Field.named? n <;> rfl
    have hbelow : (if Field.isOpaque n then [] else sightings (path ++ [.name n]) v.outline) =
        (if Field.isOpaque n then [] else sightings (path ++ [.name n]) v).map
          Sighting.outline := by
      cases Field.isOpaque n with
      | true => rfl
      | false => exact sightings_outline _ v
    rw [Json.outlineMembers, sightingsInMembers, hhead, hbelow,
      sightingsInMembers_outline path rest, sightingsInMembers, List.map_append,
      List.map_append]

end

theorem isBlock_outline (x : Sighting) : x.outline.isBlock = x.isBlock := by
  obtain ⟨field, p, value⟩ := x
  cases value with
  | scalar s => cases s <;> rfl
  | array items => rfl
  | object members => rfl

/-- Whether part II is a scalar shows in the outline. -/
theorem hasScalarPartII_outline (path : Json.Path) (tree : Json) :
    hasScalarPartII (sightings path tree.outline) = hasScalarPartII (sightings path tree) := by
  have hfield : ((fun x => decide (x.field = .partII)) ∘ Sighting.outline) =
      fun x : Sighting => decide (x.field = .partII) := rfl
  rw [hasScalarPartII, sightings_outline, List.find?_map, hfield, Option.any_map,
    hasScalarPartII]
  congr 1
  funext x
  exact congrArg not (isBlock_outline x)

/-! ## Screening -/

namespace Screening

/-- A numeric field is heard as the number that its value says. -/
theorem hear_quoted (f : Filters) (hfield : Field.named? n = some field)
    (hnumeric : field ≠ .id ∧ field ≠ .partII) (hv : v ≠ .null) (hw : w ≠ .null)
    (h : finite? v = finite? w) (s : Screening) (p : Json.Path) :
    hear f s (p ++ [.name n]) (.scalar v) = hear f s (p ++ [.name n]) (.scalar w) := by
  have hequal : s.hearField f field (p ++ [.name n]) (.scalar v) =
      s.hearField f field (p ++ [.name n]) (.scalar w) := by
    cases hnumber : finite? v with
    | none =>
      rw [hearField_noNumber hnumeric hv hnumber,
        hearField_noNumber hnumeric hw (h.symm.trans hnumber)]
    | some x =>
      rw [hearField_number hnumeric hnumber, hearField_number hnumeric (h.symm.trans hnumber)]
  rw [hear, hear]
  cases hhidden : p.any Field.hides with
  | true => rw [Field.at?_hidden hhidden]
  | false =>
    rw [Field.at?_name hhidden, hfield]
    dsimp only
    rw [hequal]

/-- A message is screened to the same end whether a numeric field says a number as a number or as a
string. -/
theorem read_quoted (f : Filters) {message message' : String} {lexeme : List Char} {text : String}
    {number : Number} {ts us : List Json.Token} (hfield : Field.named? n = some field)
    (hnumeric : field ≠ .id ∧ field ≠ .partII)
    (htokens : Json.tokens message = ts ++ .text (some n) :: .colon :: .number lexeme :: us)
    (htokens' : Json.tokens message' = ts ++ .text (some n) :: .colon :: .text (some text) :: us)
    (hnumber : Json.numberValue? lexeme = some number)
    (h : finite? (.number number) = finite? (.string text)) :
    (read f message).1 = (read f message').1 ∧
      (read f message).2.outline = (read f message').2.outline := by
  have ht : (Json.Token.number lexeme).scalar = .ok (.number number) := by
    rw [Json.Token.scalar, hnumber]
  exact Json.read_replaced (d := demands) (l := listener f) {} htokens htokens' ht rfl rfl
    (hear_quoted (v := .number number) (w := .string text) f hfield hnumeric nofun nofun h)

end Screening

end VehiclePrivacy
