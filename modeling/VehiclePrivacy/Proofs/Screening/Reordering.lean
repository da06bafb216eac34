import VehiclePrivacy.Proofs.Json.Reordering
import VehiclePrivacy.Proofs.Screening.Review

/-!
# The order of members does not count

Of several members that could settle a field the first one does, so the order of members counts
where there are several. Where each field has at most one (`Lone`), messages with their members in
another order have the same record (`Record.of_reordered`) and are edited in the same places
(`edits_reordered`).

A member stands at the same place in both messages, since a path goes by names and not by positions.
So it is enough to know which members there are, and their order is never looked at
(`first?_reordered`).
-/

namespace VehiclePrivacy

namespace Sighting

/-- The two are the same recognised member, but for the order of members in its value. -/
structure Reordered (x y : Sighting) : Prop where
  field : x.field = y.field
  place : x.place = y.place
  value : x.value.Reordered y.value

variable {x y z : Sighting}

theorem Reordered.symm (h : x.Reordered y) : y.Reordered x :=
  ⟨h.field.symm, h.place.symm, h.value.symm⟩

theorem Reordered.trans (h : x.Reordered y) (h' : y.Reordered z) : x.Reordered z :=
  ⟨h.field.trans h'.field, h.place.trans h'.place, h.value.trans h'.value⟩

theorem Reordered.text? (h : x.Reordered y) : x.text? = y.text? := by
  obtain ⟨field, p, v⟩ := x
  obtain ⟨field', p', w⟩ := y
  obtain ⟨-, -, h⟩ := h
  cases h <;> rfl

theorem Reordered.number? (h : x.Reordered y) : x.number? = y.number? := by
  obtain ⟨field, p, v⟩ := x
  obtain ⟨field', p', w⟩ := y
  obtain ⟨-, -, h⟩ := h
  cases h <;> rfl

theorem Reordered.isBlock (h : x.Reordered y) : x.isBlock = y.isBlock := by
  obtain ⟨field, p, v⟩ := x
  obtain ⟨field', p', w⟩ := y
  obtain ⟨-, -, h⟩ := h
  cases h <;> rfl

theorem Reordered.settles (h : x.Reordered y) : x.settles = y.settles := by
  obtain ⟨field, p, v⟩ := x
  obtain ⟨field', p', w⟩ := y
  obtain ⟨hfield, -, h⟩ := h
  obtain rfl : field = field' := hfield
  cases h <;> cases field <;> rfl

theorem Reordered.fits (h : x.Reordered y) : x.fits = y.fits := by
  rw [Sighting.fits, Sighting.fits, h.field, h.text?, h.number?]

end Sighting

/-! ## The same members in another order -/

/-- The members of one list are in the other, but for the order of members in their values. -/
def Covered (xs ys : List Sighting) : Prop := ∀ x ∈ xs, ∃ y ∈ ys, x.Reordered y

theorem Covered.trans {xs ys zs : List Sighting} (h : Covered xs ys) (h' : Covered ys zs) :
    Covered xs zs := by
  intro x hx
  obtain ⟨y, hy, hxy⟩ := h x hx
  obtain ⟨z, hz, hyz⟩ := h' y hy
  exact ⟨z, hz, hxy.trans hyz⟩

theorem Covered.append {xs ys xs' ys' : List Sighting} (h : Covered xs ys) (h' : Covered xs' ys') :
    Covered (xs ++ xs') (ys ++ ys') := by
  intro x hx
  rcases List.mem_append.mp hx with hx | hx
  · obtain ⟨y, hy, hxy⟩ := h x hx
    exact ⟨y, List.mem_append_left _ hy, hxy⟩
  · obtain ⟨y, hy, hxy⟩ := h' x hx
    exact ⟨y, List.mem_append_right _ hy, hxy⟩

theorem Covered.of_subset {xs ys : List Sighting} (h : xs ⊆ ys) : Covered xs ys :=
  fun x hx => ⟨x, h hx, rfl, rfl, .refl x.value⟩

open Json in
mutual

/-- Reordered values have the same recognised members. -/
theorem covered_sightings (path : Path) {v w : Json} :
    v.Reordered w → Covered (sightings path v) (sightings path w)
  | .scalar _ => nofun
  | .array h => covered_sightingsInItems path 0 h
  | .object h => covered_sightingsInMembers path h

theorem covered_sightingsInItems (path : Path) (i : Nat) {items items' : List Json} :
    ItemsReordered items items' →
      Covered (sightingsInItems path i items) (sightingsInItems path i items')
  | .nil => nofun
  | .cons hv h =>
    (covered_sightings _ hv).append (covered_sightingsInItems path (i + 1) h)

theorem covered_sightingsInMembers (path : Path) {members members' : List (String × Json)} :
    MembersReordered members members' →
      Covered (sightingsInMembers path members) (sightingsInMembers path members')
  | .nil => nofun
  | @MembersReordered.cons n _ _ _ _ hv h => by
    have hbelow := covered_sightings (path ++ [.name n]) hv
    refine Covered.append ?_ (Covered.append ?_ (covered_sightingsInMembers path h))
    · cases Field.named? n with
      | none => nofun
      | some field =>
        intro x hx
        obtain rfl := List.mem_singleton.mp hx
        exact ⟨_, List.mem_singleton.mpr rfl, rfl, rfl, hv⟩
    · cases Field.isOpaque n with
      | true => nofun
      | false => exact hbelow
  | .swap m m' rest => by
    obtain ⟨n, v⟩ := m
    obtain ⟨n', v'⟩ := m'
    refine Covered.of_subset fun x hx => ?_
    rw [mem_sightingsInMembers] at hx ⊢
    obtain ⟨k, u, hmem, hx⟩ := hx
    exact ⟨k, u, (List.Perm.swap _ _ rest).mem_iff.mp hmem, hx⟩
  | .trans h h' => (covered_sightingsInMembers path h).trans (covered_sightingsInMembers path h')

end

/-! ## One member for each field -/

/-- Every field is settled by one member at most. -/
def Lone (xs : List Sighting) : Prop :=
  ∀ field, xs.countP (fun x => x.field == field && x.settles) ≤ 1

/-- Members that settle the same field are the same member. -/
theorem Lone.eq {xs : List Sighting} (h : Lone xs) {x y : Sighting} (hx : x ∈ xs) (hy : y ∈ xs)
    (hfield : x.field = y.field) (hsettles : x.settles = true) (hsettles' : y.settles = true) :
    x = y := by
  have hcount := h x.field
  rw [List.countP_eq_length_filter] at hcount
  have hmem : ∀ z ∈ xs, z.field = x.field → z.settles = true →
      z ∈ xs.filter fun z => z.field == x.field && z.settles := by
    intro z hz hfield hsettles
    rw [List.mem_filter, hsettles, hfield, beq_self_eq_true]
    exact ⟨hz, rfl⟩
  have hx := hmem x hx rfl hsettles
  have hy := hmem y hy hfield.symm hsettles'
  rcases hfilter : xs.filter fun z => z.field == x.field && z.settles with _ | ⟨z, _ | ⟨z', zs⟩⟩
  · rw [hfilter] at hx
    cases hx
  · rw [hfilter] at hx hy
    rw [List.mem_singleton.mp hx, List.mem_singleton.mp hy]
  · rw [hfilter, List.length_cons, List.length_cons] at hcount
    omega

/-- The two settle their field alike, or neither is there. -/
theorem first?_reordered {xs ys : List Sighting} (h : Covered xs ys) (h' : Covered ys xs)
    (hlone : Lone xs) (field : Field) :
    Option.Rel Sighting.Reordered (first? field xs) (first? field ys) := by
  cases hy : first? field ys with
  | none =>
    have hx : first? field xs = none := by
      refine List.find?_eq_none.mpr fun x hx hp => ?_
      obtain ⟨y, hmem, hxy⟩ := h x hx
      rw [hxy.field, hxy.settles] at hp
      exact List.find?_eq_none.mp hy y hmem hp
    rw [hx]
    exact .none
  | some y =>
    obtain ⟨x, hmem, hyx⟩ := h' y (mem_of_first? hy)
    have hp := List.find?_some hy
    rw [hyx.field, hyx.settles] at hp
    cases hx : first? field xs with
    | none => exact absurd hp (List.find?_eq_none.mp hx x hmem)
    | some x' =>
      -- both would settle the field, so they are the same
      have hp' := List.find?_some hx
      rw [Bool.and_eq_true, beq_iff_eq] at hp hp'
      obtain rfl := hlone.eq hmem (mem_of_first? hx) (hp.1.trans hp'.1.symm) hp.2 hp'.2
      exact .some hyx.symm

variable {v w : Json}

/-- The recognised members of reordered values settle their fields alike. -/
theorem first?_sightings (h : v.Reordered w) (hlone : Lone (sightings [] v)) (field : Field) :
    Option.Rel Sighting.Reordered (first? field (sightings [] v)) (first? field (sightings [] w)) :=
  first?_reordered (covered_sightings [] h) (covered_sightings [] h.symm) hlone field

/-- What is read off a member that settles a field, if members alike give the same. -/
theorem bind_reordered {α : Type} {a b : Option Sighting} (h : Option.Rel Sighting.Reordered a b)
    {f : Sighting → Option α} (hf : ∀ {x y}, x.Reordered y → f x = f y) : a.bind f = b.bind f := by
  cases h with
  | none => rfl
  | some h => exact hf h

theorem place_reordered {a b : Option Sighting} (h : Option.Rel Sighting.Reordered a b) :
    a.map Sighting.place = b.map Sighting.place := by
  cases h with
  | none => rfl
  | some h => exact congrArg some h.place

/-- The record of a message does not depend on the order of its members. -/
theorem Record.of_reordered (h : v.Reordered w) (hlone : Lone (sightings [] v)) :
    Record.of (sightings [] v) = Record.of (sightings [] w) := by
  have hfirst := first?_sightings h hlone
  simp only [Record.of, place_reordered (hfirst _),
    bind_reordered (hfirst _) Sighting.Reordered.number?,
    bind_reordered (hfirst _) Sighting.Reordered.text?]

theorem hasScalarPartII_reordered (h : v.Reordered w) (hlone : Lone (sightings [] v)) :
    hasScalarPartII (sightings [] v) = hasScalarPartII (sightings [] w) := by
  have hfirst := first?_sightings h hlone .partII
  rw [hasScalarPartII, hasScalarPartII, ← first?_partII, ← first?_partII]
  generalize first? .partII (sightings [] v) = a at hfirst ⊢
  generalize first? .partII (sightings [] w) = b at hfirst ⊢
  cases hfirst with
  | none => rfl
  | some h => exact congrArg not h.isBlock

namespace Rules

variable {r : Rules} {a : Activation} {pseudonym : String}

/-- The rules edit the same places, whatever the order of members. -/
theorem edits_reordered (h : v.Reordered w) (hlone : Lone (sightings [] v)) :
    r.edits a pseudonym (sightings [] v) = r.edits a pseudonym (sightings [] w) := by
  have hof : ∀ field, r.editsOf a pseudonym (sightings [] v) field =
      r.editsOf a pseudonym (sightings [] w) field := by
    intro field
    have hfirst := first?_sightings h hlone field
    rw [editsOf, editsOf]
    generalize first? field (sightings [] v) = a at hfirst ⊢
    generalize first? field (sightings [] w) = b at hfirst ⊢
    cases hfirst with
    | none => rfl
    | some h =>
      dsimp only
      rw [edit?, edit?, h.field, h.text?, h.place]
  simp only [edits, scalarEdits, hof]

/-- The rules make of reordered values reordered values. -/
theorem edits_steady {xs : List Sighting} : (r.edits a pseudonym xs).Steady := by
  intro p e v w h hvw
  obtain ⟨field, x, hx, -, he⟩ := member_of_edits h
  rcases edit?_cases he with ⟨-, rfl⟩ | ⟨s, hs⟩
  · exact hvw.without _
  · rw [hs, hs]
    exact .scalar s

end Rules

end VehiclePrivacy
