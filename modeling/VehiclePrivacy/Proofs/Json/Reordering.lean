import VehiclePrivacy.Proofs.Json.Edits
import VehiclePrivacy.Proofs.Json.Stripping

/-!
# Values with their members in another order

The order of the members of an object means nothing, that of the items of an array does. `Reordered`
says that two values are the same but for the order of members, at any depth; the members of an
object may be put in order by any number of exchanges, as in a permutation, and their values may be
reordered themselves.

What goes through a value member by member keeps values reordered: taking out the members of some
names (`Reordered.without`), and edits that do so where they are made (`Reordered.rewrite`).
-/

namespace VehiclePrivacy.Json

mutual

/-- The two values are the same but for the order of members. -/
inductive Reordered : Json → Json → Prop where
  | scalar (s : Scalar) : Reordered (.scalar s) (.scalar s)
  | array {items items' : List Json} :
      ItemsReordered items items' → Reordered (.array items) (.array items')
  | object {members members' : List (String × Json)} :
      MembersReordered members members' → Reordered (.object members) (.object members')

/-- The items are the same one by one, but for the order of members in them. -/
inductive ItemsReordered : List Json → List Json → Prop where
  | nil : ItemsReordered [] []
  | cons {v v' : Json} {rest rest' : List Json} :
      Reordered v v' → ItemsReordered rest rest' → ItemsReordered (v :: rest) (v' :: rest')

/-- The members are the same but for their order, and for the order of members in them. -/
inductive MembersReordered : List (String × Json) → List (String × Json) → Prop where
  | nil : MembersReordered [] []
  | cons (n : String) {v v' : Json} {rest rest' : List (String × Json)} :
      Reordered v v' → MembersReordered rest rest' →
        MembersReordered ((n, v) :: rest) ((n, v') :: rest')
  | swap (m m' : String × Json) (rest : List (String × Json)) :
      MembersReordered (m :: m' :: rest) (m' :: m :: rest)
  | trans {members members' members'' : List (String × Json)} :
      MembersReordered members members' → MembersReordered members' members'' →
        MembersReordered members members''

end

mutual

theorem Reordered.refl : ∀ v : Json, v.Reordered v
  | .scalar s => .scalar s
  | .array items => .array (ItemsReordered.refl items)
  | .object members => .object (MembersReordered.refl members)

theorem ItemsReordered.refl : ∀ items : List Json, ItemsReordered items items
  | [] => .nil
  | v :: rest => .cons (Reordered.refl v) (ItemsReordered.refl rest)

theorem MembersReordered.refl : ∀ members : List (String × Json), MembersReordered members members
  | [] => .nil
  | (n, v) :: rest => .cons n (Reordered.refl v) (MembersReordered.refl rest)

end

mutual

theorem Reordered.symm {v w : Json} : v.Reordered w → w.Reordered v
  | .scalar s => .scalar s
  | .array h => .array h.symm
  | .object h => .object h.symm

theorem ItemsReordered.symm {items items' : List Json} :
    ItemsReordered items items' → ItemsReordered items' items
  | .nil => .nil
  | .cons hv h => .cons hv.symm h.symm

theorem MembersReordered.symm {members members' : List (String × Json)} :
    MembersReordered members members' → MembersReordered members' members
  | .nil => .nil
  | .cons n hv h => .cons n hv.symm h.symm
  | .swap m m' rest => .swap m' m rest
  | .trans h h' => .trans h'.symm h.symm

end

mutual

theorem Reordered.trans {u v w : Json} : u.Reordered v → v.Reordered w → u.Reordered w
  | .scalar s, h => h
  | .array h, .array h' => .array (h.trans h')
  | .object h, .object h' => .object (.trans h h')

theorem ItemsReordered.trans {items items' items'' : List Json} :
    ItemsReordered items items' → ItemsReordered items' items'' → ItemsReordered items items''
  | .nil, h => h
  | .cons hv h, .cons hv' h' => .cons (hv.trans hv') (h.trans h')

end

/-! ## Members taken out -/

mutual

theorem Reordered.without {v w : Json} (names : List String) :
    v.Reordered w → (v.without names).Reordered (w.without names)
  | .scalar s => .scalar s
  | .array h => .array (h.without names)
  | .object h => .object (h.without names)

theorem ItemsReordered.without {items items' : List Json} (names : List String) :
    ItemsReordered items items' →
      ItemsReordered (itemsWithout names items) (itemsWithout names items')
  | .nil => .nil
  | .cons hv h => .cons (hv.without names) (h.without names)

theorem MembersReordered.without {members members' : List (String × Json)} (names : List String) :
    MembersReordered members members' →
      MembersReordered (membersWithout names members) (membersWithout names members')
  | .nil => .nil
  | .cons n hv h => by
    rw [membersWithout, membersWithout]
    split
    · exact h.without names
    · exact .cons n (hv.without names) (h.without names)
  | .swap m m' rest => by
    obtain ⟨n, v⟩ := m
    obtain ⟨n', v'⟩ := m'
    simp only [membersWithout]
    -- the two may both stay, and then they are still side by side
    split <;> split
    · exact .refl _
    · exact .refl _
    · exact .refl _
    · exact .swap _ _ _
  | .trans h h' => .trans (h.without names) (h'.without names)

end

/-! ## Edits -/

/-- Edits that make of values in another order values in another order. -/
def Edits.Steady (edits : Edits) : Prop :=
  ∀ p e v w, edits p = some e → v.Reordered w → (e v).Reordered (e w)

mutual

theorem Reordered.rewriteParts {edits : Edits} (he : edits.Steady) (path : Path) {v w : Json} :
    v.Reordered w → (rewriteParts edits path v).Reordered (rewriteParts edits path w)
  | .scalar s => .scalar s
  | .array h => .array (h.rewrite he path 0)
  | .object h => .object (h.rewrite he path)

theorem ItemsReordered.rewrite {edits : Edits} (he : edits.Steady) (path : Path) (i : Nat)
    {items items' : List Json} : ItemsReordered items items' →
      ItemsReordered (rewriteItems edits path i items) (rewriteItems edits path i items')
  | .nil => .nil
  | @ItemsReordered.cons v v' _ _ hv h => by
    have hparts := hv.rewriteParts he (path ++ [.index i])
    refine .cons ?_ (h.rewrite he path (i + 1))
    cases hedit : edits (path ++ [.index i]) with
    | none => exact hparts
    | some e => exact he _ e v v' hedit hv

theorem MembersReordered.rewrite {edits : Edits} (he : edits.Steady) (path : Path)
    {members members' : List (String × Json)} : MembersReordered members members' →
      MembersReordered (rewriteMembers edits path members) (rewriteMembers edits path members')
  | .nil => .nil
  | @MembersReordered.cons n v v' _ _ hv h => by
    have hparts := hv.rewriteParts he (path ++ [.name n])
    refine .cons n ?_ (h.rewrite he path)
    cases hedit : edits (path ++ [.name n]) with
    | none => exact hparts
    | some e => exact he _ e v v' hedit hv
  | .swap m m' rest => .swap _ _ _
  | .trans h h' => .trans (h.rewrite he path) (h'.rewrite he path)

end

/-- Steady edits keep values reordered. -/
theorem Reordered.rewrite {edits : Edits} (he : edits.Steady) (path : Path) {v w : Json}
    (h : v.Reordered w) : (Json.rewrite edits path v).Reordered (Json.rewrite edits path w) := by
  cases hedit : edits path with
  | none =>
    rw [rewrite_none hedit, rewrite_none hedit]
    exact h.rewriteParts he path
  | some e =>
    rw [rewrite_some hedit, rewrite_some hedit]
    exact he path e v w hedit h

end VehiclePrivacy.Json
