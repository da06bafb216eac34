import Mathlib.Data.List.Forall2
import VehiclePrivacy.Proofs.Json.Stripping

/-!
# What is left of a value

`Pruned` says part by part which value is left when the members of some names are taken out of
another: an array keeps its items, each in its place, and an object its other members in their order.
There is one such value, and it is `without` (`pruned_iff`).

A name is looked for and taken out by two walks through a value. They find the same
(`eraseMember_found`), and what the second one leaves is the value without that name and no less
(`eraseMember_prunes`).
-/

namespace VehiclePrivacy.Json

variable {names : List String} {n : String} {v w : Json}

/-- The second value is the first one without the members of the listed names, at any depth. -/
inductive Pruned (names : List String) : Json → Json → Prop where
  | scalar (s : Scalar) : Pruned names (.scalar s) (.scalar s)
  /-- Every item stays in its place. -/
  | array {items left : List Json} :
      List.Forall₂ (Pruned names) items left → Pruned names (.array items) (.array left)
  /-- The members of other names stay in their order, each with what is left of its value. -/
  | object {members : List (String × Json)} {values : List Json} :
      List.Forall₂ (Pruned names) ((members.filter (·.1 ∉ names)).map Prod.snd) values →
      Pruned names (.object members)
        (.object (((members.filter (·.1 ∉ names)).map Prod.fst).zip values))

theorem membersWithout_eq (names : List String) (members : List (String × Json)) :
    membersWithout names members =
      (members.filter (·.1 ∉ names)).map fun m => (m.1, m.2.without names) := by
  induction members with
  | nil => rfl
  | cons m rest ih =>
    obtain ⟨k, v⟩ := m
    rw [membersWithout]
    by_cases hk : k ∈ names
    · rw [if_pos hk, List.filter_cons_of_neg (by simpa using hk), ih]
    · rw [if_neg hk, List.filter_cons_of_pos (by simpa using hk), ih, List.map_cons]

/-- The names of the members that stay, with what is left of their values. -/
theorem zip_membersWithout (names : List String) (members : List (String × Json)) :
    ((members.filter (·.1 ∉ names)).map Prod.fst).zip
        (((members.filter (·.1 ∉ names)).map Prod.snd).map (without names)) =
      membersWithout names members := by
  rw [List.map_map, List.zip_map', membersWithout_eq]
  rfl

theorem pruned_without (names : List String) (v : Json) : Pruned names v (v.without names) := by
  induction v using Json.ind with
  | scalar s => exact .scalar s
  | array items ih =>
    rw [without, itemsWithout_eq]
    exact .array (List.forall₂_map_right_iff.mpr (List.forall₂_same.mpr ih))
  | object members ih =>
    rw [without, ← zip_membersWithout]
    refine .object (List.forall₂_map_right_iff.mpr (List.forall₂_same.mpr fun v hv => ?_))
    obtain ⟨m, hm, rfl⟩ := List.mem_map.mp hv
    exact ih m (List.mem_of_mem_filter hm)

theorem eq_map_of_forall₂ {α β : Type} {R : α → β → Prop} {f : α → β} {xs : List α} {ys : List β}
    (h : List.Forall₂ R xs ys) (hf : ∀ x ∈ xs, ∀ y, R x y → y = f x) : ys = xs.map f := by
  induction h with
  | nil => rfl
  | cons hxy _ ih =>
    rw [List.forall_mem_cons] at hf
    rw [List.map_cons, hf.1 _ hxy, ih hf.2]

theorem eq_without_of_pruned (h : Pruned names v w) : w = v.without names := by
  induction v using Json.ind generalizing w with
  | scalar s =>
    cases h
    rfl
  | array items ih =>
    cases h with
    | array hitems =>
      rw [without, itemsWithout_eq, eq_map_of_forall₂ hitems fun u hu _ => ih u hu]
  | object members ih =>
    cases h with
    | object hvalues =>
      rw [without, ← zip_membersWithout, eq_map_of_forall₂ hvalues fun u hu _ h => ?_]
      obtain ⟨m, hm, rfl⟩ := List.mem_map.mp hu
      exact ih m (List.mem_of_mem_filter hm) h

/-- There is one value that is left. -/
theorem pruned_iff : Pruned names v w ↔ w = v.without names :=
  ⟨eq_without_of_pruned, fun h => h ▸ pruned_without names v⟩

theorem hasMember_of_without_eq (h : v.without names = v) (hn : n ∈ names) :
    v.hasMember n = false := by
  rw [← h]
  exact hasMember_without hn v

/-! ## The two walks -/

theorem eraseInItems_found (n : String) (items : List Json) :
    (eraseInItems n items).2 = false ↔ ∀ v ∈ items, (eraseMember n v).2 = false := by
  induction items with
  | nil => simp [eraseInItems]
  | cons v rest ih =>
    rw [List.forall_mem_cons, ← ih]
    exact Bool.or_eq_false_iff

theorem eraseInMembers_found (n : String) (members : List (String × Json)) :
    (eraseInMembers n members).2 = false ↔
      ∀ m ∈ members, m.1 ≠ n ∧ (eraseMember n m.2).2 = false := by
  induction members with
  | nil => simp [eraseInMembers]
  | cons m rest ih =>
    obtain ⟨k, v⟩ := m
    have hfound : (eraseInMembers n ((k, v) :: rest)).2 =
        if k = n then true else (eraseMember n v).2 || (eraseInMembers n rest).2 :=
      apply_ite Prod.snd _ _ _
    rw [List.forall_mem_cons, ← ih, hfound]
    by_cases hk : k = n
    · simp [hk]
    · rw [if_neg hk, Bool.or_eq_false_iff]
      exact ⟨fun h => ⟨⟨hk, h.1⟩, h.2⟩, fun h => ⟨h.1.2, h.2⟩⟩

theorem eraseMember_found_iff (n : String) (v : Json) :
    (eraseMember n v).2 = false ↔ v.hasMember n = false := by
  induction v using Json.ind with
  | scalar s => exact Iff.rfl
  | array items ih =>
    rw [hasMember, itemsHaveMember_eq_false]
    exact (eraseInItems_found n items).trans (forall₂_congr ih)
  | object members ih =>
    rw [hasMember_object_eq_false]
    exact (eraseInMembers_found n members).trans
      (forall₂_congr fun m hm => and_congr_right fun _ => ih m hm)

/-- To erase a name finds it exactly if it is there. -/
theorem eraseMember_found (n : String) (v : Json) : (eraseMember n v).2 = v.hasMember n :=
  Bool.eq_iff_iff.mpr (not_iff_not.mp (by simpa using eraseMember_found_iff n v))

/-- A value without a name is left as it is. -/
theorem eraseMember_absent (h : v.hasMember n = false) : eraseMember n v = (v, false) := by
  refine Prod.ext ?_ ((eraseMember_found n v).trans h)
  rw [eraseMember_fst]
  exact without_eq_self (List.forall_mem_singleton.mpr h)

/-- The order in which names are taken out does not matter, nor how often. -/
theorem without_congr {names' : List String} (h : ∀ n, n ∈ names ↔ n ∈ names') (v : Json) :
    v.without names = v.without names' := by
  induction v using Json.ind with
  | scalar s => rfl
  | array items ih =>
    rw [without, without, itemsWithout_eq, itemsWithout_eq]
    exact congrArg Json.array (List.map_congr_left ih)
  | object members ih =>
    have hkept : members.filter (·.1 ∉ names) = members.filter (·.1 ∉ names') := by
      simp only [h]
    rw [without, without, membersWithout_eq, membersWithout_eq, hkept]
    refine congrArg Json.object (List.map_congr_left fun m hm => ?_)
    rw [ih m (List.mem_of_mem_filter hm)]

/--
**To erase a name takes out exactly its members.** The name is no longer there, and it is said to
have been found exactly if it was there. What is left is the value without the members of that name,
and that value is the only one of which this can be said; where nothing was found it is the value
itself. To erase the name again finds nothing and changes nothing, and two names may be erased in
either order.
-/
theorem eraseMember_prunes (v : Json) (n : String) :
    let left := (eraseMember n v).1
    let found := (eraseMember n v).2
    left.hasMember n = false ∧ found = v.hasMember n ∧ (∀ w, Pruned [n] v w ↔ w = left) ∧
      (found = false → left = v) ∧ eraseMember n left = (left, false) ∧
      ∀ m, (eraseMember m left).1 = (eraseMember n (eraseMember m v).1).1 := by
  intro left found
  have hleft : left = v.without [n] := eraseMember_fst n v
  have habsent : left.hasMember n = false := by
    rw [hleft]
    exact hasMember_without (List.mem_singleton.mpr rfl) v
  refine ⟨habsent, eraseMember_found n v, fun w => ?_, fun h => ?_, eraseMember_absent habsent,
    fun m => ?_⟩
  · rw [hleft]
    exact pruned_iff
  · have hnone : v.hasMember n = false := (eraseMember_found n v).symm.trans h
    exact congrArg Prod.fst (eraseMember_absent hnone)
  · rw [eraseMember_fst, eraseMember_fst, eraseMember_fst, hleft, without_without, without_without]
    exact without_congr (fun k => by simp [or_comm]) v

/-- A match within a match goes with it, and its siblings are still looked through. -/
example : eraseMember "a" (.object [("b", .array [.object [("a", .object [("a", .null)])]]),
    ("a", .null), ("c", .object [("a", .null), ("d", .null)])]) =
      (.object [("b", .array [.object []]), ("c", .object [("d", .null)])], true) := rfl

end VehiclePrivacy.Json
