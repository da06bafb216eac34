import VehiclePrivacy.Json.Path

/-!
# Values by their structure

Induction over a value with one case for each kind, the values in which no object repeats a name,
and how paths lead through them. Names matter to paths: a step by name goes to the first member of
that name, so only without repetitions does every part of a value have a path of its own.
-/

namespace VehiclePrivacy.Json

/-- Induction over a value: a container has what all its parts have. -/
@[elab_as_elim]
theorem ind {P : Json → Prop} (scalar : ∀ s, P (.scalar s))
    (array : ∀ items, (∀ v ∈ items, P v) → P (.array items))
    (object : ∀ members, (∀ m ∈ members, P m.2) → P (.object members)) (v : Json) : P v := by
  cases v with
  | scalar s => exact scalar s
  | array items => exact array items fun w hw => ind scalar array object w
  | object members => exact object members fun m hm => ind scalar array object m.2
termination_by sizeOf v
decreasing_by
  · have := List.sizeOf_lt_of_mem hw
    simp only [Json.array.sizeOf_spec]
    omega
  · have := List.sizeOf_lt_of_mem hm
    obtain ⟨n, w⟩ := m
    simp only [Json.object.sizeOf_spec, Prod.mk.sizeOf_spec] at this ⊢
    omega

/-- No object in the value has two members of one name. -/
inductive Distinct : Json → Prop where
  | scalar (s : Scalar) : Distinct (.scalar s)
  | array {items : List Json} : (∀ v ∈ items, Distinct v) → Distinct (.array items)
  | object {members : List (String × Json)} :
      (members.map Prod.fst).Nodup → (∀ m ∈ members, Distinct m.2) → Distinct (.object members)

/-- The first member of a name is the only one where names are not repeated. -/
theorem lookup_of_mem {members : List (String × Json)} {n : String} {v : Json}
    (hnames : (members.map Prod.fst).Nodup) (h : (n, v) ∈ members) : members.lookup n = some v := by
  induction members with
  | nil => cases h
  | cons m rest ih =>
    obtain ⟨k, w⟩ := m
    rw [List.map_cons, List.nodup_cons] at hnames
    rcases List.mem_cons.mp h with heq | hmem
    · obtain ⟨rfl, rfl⟩ := Prod.mk.inj heq
      exact List.lookup_cons_self
    · have hn : n ∈ rest.map Prod.fst := List.mem_map_of_mem (f := Prod.fst) hmem
      have hne : n ≠ k := fun he => hnames.1 (he ▸ hn)
      rw [List.lookup_cons, beq_false_of_ne hne]
      exact ih hnames.2 hmem

theorem mem_of_lookup {members : List (String × Json)} {n : String} {v : Json}
    (h : members.lookup n = some v) : (n, v) ∈ members := by
  induction members with
  | nil => cases h
  | cons m rest ih =>
    obtain ⟨k, w⟩ := m
    rw [List.lookup_cons] at h
    cases hk : n == k with
    | true =>
      rw [hk] at h
      rw [eq_of_beq hk, ← Option.some.inj h]
      exact List.mem_cons_self
    | false =>
      rw [hk] at h
      exact List.mem_cons_of_mem _ (ih h)

/-! ## Paths -/

theorem get?_append (v : Json) (p q : Path) : v.get? (p ++ q) = (v.get? p).bind (·.get? q) := by
  induction p generalizing v with
  | nil => rfl
  | cons s p ih =>
    rw [List.cons_append, get?, get?]
    cases v.child? s with
    | none => rfl
    | some w => exact ih w

/-- A scalar has no parts. -/
theorem get?_scalar {s : Scalar} {p : Path} {w : Json} (h : (Json.scalar s).get? p = some w) :
    p = [] := by
  cases p with
  | nil => rfl
  | cons step p => exact absurd h (by cases step <;> simp [get?, child?])

end VehiclePrivacy.Json
