import VehiclePrivacy.Proofs.Json.Structure
import VehiclePrivacy.Redaction.MemberList

/-!
# Values without the members of some names

Names are taken out of a value one at a time, and each time the whole value is gone through.
`without` takes all of them out at once. The two come to the same (`redact?_fst`), since to take out
more names after some others is to take out all of them together (`without_without`).
-/

namespace VehiclePrivacy

namespace Json

mutual

/-- A value without the members of the listed names, at any depth. -/
def without (names : List String) : Json → Json
  | .scalar s => .scalar s
  | .array items => .array (itemsWithout names items)
  | .object members => .object (membersWithout names members)

/-- Items without the members of the listed names. -/
def itemsWithout (names : List String) : List Json → List Json
  | [] => []
  | v :: rest => v.without names :: itemsWithout names rest

/-- The members of other names, their values without the members of the listed names. -/
def membersWithout (names : List String) : List (String × Json) → List (String × Json)
  | [] => []
  | (n, v) :: rest =>
    if n ∈ names then membersWithout names rest
    else (n, v.without names) :: membersWithout names rest

end

theorem itemsWithout_eq (names : List String) (items : List Json) :
    itemsWithout names items = items.map (without names) := by
  induction items with
  | nil => rfl
  | cons v rest ih => rw [itemsWithout, ih, List.map_cons]

theorem mem_membersWithout {names : List String} {members : List (String × Json)}
    {m : String × Json} :
    m ∈ membersWithout names members ↔
      m.1 ∉ names ∧ ∃ v, (m.1, v) ∈ members ∧ m.2 = v.without names := by
  induction members with
  | nil => simp [membersWithout]
  | cons k rest ih =>
    obtain ⟨n, v⟩ := k
    obtain ⟨n', w⟩ := m
    rw [membersWithout]
    by_cases hn : n ∈ names
    · rw [if_pos hn, ih]
      refine and_congr_right fun hn' => exists_congr fun u => and_congr_left fun _ => ?_
      rw [List.mem_cons]
      refine ⟨.inr, fun h => h.resolve_left fun he => hn' ?_⟩
      rw [(Prod.mk.inj he).1]
      exact hn
    · rw [if_neg hn, List.mem_cons, ih]
      constructor
      · rintro (h | ⟨hn', u, hu, hw⟩)
        · obtain ⟨rfl, rfl⟩ := Prod.mk.inj h
          exact ⟨hn, v, List.mem_cons_self, rfl⟩
        · exact ⟨hn', u, List.mem_cons_of_mem _ hu, hw⟩
      · rintro ⟨hn', u, hu, hw⟩
        rcases List.mem_cons.mp hu with he | hu
        · obtain ⟨rfl, rfl⟩ := Prod.mk.inj he
          exact .inl (Prod.ext rfl hw)
        · exact .inr ⟨hn', u, hu, hw⟩

/-- Taking members out leaves no new names. -/
theorem names_membersWithout (names : List String) (members : List (String × Json)) :
    ((membersWithout names members).map Prod.fst).Sublist (members.map Prod.fst) := by
  induction members with
  | nil => exact .slnil
  | cons m rest ih =>
    obtain ⟨n, v⟩ := m
    rw [membersWithout, List.map_cons]
    split
    · exact ih.cons n
    · exact ih.cons_cons n

/-- Taking members out keeps names distinct. -/
theorem Distinct.without {v : Json} (hv : v.Distinct) (names : List String) :
    (v.without names).Distinct := by
  induction hv with
  | scalar s => exact .scalar s
  | array _ ih =>
    refine .array fun w hw => ?_
    rw [itemsWithout_eq] at hw
    obtain ⟨u, hu, rfl⟩ := List.mem_map.mp hw
    exact ih u hu
  | object hnames _ ih =>
    refine .object ((names_membersWithout names _).nodup hnames) fun m hm => ?_
    obtain ⟨-, v, hv, heq⟩ := mem_membersWithout.mp hm
    rw [heq]
    exact ih _ hv

/-! ## Whether a member is there -/

theorem itemsHaveMember_eq_false {n : String} {items : List Json} :
    itemsHaveMember n items = false ↔ ∀ v ∈ items, v.hasMember n = false := by
  induction items with
  | nil => simp [itemsHaveMember]
  | cons v rest ih => rw [itemsHaveMember, Bool.or_eq_false_iff, ih, List.forall_mem_cons]

theorem membersHaveMember_eq_false {n : String} {members : List (String × Json)} :
    membersHaveMember n members = false ↔ ∀ m ∈ members, m.2.hasMember n = false := by
  induction members with
  | nil => simp [membersHaveMember]
  | cons m rest ih =>
    obtain ⟨k, v⟩ := m
    rw [membersHaveMember, Bool.or_eq_false_iff, ih, List.forall_mem_cons]

theorem hasMember_object_eq_false {n : String} {members : List (String × Json)} :
    (Json.object members).hasMember n = false ↔
      ∀ m ∈ members, m.1 ≠ n ∧ m.2.hasMember n = false := by
  rw [hasMember, Bool.or_eq_false_iff, membersHaveMember_eq_false, List.any_eq_false]
  constructor
  · rintro ⟨h, h'⟩ m hm
    exact ⟨fun he => h m hm (beq_iff_eq.mpr he), h' m hm⟩
  · intro h
    exact ⟨fun m hm he => (h m hm).1 (beq_iff_eq.mp he), fun m hm => (h m hm).2⟩

/-- No member of a name that is taken out is left. -/
theorem hasMember_without {names : List String} {n : String} (hn : n ∈ names) (v : Json) :
    (v.without names).hasMember n = false := by
  induction v using Json.ind with
  | scalar s => rfl
  | array items ih =>
    rw [without, hasMember, itemsHaveMember_eq_false, itemsWithout_eq]
    intro w hw
    obtain ⟨u, hu, rfl⟩ := List.mem_map.mp hw
    exact ih u hu
  | object members ih =>
    rw [without, hasMember_object_eq_false]
    intro m hm
    obtain ⟨hm', u, hu, heq⟩ := mem_membersWithout.mp hm
    refine ⟨fun he => hm' (he ▸ hn), ?_⟩
    rw [heq]
    exact ih _ hu

/-- To take out what is not there changes nothing. -/
theorem without_eq_self {names : List String} {v : Json}
    (h : ∀ n ∈ names, v.hasMember n = false) : v.without names = v := by
  induction v using Json.ind with
  | scalar s => rfl
  | array items ih =>
    rw [without, itemsWithout_eq]
    refine congrArg Json.array ((List.map_congr_left fun v hv => ?_).trans (List.map_id _))
    exact ih v hv fun n hn => itemsHaveMember_eq_false.mp (h n hn) v hv
  | object members ih =>
    rw [without]
    refine congrArg Json.object ?_
    -- what holds of every member, before the induction over them
    have hmem : ∀ m ∈ members, m.1 ∉ names ∧ m.2.without names = m.2 := fun m hm =>
      ⟨fun hn => (hasMember_object_eq_false.mp (h _ hn) m hm).1 rfl,
        ih m hm fun n hn => (hasMember_object_eq_false.mp (h n hn) m hm).2⟩
    clear ih h
    induction members with
    | nil => rfl
    | cons m rest ih =>
      obtain ⟨k, v⟩ := m
      obtain ⟨hk, hv⟩ := hmem _ List.mem_cons_self
      rw [membersWithout, if_neg hk, hv, ih fun m hm => hmem m (List.mem_cons_of_mem _ hm)]

/-! ## Names one at a time -/

/-- More names are taken out after some others as they are together with them. -/
theorem without_without (ms ns : List String) (v : Json) :
    (v.without ms).without ns = v.without (ms ++ ns) := by
  induction v using Json.ind with
  | scalar s => rfl
  | array items ih =>
    rw [without, without, without, itemsWithout_eq, itemsWithout_eq, itemsWithout_eq, List.map_map]
    exact congrArg Json.array (List.map_congr_left ih)
  | object members ih =>
    rw [without, without, without]
    refine congrArg Json.object ?_
    -- a member goes with the first names, with the others, or not at all
    induction members with
    | nil => rfl
    | cons m rest hrest =>
      obtain ⟨k, v⟩ := m
      have hv := ih _ List.mem_cons_self
      have hmore := hrest fun m hm => ih m (List.mem_cons_of_mem _ hm)
      by_cases hms : k ∈ ms
      · rw [membersWithout, if_pos hms, membersWithout, if_pos (List.mem_append_left _ hms), hmore]
      · rw [membersWithout, if_neg hms, membersWithout, membersWithout, hmore]
        by_cases hns : k ∈ ns
        · rw [if_pos hns, if_pos (List.mem_append_right _ hns)]
        · rw [if_neg hns, if_neg (fun h => (List.mem_append.mp h).elim hms hns), hv]

theorem eraseInItems_fst (n : String) (items : List Json) :
    (eraseInItems n items).1 = items.map fun v => (eraseMember n v).1 := by
  induction items with
  | nil => rfl
  | cons v rest ih => exact congrArg ((eraseMember n v).1 :: ·) ih

theorem eraseInMembers_fst (n k : String) (v : Json) (rest : List (String × Json)) :
    (eraseInMembers n ((k, v) :: rest)).1 =
      if k = n then (eraseInMembers n rest).1
      else (k, (eraseMember n v).1) :: (eraseInMembers n rest).1 :=
  apply_ite Prod.fst _ _ _

/-- To erase a name is to take out that one. -/
theorem eraseMember_fst (n : String) (v : Json) : (eraseMember n v).1 = v.without [n] := by
  induction v using Json.ind with
  | scalar s => rfl
  | array items ih =>
    rw [eraseMember, without, itemsWithout_eq]
    exact congrArg Json.array ((eraseInItems_fst n items).trans (List.map_congr_left ih))
  | object members ih =>
    rw [eraseMember, without]
    refine congrArg Json.object ?_
    induction members with
    | nil => rfl
    | cons m rest hrest =>
      obtain ⟨k, v⟩ := m
      have hmore := hrest fun m hm => ih m (List.mem_cons_of_mem _ hm)
      rw [eraseInMembers_fst, membersWithout, ← hmore, ← ih _ List.mem_cons_self]
      by_cases hk : k = n
      · rw [if_pos hk, if_pos (List.mem_singleton.mpr hk)]
      · rw [if_neg hk, if_neg fun h => hk (List.mem_singleton.mp h)]

end Json

namespace MemberList

open Json

/-- Whether a name was there or not, it is taken out. -/
theorem strip_fst (block : Json × Nat) (n : String) : (strip block n).1 = block.1.without [n] := by
  obtain ⟨v, count⟩ := block
  rw [strip]
  cases h : v.hasMember n with
  | true => exact eraseMember_fst n v
  | false =>
    refine (without_eq_self fun m hm => ?_).symm
    rw [List.mem_singleton.mp hm]
    exact h

theorem foldl_strip_fst (names : List String) (block : Json × Nat) :
    (names.foldl strip block).1 = block.1.without names := by
  induction names generalizing block with
  | nil => exact (without_eq_self (by simp)).symm
  | cons n names ih =>
    rw [List.foldl_cons, ih, strip_fst, without_without]
    rfl

/-- A block that is redacted is left without the listed members. -/
theorem redact?_fst {l : MemberList} {block : Json} {r : Json × Nat}
    (h : l.redact? block = some r) : r.1 = block.without l.names := by
  unfold redact? at h
  split at h
  · rw [← Option.some.inj h]
    rfl
  · cases h
  · rw [← Option.some.inj h, foldl_strip_fst]

/-- What is no block. -/
theorem redact?_eq_none {l : MemberList} {block : Json} :
    l.redact? block = none ↔ ∃ s, block = .scalar s ∧ s ≠ .null := by
  unfold redact?
  split
  · simp
  · rename_i s hs
    exact ⟨fun _ => ⟨s, rfl, hs⟩, fun _ => rfl⟩
  · rename_i h
    constructor
    · intro hn
      cases hn
    · rintro ⟨s, rfl, -⟩
      exact absurd rfl (h s)

end MemberList

end VehiclePrivacy
