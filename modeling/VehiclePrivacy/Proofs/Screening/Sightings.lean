import VehiclePrivacy.Proofs.Json.Reading
import VehiclePrivacy.Screening

/-!
# The recognised members of a finished message

A screening hears of every value in a message and picks out the recognised ones by their paths.
`sightings` finds the same members in the finished tree by recursion, without paths to look at: it
goes through every container, and stops below a member where nothing is recognised. The main
statement, `heed_listener`, is that a screening is decided by the sightings alone, in their order.

Beside it stand the two facts that tie a sighting to its tree: its place leads to its value
(`get?_of_mem_sightings`), and its field is the one recognised at that place
(`at?_of_mem_sightings`).
-/

namespace VehiclePrivacy

/-- A recognised member: its field, where it stands, and its value. -/
structure Sighting where
  field : Field
  place : Json.Path
  value : Json

mutual

/-- The recognised members in a value at a path, in document order. -/
def sightings (path : Json.Path) : Json → List Sighting
  | .scalar _ => []
  | .array items => sightingsInItems path 0 items
  | .object members => sightingsInMembers path members

/-- The recognised members in the items of an array at a path, from the index `i` on. -/
def sightingsInItems (path : Json.Path) (i : Nat) : List Json → List Sighting
  | [] => []
  | v :: rest => sightings (path ++ [.index i]) v ++ sightingsInItems path (i + 1) rest

/-- The recognised members of an object at a path, and those in its members. -/
def sightingsInMembers (path : Json.Path) : List (String × Json) → List Sighting
  | [] => []
  | (n, v) :: rest =>
    (Field.named? n).toList.map (⟨·, path ++ [.name n], v⟩) ++
      ((if Field.isOpaque n then [] else sightings (path ++ [.name n]) v) ++
        sightingsInMembers path rest)

end

/-! ## Where sightings stand -/

theorem mem_sightingsInItems {path : Json.Path} {i : Nat} {items : List Json} {x : Sighting} :
    x ∈ sightingsInItems path i items ↔
      ∃ k v, items[k]? = some v ∧ x ∈ sightings (path ++ [.index (i + k)]) v := by
  induction items generalizing i with
  | nil => simp [sightingsInItems]
  | cons w rest ih =>
    rw [sightingsInItems, List.mem_append, ih]
    constructor
    · rintro (h | ⟨k, v, hk, h⟩)
      · exact ⟨0, w, rfl, h⟩
      · exact ⟨k + 1, v, hk, by rwa [show i + (k + 1) = i + 1 + k by omega]⟩
    · rintro ⟨k, v, hk, h⟩
      cases k with
      | zero =>
        obtain rfl := Option.some.inj hk
        exact .inl h
      | succ k => exact .inr ⟨k, v, hk, by rwa [show i + 1 + k = i + (k + 1) by omega]⟩

theorem mem_sightingsInMembers {path : Json.Path} {members : List (String × Json)}
    {x : Sighting} :
    x ∈ sightingsInMembers path members ↔
      ∃ n v, (n, v) ∈ members ∧
        ((∃ field, Field.named? n = some field ∧ x = ⟨field, path ++ [.name n], v⟩) ∨
          (Field.isOpaque n = false ∧ x ∈ sightings (path ++ [.name n]) v)) := by
  induction members with
  | nil => simp [sightingsInMembers]
  | cons m rest ih =>
    obtain ⟨n, v⟩ := m
    rw [sightingsInMembers, List.mem_append, List.mem_append, ih]
    have hfield : x ∈ (Field.named? n).toList.map (⟨·, path ++ [.name n], v⟩) ↔
        ∃ field, Field.named? n = some field ∧ x = ⟨field, path ++ [.name n], v⟩ := by
      cases Field.named? n <;> simp
    have hbelow : x ∈ (if Field.isOpaque n then [] else sightings (path ++ [.name n]) v) ↔
        Field.isOpaque n = false ∧ x ∈ sightings (path ++ [.name n]) v := by
      cases Field.isOpaque n <;> simp
    rw [hfield, hbelow]
    constructor
    · rintro (h | h | ⟨k, w, hmem, h⟩)
      · exact ⟨n, v, List.mem_cons_self, .inl h⟩
      · exact ⟨n, v, List.mem_cons_self, .inr h⟩
      · exact ⟨k, w, List.mem_cons_of_mem _ hmem, h⟩
    · rintro ⟨k, w, hmem, h⟩
      rcases List.mem_cons.mp hmem with heq | hmem
      · obtain ⟨rfl, rfl⟩ := Prod.mk.inj heq
        rcases h with h | h
        · exact .inl h
        · exact .inr (.inl h)
      · exact .inr (.inr ⟨k, w, hmem, h⟩)

/-- A sighting stands below the value it was found in, and its place leads to its value. -/
theorem get?_of_mem_sightings {v : Json} (hv : v.Distinct) {path : Json.Path} {x : Sighting}
    (h : x ∈ sightings path v) :
    ∃ step rest, x.place = path ++ step :: rest ∧ v.get? (step :: rest) = some x.value := by
  induction v using Json.ind generalizing path with
  | scalar s => simp [sightings] at h
  | array items ih =>
    cases hv with
    | array hitems =>
    rw [sightings] at h
    obtain ⟨k, w, hk, hx⟩ := mem_sightingsInItems.mp h
    have hw := List.mem_of_getElem? hk
    obtain ⟨step, rest, hplace, hget⟩ := ih w hw (hitems w hw) hx
    refine ⟨.index k, step :: rest, ?_, ?_⟩
    · rw [hplace, Nat.zero_add, List.append_assoc]
      rfl
    · rw [Json.get?, Json.child?, hk]
      exact hget
  | object members ih =>
    cases hv with
    | object hnames hmembers =>
    rw [sightings] at h
    obtain ⟨n, w, hmem, hx⟩ := mem_sightingsInMembers.mp h
    have hlookup := Json.lookup_of_mem hnames hmem
    rcases hx with ⟨field, -, rfl⟩ | ⟨-, hx⟩
    · refine ⟨.name n, [], rfl, ?_⟩
      rw [Json.get?, Json.child?, hlookup]
      rfl
    · obtain ⟨step, rest, hplace, hget⟩ := ih (n, w) hmem (hmembers _ hmem) hx
      refine ⟨.name n, step :: rest, ?_, ?_⟩
      · rw [hplace, List.append_assoc]
        rfl
      · rw [Json.get?, Json.child?, hlookup]
        exact hget

/-- The field of a sighting is the one recognised at its place. -/
theorem at?_of_mem_sightings {v : Json} {path : Json.Path} (hpath : path.any Field.hides = false)
    {x : Sighting} (h : x ∈ sightings path v) : Field.at? x.place = some x.field := by
  induction v using Json.ind generalizing path with
  | scalar s => simp [sightings] at h
  | array items ih =>
    rw [sightings] at h
    obtain ⟨k, w, hk, hx⟩ := mem_sightingsInItems.mp h
    refine ih w (List.mem_of_getElem? hk) ?_ hx
    simp [hpath, Field.hides]
  | object members ih =>
    rw [sightings] at h
    obtain ⟨n, w, hmem, hx⟩ := mem_sightingsInMembers.mp h
    rcases hx with ⟨field, hfield, rfl⟩ | ⟨hopen, hx⟩
    · simp [Field.at?, hpath, hfield]
    · exact ih (n, w) hmem (by simp [hpath, Field.hides, hopen]) hx

/-! ## Screening by sightings -/

/-- What is told of a recognised member, with its field. -/
def Sighting.event (x : Sighting) : Field × Json.Event := (x.field, x.place, Json.head x.value)

/-- An event with the field that is recognised there, if one is. -/
def Field.recognise (e : Json.Event) : Option (Field × Json.Event) := (Field.at? e.1).map (·, e)

/-- Nothing is recognised below a step that hides what is there. -/
theorem Field.at?_hidden {path : Json.Path} (hpath : path.any Field.hides = true)
    (step : Json.Step) (rest : Json.Path) : Field.at? (path ++ step :: rest) = none := by
  rw [Field.at?, if_pos]
  rw [List.dropLast_append_of_ne_nil (List.cons_ne_nil _ _), List.any_append, hpath, Bool.true_or]

/-- The field of a member that nothing hides is told by its name. -/
theorem Field.at?_name {path : Json.Path} (hpath : path.any Field.hides = false) (n : String) :
    Field.at? (path ++ [.name n]) = Field.named? n := by
  simp [Field.at?, hpath]

theorem Field.at?_index (path : Json.Path) (i : Nat) : Field.at? (path ++ [.index i]) = none := by
  simp [Field.at?]

theorem recognise_hidden {path : Json.Path} (hpath : path.any Field.hides = true) (v : Json) :
    (Json.partEvents path v).filterMap Field.recognise = [] := by
  rw [List.filterMap_eq_nil_iff]
  rintro ⟨p, x⟩ he
  obtain ⟨step, rest, rfl⟩ := Json.below_partEvents path v _ he
  rw [Field.recognise, Field.at?_hidden hpath]
  rfl

mutual

/-- What is recognised of what is told of a value are its sightings. -/
theorem recognise_partEvents {path : Json.Path} (hpath : path.any Field.hides = false) :
    ∀ v : Json,
      (Json.partEvents path v).filterMap Field.recognise =
        (sightings path v).map Sighting.event
  | .scalar _ => rfl
  | .array items => recognise_itemEvents hpath 0 items
  | .object members => recognise_memberEvents hpath members

theorem recognise_itemEvents {path : Json.Path} (hpath : path.any Field.hides = false) (i : Nat) :
    ∀ items : List Json,
      (Json.itemEvents path i items).filterMap Field.recognise =
        (sightingsInItems path i items).map Sighting.event
  | [] => rfl
  | v :: rest => by
    have hstep : (path ++ [Json.Step.index i]).any Field.hides = false := by
      simp [hpath, Field.hides]
    have hnone : Field.recognise (path ++ [.index i], Json.head v) = none := by
      rw [Field.recognise, Field.at?_index]
      rfl
    rw [Json.itemEvents, List.filterMap_cons_none hnone, List.filterMap_append,
      recognise_partEvents hstep v, recognise_itemEvents hpath (i + 1) rest, sightingsInItems,
      List.map_append]

theorem recognise_memberEvents {path : Json.Path} (hpath : path.any Field.hides = false) :
    ∀ members : List (String × Json),
      (Json.memberEvents path members).filterMap Field.recognise =
        (sightingsInMembers path members).map Sighting.event
  | [] => rfl
  | (n, v) :: rest => by
    -- below an opaque member there are events, but none is recognised
    have hbelow : (Json.partEvents (path ++ [.name n]) v).filterMap Field.recognise =
        (if Field.isOpaque n then [] else sightings (path ++ [.name n]) v).map Sighting.event := by
      cases hn : Field.isOpaque n with
      | true => exact recognise_hidden (by simp [Field.hides, hn]) v
      | false => exact recognise_partEvents (by simp [hpath, Field.hides, hn]) v
    have hhead : [(path ++ [Json.Step.name n], Json.head v)].filterMap Field.recognise =
        ((Field.named? n).toList.map fun x => Sighting.mk x (path ++ [.name n]) v).map
          Sighting.event := by
      rw [List.filterMap_cons, Field.recognise, Field.at?_name hpath]
      cases Field.named? n <;> rfl
    rw [Json.memberEvents, ← List.singleton_append, List.filterMap_append, List.filterMap_append,
      hhead, hbelow, recognise_memberEvents hpath rest, sightingsInMembers, List.map_append,
      List.map_append]

end

namespace Screening

/-- A screening takes in a recognised member. -/
def notice (f : Filters) (s : Screening) (x : Sighting) : Screening :=
  if s.has x.field then s else s.hearField f x.field x.place (Json.head x.value)

/-- A screening takes in recognised members until it rejects the message. -/
def noticeAll (f : Filters) (s : Screening) (xs : List Sighting) : Screening :=
  Json.stepUntil (notice f) (fun s => !s.verdict.retains) s xs

/--
**A screening is decided by the sightings.** A screening that is told of a whole message is left as
if it had taken in the recognised members alone.
-/
theorem heed_listener (f : Filters) {s : Screening} (hs : s.verdict.retains = true) (v : Json) :
    Json.heed (listener f) s (Json.events [] v) = s.noticeAll f (sightings [] v) := by
  -- a screening hears of a recognised value only through its field, path and head
  let hearAt (s : Screening) (e : Field × Json.Event) : Screening :=
    if s.has e.1 then s else s.hearField f e.1 e.2.1 e.2.2
  have hstop : (listener f).stop s = false := by
    show (!s.verdict.retains) = false
    rw [hs]
    rfl
  have hroot : Field.recognise ([], Json.head v) = none := rfl
  have hskip : ∀ (s : Screening) (e : Json.Event), Field.recognise e = none →
      (listener f).hear s e.1 e.2 = s := by
    intro s e he
    show hear f s e.1 e.2 = s
    rw [hear, Option.map_eq_none_iff.mp he]
  have htake : ∀ (s : Screening) (e : Json.Event) x, Field.recognise e = some x →
      (listener f).hear s e.1 e.2 = hearAt s x := by
    intro s e x hx
    obtain ⟨field, hfield, rfl⟩ := Option.map_eq_some_iff.mp hx
    show hear f s e.1 e.2 = _
    rw [hear, hfield]
  rw [Json.heed, Json.stepUntil_filterMap hskip htake hstop, Json.events,
    List.filterMap_cons_none hroot, recognise_partEvents rfl]
  have hmap : ∀ s x, notice f s x = hearAt s (Sighting.event x) := fun _ _ => rfl
  exact (Json.stepUntil_map hmap s (sightings [] v)).symm

end Screening

end VehiclePrivacy
