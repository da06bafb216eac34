import VehiclePrivacy.Proofs.Redaction.Rules

/-!
# What opaque members can do to a message

Below a member `metadata` or `partII` nothing is recognised. `veil` forgets what such members hold,
so two messages with the same veil differ nowhere else. A screening is the same for a message and
its veil (`noticeAll_veil`), and so are the edits that the rules make (`edits_veil`): what an opaque
member holds can neither decide anything nor lead an edit to another place.

Edits that are made outside of opaque members do not look at what they replace (`Edits.Blind`). Such
edits keep two messages with the same veil alike (`veil_rewrite`).
-/

namespace VehiclePrivacy

namespace Json

mutual

/-- A value in which the opaque members hold nothing. -/
def veil : Json → Json
  | .scalar s => .scalar s
  | .array items => .array (veilItems items)
  | .object members => .object (veilMembers members)

/-- Items in which the opaque members hold nothing. -/
def veilItems : List Json → List Json
  | [] => []
  | v :: rest => v.veil :: veilItems rest

/-- Members that hold nothing if they are opaque. -/
def veilMembers : List (String × Json) → List (String × Json)
  | [] => []
  | (n, v) :: rest => (n, if Field.isOpaque n then null else v.veil) :: veilMembers rest

end

theorem veilItems_eq (items : List Json) : veilItems items = items.map veil := by
  induction items with
  | nil => rfl
  | cons v rest ih => rw [veilItems, ih, List.map_cons]

theorem veilMembers_eq (members : List (String × Json)) :
    veilMembers members =
      members.map fun m => (m.1, if Field.isOpaque m.1 then null else m.2.veil) := by
  induction members with
  | nil => rfl
  | cons m rest ih => rw [veilMembers, ih, List.map_cons]

theorem head_veil (v : Json) : head v.veil = head v := by
  cases v <;> rfl

end Json

/-! ## Recognised members behind a veil -/

/-- Of the recognised members, part II is the opaque one. -/
theorem Field.isOpaque_of_named? {n : String} {field : Field} (h : Field.named? n = some field) :
    Field.isOpaque n = decide (field = .partII) := by
  rw [Field.named?_eq_some_iff] at h
  rw [Bool.eq_iff_iff, Field.isOpaque_iff, decide_eq_true_eq]
  cases field
  all_goals
    simp only [Field.names, List.mem_cons, List.not_mem_nil, or_false] at h
    rcases h with rfl | rfl | rfl
  all_goals decide

namespace Sighting

/-- The member with its value behind the veil. -/
def veil (x : Sighting) : Sighting :=
  { x with value := if x.field = .partII then .null else x.value.veil }

variable {x : Sighting}

@[simp] theorem veil_field (x : Sighting) : x.veil.field = x.field := rfl

@[simp] theorem veil_place (x : Sighting) : x.veil.place = x.place := rfl

theorem veil_settles (x : Sighting) : x.veil.settles = x.settles := by
  obtain ⟨field, p, value⟩ := x
  cases field <;> cases value <;> rfl

theorem veil_text? (h : x.field = .id) : x.veil.text? = x.text? := by
  obtain ⟨field, p, value⟩ := x
  obtain rfl : field = .id := h
  cases value <;> rfl

end Sighting

mutual

/-- The recognised members behind a veil are those without it. -/
theorem sightings_veil (path : Json.Path) :
    ∀ v : Json, sightings path v.veil = (sightings path v).map Sighting.veil
  | .scalar _ => rfl
  | .array items => sightingsInItems_veil path 0 items
  | .object members => sightingsInMembers_veil path members

theorem sightingsInItems_veil (path : Json.Path) (i : Nat) :
    ∀ items : List Json,
      sightingsInItems path i (Json.veilItems items) =
        (sightingsInItems path i items).map Sighting.veil
  | [] => rfl
  | v :: rest => by
    rw [Json.veilItems, sightingsInItems, sightings_veil _ v,
      sightingsInItems_veil path (i + 1) rest, sightingsInItems, List.map_append]

theorem sightingsInMembers_veil (path : Json.Path) :
    ∀ members : List (String × Json),
      sightingsInMembers path (Json.veilMembers members) =
        (sightingsInMembers path members).map Sighting.veil
  | [] => rfl
  | (n, v) :: rest => by
    have hhead : (Field.named? n).toList.map
          (Sighting.mk · (path ++ [.name n]) (if Field.isOpaque n then .null else v.veil)) =
        ((Field.named? n).toList.map (Sighting.mk · (path ++ [.name n]) v)).map Sighting.veil := by
      cases hn : Field.named? n with
      | none => rfl
      | some field => simp [Sighting.veil, Field.isOpaque_of_named? hn]
    have hbelow : (if Field.isOpaque n then []
          else sightings (path ++ [.name n]) (if Field.isOpaque n then .null else v.veil)) =
        (if Field.isOpaque n then [] else sightings (path ++ [.name n]) v).map Sighting.veil := by
      cases Field.isOpaque n with
      | true => rfl
      | false => exact sightings_veil _ v
    rw [Json.veilMembers, sightingsInMembers, hhead, hbelow, sightingsInMembers_veil path rest,
      sightingsInMembers, List.map_append, List.map_append]

end

theorem first?_veil (field : Field) (xs : List Sighting) :
    first? field (xs.map Sighting.veil) = (first? field xs).map Sighting.veil := by
  rw [first?, List.find?_map, first?]
  congr 2
  funext x
  exact congrArg ((x.field == field) && ·) x.veil_settles

namespace Screening

theorem notice_veil (f : Filters) (s : Screening) (x : Sighting) :
    notice f s x.veil = notice f s x := by
  obtain ⟨field, p, value⟩ := x
  -- of part II nothing is heard but that it is there
  by_cases hpartII : field = .partII
  · subst hpartII
    rfl
  · have hvalue : (Sighting.mk field p value).veil = ⟨field, p, value.veil⟩ := by
      rw [Sighting.veil, if_neg hpartII]
    rw [hvalue, notice, notice, Json.head_veil]

/-- A screening hears nothing of what is behind a veil. -/
theorem noticeAll_veil (f : Filters) (s : Screening) (xs : List Sighting) :
    s.noticeAll f (xs.map Sighting.veil) = s.noticeAll f xs :=
  (Json.stepUntil_map (fun s x => (notice_veil f s x).symm) s xs).symm

end Screening

/-! ## Edits behind a veil -/

namespace Rules

variable {r : Rules} {a : Activation} {pseudonym : String}

theorem edit?_veil (x : Sighting) : r.edit? a pseudonym x.veil = r.edit? a pseudonym x := by
  unfold edit?
  rw [Sighting.veil_field]
  cases hx : x.field with
  | id => rw [Sighting.veil_text? hx]
  | _ => rfl

theorem editsOf_veil (xs : List Sighting) (field : Field) :
    r.editsOf a pseudonym (xs.map Sighting.veil) field = r.editsOf a pseudonym xs field := by
  rw [editsOf, editsOf, first?_veil]
  cases first? field xs with
  | none => rfl
  | some x =>
    rw [Option.map_some]
    dsimp only
    rw [edit?_veil, Sighting.veil_place]

/-- The rules make the same edits whatever is behind a veil. -/
theorem edits_veil (xs : List Sighting) :
    r.edits a pseudonym (xs.map Sighting.veil) = r.edits a pseudonym xs := by
  simp only [edits, scalarEdits, editsOf_veil]

end Rules

namespace Json

variable {edits : Edits} {path : Path}

/-- Outside of opaque members, the edits do not look at what they replace. -/
def Edits.Blind (edits : Edits) : Prop :=
  ∀ p e, edits p = some e → p.any Field.hides = true ∨ ∀ v w, e v = e w

/-- Blind edits make the same of a value and its veil, but for what is behind it. -/
theorem veil_rewrite (he : edits.Blind) (hpath : path.any Field.hides = false) (v : Json) :
    (rewrite edits path v.veil).veil = (rewrite edits path v).veil := by
  induction v using Json.ind generalizing path with
  | scalar s => rfl
  | array items ih =>
    cases h : edits path with
    | some e =>
      have hconst := (he path e h).resolve_left (by rw [hpath]; nofun)
      rw [rewrite_some h, rewrite_some h, hconst]
    | none =>
      rw [rewrite_none h, rewrite_none h, veil, rewriteParts, rewriteParts, veil, veil,
        rewriteItems_eq, rewriteItems_eq, veilItems_eq, veilItems_eq, veilItems_eq]
      refine congrArg Json.array (List.ext_getElem (by simp) fun k hk _ => ?_)
      rw [List.getElem_map, List.getElem_map, List.getElem_mapIdx, List.getElem_mapIdx,
        List.getElem_map]
      exact ih _ (List.getElem_mem _) (by simp [hpath, Field.hides])
  | object members ih =>
    cases h : edits path with
    | some e =>
      have hconst := (he path e h).resolve_left (by rw [hpath]; nofun)
      rw [rewrite_some h, rewrite_some h, hconst]
    | none =>
      rw [rewrite_none h, rewrite_none h, veil, rewriteParts, rewriteParts, veil, veil,
        rewriteMembers_eq, rewriteMembers_eq, veilMembers_eq, veilMembers_eq, veilMembers_eq,
        List.map_map, List.map_map, List.map_map]
      refine congrArg Json.object (List.map_congr_left fun m hm => Prod.ext rfl ?_)
      cases hn : Field.isOpaque m.1 with
      | true => simp only [Function.comp_apply, hn, if_pos]
      | false =>
        simp only [Function.comp_apply, hn, if_neg Bool.false_ne_true]
        exact ih m hm (by simp only [List.any_append, hpath]; simp [Field.hides, hn])

end Json

/-- Of the edits of the rules, the one that looks at what it replaces is made to part II. -/
theorem Rules.edits_blind {r : Rules} {a : Activation} {pseudonym : String} {tree : Json} :
    (r.edits a pseudonym (sightings [] tree)).Blind := by
  intro p e h
  obtain ⟨field, x, hx, rfl, he⟩ := member_of_edits h
  have hat := at?_of_mem_sightings rfl (mem_of_first? hx)
  rcases edit?_cases he with ⟨hpartII, -⟩ | ⟨s, hs⟩
  · exact .inl (hides_of_partII (hat.trans (congrArg some hpartII)))
  · exact .inr fun v w => by rw [hs, hs]

end VehiclePrivacy
