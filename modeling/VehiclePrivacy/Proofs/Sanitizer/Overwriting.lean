import VehiclePrivacy.Proofs.Sanitizer.PartII
import VehiclePrivacy.Proofs.Sanitizer.Places

/-!
# What is overwritten in the output

The id and the dimensions that settled their fields are overwritten where they stood, and all other
scalars of these names are left alone (`emit_overwrites`). For a message may bear the names of its
fields more than once, and then the first ones count: what is said again further down is given out
as it was (`repeated_members_survive`).
-/

namespace VehiclePrivacy

variable {tree : Json} {field : Field} {x y : Sighting}

namespace Sanitizer

variable {s : Sanitizer}

/-- Where a member settled its field, the redacted message has what its edit makes of it. -/
theorem get?_redacted_of_edit (ht : Screened tree)
    (hx : first? field (sightings [] tree) = some x) {e : Json → Json}
    (he : s.rules.edit? s.active (s.rules.id.pseudonym.draw s.entropy).1 x = some e) :
    (s.redacted tree).get? x.place = some (e x.value) := by
  have h : (s.redacted tree).get? x.place =
      some (Json.rewrite (s.edits tree) ([] ++ x.place) x.value) :=
    Json.get?_rewrite (get?_of_first? ht hx) fun q step rest hplace =>
      Rules.edits_above ht hx hplace
  have hat : s.edits tree x.place = some e := (Rules.edits_first ht hx).trans he
  rw [h, List.nil_append, Json.rewrite_some hat]

/-- A recognised scalar that settled no field is kept. -/
theorem get?_redacted_of_later (ht : Screened tree) (hx : x ∈ sightings [] tree)
    {v : Scalar} (hv : x.value = .scalar v)
    (hlater : ∀ field, first? field (sightings [] tree) ≠ some x) :
    (s.redacted tree).get? x.place = some x.value := by
  obtain ⟨step, rest, hplace, hget⟩ := get?_of_mem_sightings ht.distinct hx
  rw [List.nil_append] at hplace
  refine get?_redacted (hplace ▸ hget) fun field y hy => ⟨fun h => ?_, fun h => ?_⟩
  · have hyx := eq_of_first? ht hy hx h
    exact hlater field (hyx ▸ hy)
  · have hxy := Sighting.eq_of_prefix ht.distinct hx (mem_of_first? hy) (.inr ⟨v, hv⟩) h
    exact hlater field (hxy ▸ hy)

/--
**The first id and the first dimensions are overwritten, and no others.** Of a message that is
retained, the members that settled their fields are the first ones outside of `metadata` and part II
whose values are not `null`. Where ids are redacted, the id among them holds the pseudonym if the
rule applies to its text; where dimensions are redacted, the width and the length among them hold
the number of the rule. All recognised members stand where they stood, and a scalar that settled no
field is given out as it was.
-/
theorem emit_overwrites (s : Sanitizer) (message : String)
    (h : (s.receive message).2.verdict = .success) :
    ∃ tree out, Json.parse message = .ok tree ∧ (s.receive message).2.emit.1 = out.render ∧
      (s.active.has .idRedaction = true → ∀ x id, first? .id (sightings [] tree) = some x →
        x.text? = some id → s.rules.id.applies id = true →
          out.get? x.place = some (.string (s.rules.id.pseudonym.draw s.entropy).1)) ∧
      (s.active.has .sizeRedaction = true → ∀ field x, field = .width ∨ field = .length →
        first? field (sightings [] tree) = some x →
          out.get? x.place = some s.rules.size.value) ∧
      ((sightings [] out).map fun x => (x.field, x.place)) =
        ((sightings [] tree).map fun x => (x.field, x.place)) ∧
      ∀ x ∈ sightings [] tree, ∀ v, x.value = .scalar v →
        (∀ field, first? field (sightings [] tree) ≠ some x) → out.get? x.place = some x.value := by
  obtain ⟨tree, d, hparse, ht, hd, htree, houtput⟩ := retained_cases h
  refine ⟨tree, s.redacted tree, hparse, ?_, fun ha x id hx hid happlies => ?_,
    fun ha field x hfield hx => ?_, ?_,
    fun x hx v hv hlater => get?_redacted_of_later ht hx hv hlater⟩
  · rw [emit_retained h htree houtput, hd.edited, redacted]
  · have ha : s.active.idRedaction = true := ha
    refine get?_redacted_of_edit ht hx (e := fun _ => .string _) ?_
    rw [Rules.edit?, field_of_first? hx, ha, hid]
    simp [happlies]
  · have ha : s.active.sizeRedaction = true := ha
    refine get?_redacted_of_edit ht hx (e := fun _ => s.rules.size.value) ?_
    rw [Rules.edit?, field_of_first? hx, ha]
    rcases hfield with rfl | rfl <;> rfl
  · rw [redacted, edits, Rules.sightings_redacted ht, List.map_map]
    rfl

/-- So it is for a message with an id, and a width as a string. -/
theorem emit_overwrites_of_vehicle :
    let s := { ofSettings {} (fun _ => true) (mkStdGen 7) with
      active := ⟨false, false, true, true, false⟩, rules := ⟨.everyId (.fixed "X"), {}, ⟨0⟩⟩ }
    let message := "\x7b\"id\":\"A1\",\"size\":\x7b\"width\":\"2\"\x7d\x7d"
    (s.receive message).2.verdict = .success ∧
      ∃ out : Json, (s.receive message).2.emit.1 = out.render ∧
        out.get? [.name "id"] = some (.string "X") ∧
        out.get? [.name "size", .name "width"] = some s.rules.size.value := by
  intro s message
  have hretained : (s.receive message).2.verdict = .success := by decide +kernel
  have hread : Json.parse message =
      .ok (.object [("id", .string "A1"), ("size", .object [("width", .string "2")])]) := by
    dsimp only [message]
    rfl
  obtain ⟨tree, out, hparse, hemit, hid, hsize, -, -⟩ := emit_overwrites s message hretained
  obtain rfl := Except.ok.inj (hread.symm.trans hparse)
  exact ⟨hretained, out, hemit, hid rfl _ "A1" rfl rfl rfl, hsize rfl .width _ (.inl rfl) rfl⟩

/-- An id and a width that are said again in a trailer are given out there as they were. -/
theorem repeated_members_survive :
    (¬ ∀ (s : Sanitizer) (message : String) (tree out : Json),
      s.active.has .idRedaction = true → (s.receive message).2.verdict = .success →
      Json.parse message = .ok tree → (s.receive message).2.emit.1 = out.render →
      ∀ x ∈ sightings [] tree, x.field = .id → x.value ≠ .null →
        ∀ id, x.text? = some id → s.rules.id.applies id = true →
          out.get? x.place = some x.value →
            x.value = .string (s.rules.id.pseudonym.draw s.entropy).1) ∧
      ¬ ∀ (s : Sanitizer) (message : String) (tree out : Json),
        s.active.has .sizeRedaction = true → (s.receive message).2.verdict = .success →
        Json.parse message = .ok tree → (s.receive message).2.emit.1 = out.render →
        ∀ x ∈ sightings [] tree, x.field = .width ∨ x.field = .length →
          ∀ v, x.value = .scalar v → v ≠ .null →
            out.get? x.place = some s.rules.size.value := by
  let s := { ofSettings {} (fun _ => true) (mkStdGen 7) with
    active := ⟨false, false, true, true, false⟩, rules := ⟨.everyId (.fixed "X"), {}, ⟨0⟩⟩ }
  let message := "\x7b\"id\":\"A1\",\"width\":2," ++
    "\"trailer\":\x7b\"id\":\"A1\",\"width\":2\x7d\x7d"
  let trailer : Json := .object [("id", .string "A1"), ("width", .integer 2)]
  let tree : Json := .object [("id", .string "A1"), ("width", .integer 2), ("trailer", trailer)]
  let out : Json := .object [("id", .string "X"), ("width", .integer 0), ("trailer", trailer)]
  have hretained : (s.receive message).2.verdict = .success := by decide +kernel
  have hparse : Json.parse message = .ok tree := by
    dsimp only [message, tree, trailer]
    rfl
  have hemit : (s.receive message).2.emit.1 = out.render := by decide +kernel
  refine ⟨fun h => ?_, fun h => ?_⟩
  · have hx : Sighting.mk .id [.name "trailer", .name "id"] (.string "A1") ∈ sightings [] tree :=
      .tail _ (.tail _ (.head _))
    have hsurvives := h s message tree out rfl hretained hparse hemit _ hx rfl nofun "A1" rfl rfl
      rfl
    exact absurd (Scalar.string.inj (Json.scalar.inj hsurvives)) (by decide)
  · have hx : Sighting.mk .width [.name "trailer", .name "width"] (.integer 2) ∈
        sightings [] tree := .tail _ (.tail _ (.tail _ (.head _)))
    have hsurvives := h s message tree out rfl hretained hparse hemit _ hx (.inl rfl) _ rfl nofun
    exact absurd (congrArg (Option.map Json.render) hsurvives) (by decide +kernel)

end Sanitizer

end VehiclePrivacy
