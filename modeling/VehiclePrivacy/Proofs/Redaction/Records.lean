import VehiclePrivacy.Proofs.Redaction.Rules

/-!
# What the record says after a redaction

The rules write to the record what they write to the message. `Rules.revise` says what the record is
then, from the record alone; where the members stand is not looked at. So two messages with the same
record have the same record when they are redacted (`record_redact`), also when their redaction
fails.
-/

namespace VehiclePrivacy

/-- The record of a message that the active rules have gone through. -/
def Rules.revise (r : Rules) (a : Activation) (pseudonym : String) (record : Record) : Record :=
  { record with
    id := if a.idRedaction then
        record.id.map fun id => if r.id.applies id then pseudonym else id
      else record.id
    width := if a.sizeRedaction then record.width.map fun _ => r.size.number else record.width
    length := if a.sizeRedaction then record.length.map fun _ => r.size.number else record.length }

namespace Draft

variable {d : Draft} {r : Rules} {a : Activation} {tree : Json} {field : Field} {x : Sighting}

/-- The record names the places of the values that it holds. -/
structure Placed (r : Record) : Prop where
  id : r.id.isSome = r.idAt.isSome
  width : r.width.isSome = r.widthAt.isSome
  length : r.length.isSome = r.lengthAt.isSome

theorem placed_of_screened (ht : Screened tree) : Placed (Record.of (sightings [] tree)) := by
  have hnumber : ∀ field, field ≠ .id → field ≠ .partII →
      ((first? field (sightings [] tree)).bind Sighting.number?).isSome =
        ((first? field (sightings [] tree)).map Sighting.place).isSome := by
    intro field hid hpartII
    cases hx : first? field (sightings [] tree) with
    | none => rfl
    | some x =>
      have hfits := ht.fits field x hx
      rw [Sighting.fits, field_of_first? hx] at hfits
      cases field <;> first | exact hfits | exact absurd rfl hid | exact absurd rfl hpartII
  refine ⟨?_, hnumber .width (by decide) (by decide), hnumber .length (by decide) (by decide)⟩
  rw [Record.of]
  cases hx : first? .id (sightings [] tree) with
  | none => rfl
  | some x =>
    have hfits := ht.fits .id x hx
    rw [Sighting.fits, field_of_first? hx] at hfits
    exact hfits

/-- A value that was put in its place was noted. -/
theorem record_put {p : Json.Path} {v : Json} {note : Record → Record}
    (h : (d.put p v note).2 = none) : (d.put p v note).1.record = note d.record := by
  unfold put at h ⊢
  split at h
  · rfl
  · cases h

theorem record_redactId (hd : Placed d.record) (h : (d.redactId r.id).2 = none) :
    (d.redactId r.id).1.record =
      { d.record with
        id := d.record.id.map fun id =>
          if r.id.applies id then (r.id.pseudonym.draw d.entropy).1 else id } := by
  have hplaced := hd.id
  obtain ⟨t, record, g⟩ := d
  obtain ⟨id, _, _, _, _, _, idAt, _, _, _⟩ := record
  cases id with
  | none => cases idAt <;> rfl
  | some id =>
    cases idAt with
    | none => cases hplaced
    | some p =>
      unfold redactId at h ⊢
      dsimp only at h ⊢
      unfold IdRule.redact? at h ⊢
      cases happlies : r.id.applies id with
      | false => simp [happlies]
      | true =>
        rw [happlies, if_pos rfl] at h
        rw [if_pos rfl, Option.map_some, happlies, if_pos rfl]
        exact record_put h

theorem record_redactWidth (hd : Placed d.record) (h : (d.redactWidth r.size).2 = none) :
    (d.redactWidth r.size).1.record =
      { d.record with width := d.record.width.map fun _ => r.size.number } := by
  have hplaced := hd.width
  obtain ⟨t, record, g⟩ := d
  obtain ⟨_, _, _, _, width, _, _, widthAt, _, _⟩ := record
  cases widthAt with
  | none => cases width <;> first | rfl | cases hplaced
  | some p => cases width <;> first | exact record_put h | cases hplaced

theorem record_redactLength (hd : Placed d.record) (h : (d.redactLength r.size).2 = none) :
    (d.redactLength r.size).1.record =
      { d.record with length := d.record.length.map fun _ => r.size.number } := by
  have hplaced := hd.length
  obtain ⟨t, record, g⟩ := d
  obtain ⟨_, _, _, _, _, length, _, _, lengthAt, _⟩ := record
  cases lengthAt with
  | none => cases length <;> first | rfl | cases hplaced
  | some p => cases length <;> first | exact record_put h | cases hplaced

/-- Part II is not on record, so its redaction leaves the record alone. -/
theorem record_redactPartII (l : MemberList) (d : Draft) :
    (d.redactPartII l).1.record = d.record := by
  unfold redactPartII
  split
  · rfl
  · split
    · rfl
    · split
      · rfl
      · unfold put
        split <;> rfl

/-- A redaction that has come through two steps has come through each. -/
theorem Result.of_andThen {result : Result} {next : Draft → Result}
    (h : (result.andThen next).2 = none) :
    result.2 = none ∧ result.andThen next = next result.1 ∧ (next result.1).2 = none := by
  obtain ⟨d, _ | e⟩ := result
  · exact ⟨rfl, rfl, h⟩
  · cases h

end Draft

namespace Rules

variable {r : Rules} {a : Activation} {tree : Json} {d : Draft}

open Draft

/-- The rules for the id and the dimensions note what they write. -/
theorem record_redact_head (hd : Placed d.record)
    (h : (r.redact a.idRedaction a.sizeRedaction false d).2 = none) :
    (r.redact a.idRedaction a.sizeRedaction false d).1.record =
      r.revise a (r.id.pseudonym.draw d.entropy).1 d.record := by
  unfold redact at h ⊢
  dsimp only at h ⊢
  obtain ⟨h, heq, -⟩ := Result.of_andThen h
  rw [heq, if_neg Bool.false_ne_true]
  obtain ⟨hid, heq, hsize⟩ := Result.of_andThen h
  rw [heq]
  -- the record behind the first step, with every value in its place still
  have hrecord : (if a.idRedaction then d.redactId r.id else (d, none)).1.record =
      r.revise { a with sizeRedaction := false } (r.id.pseudonym.draw d.entropy).1 d.record := by
    cases ha : a.idRedaction with
    | false => rfl
    | true =>
      rw [ha, if_pos rfl] at hid
      exact record_redactId hd hid
  have hplaced : Placed (if a.idRedaction then d.redactId r.id else (d, none)).1.record := by
    rw [hrecord]
    refine ⟨Eq.trans ?_ hd.id, hd.width, hd.length⟩
    rw [revise]
    cases a.idRedaction <;> simp
  generalize (if a.idRedaction then d.redactId r.id else (d, none)).1 = d' at hrecord hplaced hsize
  cases ha : a.sizeRedaction with
  | false =>
    rw [if_neg Bool.false_ne_true, hrecord, revise, revise, ha]
  | true =>
    rw [ha, if_pos rfl] at hsize
    rw [if_pos rfl]
    obtain ⟨hwidth, heq, hlength⟩ := Result.of_andThen hsize
    have hrecord' := record_redactWidth hplaced hwidth
    have hplaced' : Placed (d'.redactWidth r.size).1.record := by
      rw [hrecord']
      exact ⟨hplaced.id, Option.isSome_map.trans hplaced.width, hplaced.length⟩
    rw [heq, record_redactLength hplaced' hlength, hrecord', hrecord, revise, revise, ha]
    rfl

/-- **The record after a redaction**, whether that fails or not. -/
theorem record_redact (ht : Screened tree) (g : StdGen) :
    (r.redact a.idRedaction a.sizeRedaction a.partIIRedaction
        ⟨tree, Record.of (sightings [] tree), g⟩).1.record =
      r.revise a (r.id.pseudonym.draw g).1 (Record.of (sightings [] tree)) := by
  -- without part II a redaction does not fail, and part II is not on record
  obtain ⟨d, hd, -⟩ := redact_edited (r := r) (a := { a with partIIRedaction := false }) ht g nofun
  have hhead := record_redact_head (r := r) (a := a) (placed_of_screened ht)
    (d := ⟨tree, Record.of (sightings [] tree), g⟩) (by rw [hd])
  rw [hd] at hhead
  have hsplit : ∀ d₀, r.redact a.idRedaction a.sizeRedaction a.partIIRedaction d₀ =
      (r.redact a.idRedaction a.sizeRedaction false d₀).andThen fun d =>
        if a.partIIRedaction then d.redactPartII r.partII else (d, none) := by
    intro d₀
    unfold redact
    dsimp only
    generalize Result.andThen (if a.idRedaction then _ else _) _ = result
    obtain ⟨d, _ | e⟩ := result <;> rfl
  rw [hsplit, hd, ← hhead]
  show (if a.partIIRedaction then d.redactPartII r.partII else (d, none)).1.record = d.record
  split
  · exact record_redactPartII _ d
  · rfl

end Rules

end VehiclePrivacy
