import Mathlib.Data.List.Find
import VehiclePrivacy.Proofs.Json.Readability
import VehiclePrivacy.Proofs.Redaction.Dimensions
import VehiclePrivacy.Proofs.Redaction.Records
import VehiclePrivacy.Proofs.Redaction.Settled

/-!
# Redacting a redacted message

A field of a redacted message is settled by the member that settled it before (`first?_redacted`).
What became of that member is `Rules.amend`: its value still fits, and what is on record of it is
the same when it is revised (`revise_redacted`). The rules find nothing more to do about it
(`edit?_amend`), so a redaction that is made again changes nothing (`rewrite_redacted`).

All this asks that dimensions are overwritten with a finite number: others are written as `null`,
which settles no field.
-/

namespace VehiclePrivacy

/-- Records are equal if they agree on what redaction overwrites and on all the rest. -/
theorem Record.eq_of_kept {r r' : Record} (hkept : r.kept = r'.kept) (hid : r.id = r'.id)
    (hwidth : r.width = r'.width) (hlength : r.length = r'.length) : r = r' := by
  have hback : ∀ r : Record, r = { r.kept with id := r.id, width := r.width, length := r.length } :=
    fun _ => rfl
  rw [hback r, hback r', hkept, hid, hwidth, hlength]

namespace Rules

variable {r : Rules} {a : Activation} {pseudonym : String} {xs : List Sighting} {tree : Json}
  {field : Field} {x : Sighting} {e : Json → Json}

/-! ## Amended members -/

variable (r a pseudonym) in
/-- What becomes of a member that settled its field. -/
def amend (x : Sighting) : Sighting :=
  { x with value := (r.edit? a pseudonym x).elim x.value (· x.value) }

@[simp] theorem amend_field (x : Sighting) : (r.amend a pseudonym x).field = x.field := rfl

theorem amend_some (he : r.edit? a pseudonym x = some e) :
    r.amend a pseudonym x = { x with value := e x.value } := by
  rw [amend, he]
  rfl

theorem amend_none (he : r.edit? a pseudonym x = none) : r.amend a pseudonym x = x := by
  rw [amend, he]
  rfl

/-- A member that settled its field is edited by the rule for it, and by no other. -/
theorem edited_first (ht : Screened tree) (hx : first? field (sightings [] tree) = some x) :
    x.edited (r.edits a pseudonym (sightings [] tree)) = r.amend a pseudonym x := by
  have hat : r.edits a pseudonym (sightings [] tree) x.place = r.edit? a pseudonym x :=
    edits_first ht hx
  rw [Sighting.edited]
  cases he : r.edit? a pseudonym x with
  | some e => rw [Json.rewrite_some (hat.trans he), amend_some he]
  | none =>
    rw [amend_none he, Json.rewrite_eq_self fun q => ?_]
    rcases eq_or_ne q [] with rfl | hq
    · rw [List.append_nil, hat, he]
    · exact edits_below ht hx hq

/-- The dimensions of a message are overwritten with a number that JSON has, if it is finite. -/
theorem value_of_isFinite {r : SizeRule} (h : r.number.isFinite = true) :
    ∃ n : Number, r.value = .scalar (.number n) ∧ Json.Legible (.number n) ∧
      n.toFloat.isFinite = true := by
  obtain ⟨x, n, hn⟩ := SizeRule.exact_of_isFinite h
  refine ⟨n, hn.value, ?_, Binary64.isFinite_of_number hn.toFloat⟩
  cases n with
  | integer i =>
    have hsize := hn.natAbs_lt
    exact ⟨by omega, by omega⟩
  | real y => exact ⟨x, hn.is⟩

variable (r pseudonym) in
/-- How the rule for a field edits a value, where it does. -/
def editOf : Field → Json → Json
  | .id => fun _ => .string pseudonym
  | .width | .length => fun _ => r.size.value
  | .partII => Json.without r.partII.names
  | .latitude | .longitude | .speed => fun v => v

theorem eq_editOf (he : r.edit? a pseudonym x = some e) : e = r.editOf pseudonym x.field := by
  have hsome : ∀ {b : Bool} {f : Json → Json}, (if b then some f else none) = some e → e = f :=
    fun h => (Option.some.inj (Option.ite_none_right_eq_some.mp h).2).symm
  unfold edit? at he
  split at he
  all_goals rename_i hfield; rw [hfield]
  · exact hsome he
  · exact hsome he
  · exact hsome he
  · exact hsome he
  all_goals cases he

/-- An edit that is made again changes nothing. -/
theorem editOf_editOf (field : Field) (v : Json) :
    r.editOf pseudonym field (r.editOf pseudonym field v) = r.editOf pseudonym field v := by
  cases field with
  | partII => exact Json.without_eq_self fun n hn => Json.hasMember_without hn v
  | _ => rfl

/-- An amended member is the member itself, or what the rule for its field makes of it. -/
theorem amend_cases (r : Rules) (a : Activation) (pseudonym : String) (x : Sighting) :
    r.amend a pseudonym x = x ∨
      r.amend a pseudonym x = { x with value := r.editOf pseudonym x.field x.value } := by
  cases he : r.edit? a pseudonym x with
  | none => exact .inl (amend_none he)
  | some e => exact .inr (eq_editOf he ▸ amend_some he)

/-- **The rules find nothing more to do about an amended member.** -/
theorem edit?_amend (he : r.edit? a pseudonym (r.amend a pseudonym x) = some e) :
    e (r.amend a pseudonym x).value = (r.amend a pseudonym x).value := by
  rw [eq_editOf he, amend_field]
  cases he' : r.edit? a pseudonym x with
  | none =>
    rw [amend_none he', he'] at he
    cases he
  | some e' =>
    rw [amend_some he', eq_editOf he']
    exact editOf_editOf x.field x.value

/-- An amended block is a block still. -/
theorem isBlock_amend (hfield : x.field = .partII) :
    (r.amend a pseudonym x).isBlock = x.isBlock := by
  rcases r.amend_cases a pseudonym x with h | h
  · rw [h]
  · rw [h, hfield]
    obtain ⟨field, place, value⟩ := x
    cases value <;> rfl

section Finite

variable (hsize : r.size.number.isFinite = true)
include hsize

/-- An amended member settles its field as it did. -/
theorem settles_amend (hx : x.settles = true) : (r.amend a pseudonym x).settles = true := by
  obtain ⟨n, hn, -⟩ := value_of_isFinite hsize
  rcases r.amend_cases a pseudonym x with h | h
  · rw [h, hx]
  · rw [h]
    obtain ⟨field, place, value⟩ := x
    cases field with
    | latitude | longitude | speed => exact hx
    | id | partII => rfl
    | width | length =>
      rw [editOf, hn]
      rfl

/-- The value of an amended member still fits. -/
theorem fits_amend (hx : x.fits = true) : (r.amend a pseudonym x).fits = true := by
  obtain ⟨n, hn, -, hfinite⟩ := value_of_isFinite hsize
  have hnumber : Screening.finite? (.number n) = some n.toFloat := Option.filter_some_pos hfinite
  rcases r.amend_cases a pseudonym x with h | h
  · rw [h, hx]
  · rw [h]
    obtain ⟨field, place, value⟩ := x
    cases field with
    | latitude | longitude | speed => exact hx
    | id | partII => rfl
    | width | length =>
      rw [editOf, hn]
      exact Option.isSome_of_eq_some hnumber

/-- A recognised member that is edited settles its field if it did before. -/
theorem settles_edited (ht : Screened tree) (hx : x ∈ sightings [] tree) :
    (x.edited (r.edits a pseudonym (sightings [] tree))).settles = x.settles := by
  cases he : r.edits a pseudonym (sightings [] tree) x.place with
  | none =>
    rw [Sighting.edited, Json.rewrite_none he]
    obtain ⟨field, place, value⟩ := x
    cases value <;> cases field <;> rfl
  | some e =>
    -- what is edited is a member that settled its field
    obtain ⟨field, y, hy, hplace, -⟩ := member_of_edits he
    have hyx : y = x := eq_of_first? ht hy hx (hplace ▸ List.prefix_refl _)
    rw [hyx] at hy
    rw [edited_first ht hy, settles_of_first? hy]
    exact settles_amend hsize (settles_of_first? hy)

/-- **A field of a redacted message is settled by the member that settled it before**, amended. -/
theorem first?_redacted (ht : Screened tree) (field : Field) :
    first? field
        (sightings [] (Json.rewrite (r.edits a pseudonym (sightings [] tree)) [] tree)) =
      (first? field (sightings [] tree)).map (r.amend a pseudonym) := by
  have hsettles : ∀ x ∈ sightings [] tree,
      ((fun x : Sighting => x.field == field && x.settles) ∘
          Sighting.edited (r.edits a pseudonym (sightings [] tree))) x =
        (x.field == field && x.settles) := fun x hx =>
    congrArg (x.field == field && ·) (settles_edited hsize ht hx)
  rw [sightings_redacted ht, first?, List.find?_map, List.find?_congr hsettles, ← first?]
  cases hx : first? field (sightings [] tree) with
  | none => rfl
  | some x => exact congrArg some (edited_first ht hx)

/-- The dimensions on record are the same for an amended member. -/
theorem number?_amend (hfield : x.field = .width ∨ x.field = .length) (hx : x.fits = true) :
    (if a.sizeRedaction then (r.amend a pseudonym x).number?.map fun _ => r.size.number
      else (r.amend a pseudonym x).number?) =
      if a.sizeRedaction then x.number?.map fun _ => r.size.number else x.number? := by
  cases ha : a.sizeRedaction with
  | true =>
    obtain ⟨n, hn⟩ := Sighting.number?_of_fits hfield hx
    obtain ⟨m, hm⟩ := Sighting.number?_of_fits (x := r.amend a pseudonym x) hfield
      (fits_amend hsize hx)
    rw [hn, hm]
    rfl
  | false =>
    have hidle : r.edit? a pseudonym x = none := by
      rw [edit?_dimension r a pseudonym hfield, ha]
      rfl
    rw [amend_none hidle]

end Finite

/-- The id that an amended member says is the revised one. -/
theorem text?_amend (hfield : x.field = .id) (hx : x.fits = true) :
    (r.amend a pseudonym x).text? =
      if a.idRedaction then x.text?.map fun id => if r.id.applies id then pseudonym else id
      else x.text? := by
  rw [Sighting.fits, hfield] at hx
  obtain ⟨i, hi⟩ := Option.isSome_iff_exists.mp hx
  have hedit : r.edit? a pseudonym x =
      if a.idRedaction && r.id.applies i then some fun _ => .string pseudonym else none := by
    rw [edit?, hfield, hi]
    rfl
  rw [hi, Option.map_some]
  cases ha : a.idRedaction with
  | false =>
    rw [ha] at hedit
    rw [amend_none hedit, hi]
    rfl
  | true =>
    rw [if_pos rfl]
    cases happlies : r.id.applies i with
    | false =>
      rw [ha, happlies] at hedit
      rw [amend_none hedit, hi]
      rfl
    | true =>
      rw [ha, happlies] at hedit
      rw [amend_some hedit]
      rfl

/-- A field for which no rule is active is settled in a redacted message by the same member. -/
theorem map_amend_first? (h : ∀ x : Sighting, x.field = field → r.edit? a pseudonym x = none) :
    (first? field xs).map (r.amend a pseudonym) = first? field xs := by
  cases hx : first? field xs with
  | none => rfl
  | some x => exact congrArg some (amend_none (h x (field_of_first? hx)))

/-- Apart from the id and the dimensions, the record of a redacted message is that of the message.
-/
theorem kept_redacted (ht : Screened tree) (hsize : r.size.number.isFinite = true) :
    (Record.of (sightings []
        (Json.rewrite (r.edits a pseudonym (sightings [] tree)) [] tree))).kept =
      (Record.of (sightings [] tree)).kept := by
  have hidle : ∀ field, field = .latitude ∨ field = .longitude ∨ field = .speed →
      (first? field (sightings [] tree)).map (r.amend a pseudonym) =
        first? field (sightings [] tree) := by
    intro field hfield
    refine map_amend_first? fun x hx => ?_
    rw [edit?, hx]
    rcases hfield with rfl | rfl | rfl <;> rfl
  have hplace : ∀ field, ((first? field (sightings [] tree)).map (r.amend a pseudonym)).map
      Sighting.place = (first? field (sightings [] tree)).map Sighting.place := by
    intro field
    rw [Option.map_map]
    rfl
  simp only [Record.kept, Record.of, first?_redacted hsize ht, hidle, hplace, true_or, or_true]

/-- **The record of a redacted message** is revised to what the record of the message is revised
to. -/
theorem revise_redacted (ht : Screened tree) (hsize : r.size.number.isFinite = true) :
    r.revise a pseudonym (Record.of (sightings []
        (Json.rewrite (r.edits a pseudonym (sightings [] tree)) [] tree))) =
      r.revise a pseudonym (Record.of (sightings [] tree)) := by
  refine Record.eq_of_kept (kept_redacted ht hsize) ?_ ?_ ?_
  all_goals simp only [revise, Record.of, first?_redacted hsize ht]
  · cases hx : first? .id (sightings [] tree) with
    | none => rfl
    | some x =>
      rw [Option.map_some, Option.bind_some, text?_amend (field_of_first? hx) (ht.fits _ x hx)]
      cases a.idRedaction with
      | false => rfl
      | true =>
        -- a pseudonym is overwritten with itself, if at all
        simp only [if_true, Option.map_map, Option.bind_some]
        congr 1
        funext id
        cases happlies : r.id.applies id <;> simp [happlies]
  · cases hx : first? .width (sightings [] tree) with
    | none => rfl
    | some x => exact number?_amend hsize (.inl (field_of_first? hx)) (ht.fits _ x hx)
  · cases hx : first? .length (sightings [] tree) with
    | none => rfl
    | some x => exact number?_amend hsize (.inr (field_of_first? hx)) (ht.fits _ x hx)

/-! ## Redacted messages -/

theorem edits_sound : (r.edits a pseudonym xs).Sound := by
  intro p e w h hw
  obtain ⟨field, x, -, -, he⟩ := member_of_edits h
  exact edit?_distinct he hw

/-- The edits of the rules leave readable what was readable. -/
theorem edits_keepReadable (hsize : r.size.number.isFinite = true) :
    (r.edits a pseudonym xs).KeepReadable := by
  intro p e h room w hw
  obtain ⟨field, x, -, -, he⟩ := member_of_edits h
  obtain ⟨n, hn, hlegible, -⟩ := value_of_isFinite hsize
  rw [eq_editOf he]
  cases x.field with
  | id => exact .scalar trivial
  | width | length =>
    rw [editOf, hn]
    exact .scalar hlegible
  | partII => exact hw.without _
  | latitude | longitude | speed => exact hw

/-- A redacted message can pass a screening if the message can. -/
theorem screened_redacted (hsize : r.size.number.isFinite = true) (ht : Screened tree) :
    Screened (Json.rewrite (r.edits a pseudonym (sightings [] tree)) [] tree) := by
  refine ⟨ht.distinct.rewrite edits_sound, fun field y hy => ?_⟩
  rw [first?_redacted hsize ht] at hy
  obtain ⟨x, hx, rfl⟩ := Option.map_eq_some_iff.mp hy
  exact fits_amend hsize (ht.fits field x hx)

/-- **A redaction that is made again changes nothing.** -/
theorem rewrite_redacted (hsize : r.size.number.isFinite = true) (ht : Screened tree)
    {out : Json} (hout : out = Json.rewrite (r.edits a pseudonym (sightings [] tree)) [] tree) :
    Json.rewrite (r.edits a pseudonym (sightings [] out)) [] out = out := by
  have hscreened : Screened out := hout ▸ screened_redacted hsize ht
  refine Json.Edits.Fix.rewrite hscreened.distinct fun p w e hw h => ?_
  obtain ⟨field, y, hy, rfl, he⟩ := member_of_edits h
  obtain rfl := Option.some.inj (hw.symm.trans (get?_of_first? hscreened hy))
  rw [hout, first?_redacted hsize ht] at hy
  obtain ⟨x, -, rfl⟩ := Option.map_eq_some_iff.mp hy
  exact edit?_amend he

end Rules

end VehiclePrivacy
