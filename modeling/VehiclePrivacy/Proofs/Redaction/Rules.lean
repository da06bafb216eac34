import VehiclePrivacy.Proofs.Json.Edits
import VehiclePrivacy.Proofs.Json.Stripping
import VehiclePrivacy.Proofs.Screening.Knowledge
import VehiclePrivacy.Redaction.Rules

/-!
# Redaction as one edit of the message

The rules write to the message one after the other, at the places that the record names. Here they
are read as edits of the members that settled their fields (`Rules.edits`), all made at once. The
two agree (`redact_edited`) because none of these members lies within another one: ids and dimensions
are scalars, which have no parts, and nothing is recognised below part II (`places_apart`).

So no rule can miss its place, and the one way for a redaction to fail is a part II block that is
a scalar (`redact_error`).
-/

namespace VehiclePrivacy

/-! ## Where the rules write -/

theorem Sighting.scalar_of_fits {x : Sighting} (h : x.fits = true) :
    x.field = .partII ∨ ∃ s, x.value = .scalar s := by
  obtain ⟨field, p, value⟩ := x
  cases value with
  | scalar s => exact .inr ⟨s, rfl⟩
  | array items => cases field <;> first | exact .inl rfl | cases h
  | object members => cases field <;> first | exact .inl rfl | cases h

/-- Part II hides what is below it. -/
theorem hides_of_partII {p : Json.Path} (h : Field.at? p = some .partII) :
    p.any Field.hides = true := by
  rcases List.eq_nil_or_concat p with rfl | ⟨q, step, rfl⟩
  · cases h
  · rw [List.concat_eq_append] at h ⊢
    rw [List.any_append, Bool.or_eq_true]
    by_cases hq : q.any Field.hides = true
    · exact .inl hq
    · refine .inr ?_
      cases step with
      | index i =>
        rw [Field.at?_index] at h
        cases h
      | name n =>
        rw [Field.at?_name (by simpa using hq)] at h
        obtain rfl : n = "partII" := List.mem_singleton.mp (Field.named?_eq_some_iff.mp h)
        rfl

variable {tree : Json} {field field' : Field} {x y : Sighting}

/-- Nothing that is recognised lies within a recognised scalar, or within part II. -/
theorem Sighting.eq_of_prefix (hv : tree.Distinct) (hx : x ∈ sightings [] tree)
    (hy : y ∈ sightings [] tree) (hends : x.field = .partII ∨ ∃ s, x.value = .scalar s)
    (h : x.place <+: y.place) : x = y := by
  obtain ⟨below, hbelow⟩ := h
  obtain ⟨step, rest, hplace, hget⟩ := get?_of_mem_sightings hv hx
  obtain ⟨step', rest', hplace', hget'⟩ := get?_of_mem_sightings hv hy
  have hatx := at?_of_mem_sightings rfl hx
  have haty := at?_of_mem_sightings rfl hy
  rw [List.nil_append] at hplace hplace'
  cases below with
  | nil =>
    -- one place: and the place tells the field and the value
    rw [List.append_nil] at hbelow
    rw [← hbelow, hatx] at haty
    rw [← hplace', ← hbelow, hplace, hget] at hget'
    obtain ⟨field, place, value⟩ := x
    obtain ⟨field', place', value'⟩ := y
    obtain rfl := Option.some.inj haty
    obtain rfl := Option.some.inj hget'
    obtain rfl : place = place' := hbelow
    rfl
  | cons s below =>
    -- one below the other: but part II hides what is below it, and a scalar has no parts
    exfalso
    rcases hends with hpartII | ⟨v, hv⟩
    · rw [hpartII] at hatx
      rw [← hbelow, Field.at?_hidden (hides_of_partII hatx)] at haty
      cases haty
    · rw [← hplace', ← hbelow, Json.get?_append, hplace, hget, Option.bind_some, hv] at hget'
      cases Json.get?_scalar hget'

/-- Nothing else that is recognised lies within a member that settled its field. -/
theorem eq_of_first? (ht : Screened tree) (hx : first? field (sightings [] tree) = some x)
    (hy : y ∈ sightings [] tree) (h : x.place <+: y.place) : x = y :=
  Sighting.eq_of_prefix ht.distinct (mem_of_first? hx) hy
    (Sighting.scalar_of_fits (ht.fits field x hx)) h

/-- The members that settle two fields do not lie within one another. -/
theorem places_apart (ht : Screened tree)
    (hx : first? field (sightings [] tree) = some x)
    (hy : first? field' (sightings [] tree) = some y) (hne : field ≠ field') :
    ¬ x.place <+: y.place := by
  intro h
  have hxy := eq_of_first? ht hx (mem_of_first? hy) h
  rw [← field_of_first? hx, ← field_of_first? hy, hxy] at hne
  exact hne rfl

/-! ## What is a block -/

/-- Whether the value can be redacted as part II: a container, or `null`. -/
def Sighting.isBlock (x : Sighting) : Bool :=
  match x.value with
  | .scalar .null => true
  | .scalar _ => false
  | _ => true

theorem Sighting.redact?_of_isBlock (l : MemberList) (h : x.isBlock = true) :
    ∃ block count, l.redact? x.value = some (block, count) ∧ block = x.value.without l.names := by
  cases hredact : l.redact? x.value with
  | some r => exact ⟨r.1, r.2, rfl, MemberList.redact?_fst hredact⟩
  | none =>
    obtain ⟨s, hs, hnull⟩ := MemberList.redact?_eq_none.mp hredact
    rw [isBlock, hs] at h
    cases s <;> first | exact absurd rfl hnull | cases h

theorem Sighting.redact?_eq_none (l : MemberList) (h : x.isBlock = false) :
    l.redact? x.value = none := by
  refine MemberList.redact?_eq_none.mpr ?_
  unfold isBlock at h
  split at h
  · cases h
  · rename_i s hs hvalue
    exact ⟨s, hvalue, hs⟩
  · cases h

/-! ## The edits -/

namespace Rules

variable (r : Rules) (a : Activation) (pseudonym : String)

/-- What the active rules make of the value of a member that settled its field. -/
def edit? (x : Sighting) : Option (Json → Json) :=
  match x.field with
  | .id =>
    if a.idRedaction && x.text?.any r.id.applies then some fun _ => .string pseudonym else none
  | .width | .length => if a.sizeRedaction then some fun _ => r.size.value else none
  | .partII => if a.partIIRedaction then some (Json.without r.partII.names) else none
  | .latitude | .longitude | .speed => none

theorem edit?_dimension (hfield : x.field = .width ∨ x.field = .length) :
    r.edit? a pseudonym x = if a.sizeRedaction then some fun _ => r.size.value else none := by
  rw [edit?]
  rcases hfield with hfield | hfield <;> rw [hfield]

/-- The edits for one field of a message with the given recognised members. -/
def editsOf (xs : List Sighting) (field : Field) : Json.Edits :=
  match first? field xs with
  | some x =>
    match r.edit? a pseudonym x with
    | some e => .single x.place e
    | none => .nothing
  | none => .nothing

/-- The edits for the id and the dimensions. -/
def scalarEdits (xs : List Sighting) : Json.Edits :=
  ((r.editsOf a pseudonym xs .id).both (r.editsOf a pseudonym xs .width)).both
    (r.editsOf a pseudonym xs .length)

/-- The edits for a message with the given recognised members. -/
def edits (xs : List Sighting) : Json.Edits :=
  (r.scalarEdits a pseudonym xs).both (r.editsOf a pseudonym xs .partII)

variable {r a pseudonym} {xs : List Sighting} {p : Json.Path} {e : Json → Json}

theorem editsOf_some (hx : first? field xs = some x) (he : r.edit? a pseudonym x = some e) :
    r.editsOf a pseudonym xs field = .single x.place e := by
  rw [editsOf, hx]
  dsimp only
  rw [he]

theorem editsOf_idle (hx : first? field xs = some x) (he : r.edit? a pseudonym x = none) :
    r.editsOf a pseudonym xs field = .nothing := by
  rw [editsOf, hx]
  dsimp only
  rw [he]

theorem editsOf_none (hx : first? field xs = none) :
    r.editsOf a pseudonym xs field = .nothing := by
  rw [editsOf, hx]

/-- A field for which no rule is active is not edited. -/
theorem editsOf_inactive (h : ∀ x, x.field = field → r.edit? a pseudonym x = none) :
    r.editsOf a pseudonym xs field = .nothing := by
  cases hx : first? field xs with
  | none => exact editsOf_none hx
  | some x => exact editsOf_idle hx (h x (field_of_first? hx))

/-- The edits for a field are made where it was settled. -/
theorem place_of_editsOf (h : r.editsOf a pseudonym xs field p ≠ none) :
    ∃ x, first? field xs = some x ∧ x.place = p := by
  cases hx : first? field xs with
  | none =>
    rw [editsOf_none hx] at h
    exact absurd rfl h
  | some x =>
    cases he : r.edit? a pseudonym x with
    | none =>
      rw [editsOf_idle hx he] at h
      exact absurd rfl h
    | some e =>
      rw [editsOf_some hx he] at h
      exact ⟨x, rfl, (Json.Edits.single_ne_none h).symm⟩

/-- Dimensions are overwritten with a scalar. -/
theorem value_eq_scalar (r : SizeRule) : ∃ s, r.value = .scalar s := by
  have hfloat : ∀ x : Float, ∃ s, Json.ofFloat x = .scalar s := by
    intro x
    unfold Json.ofFloat
    split <;> exact ⟨_, rfl⟩
  unfold SizeRule.value
  split
  · split
    · exact ⟨_, rfl⟩
    · exact hfloat _
  · exact hfloat _

/-- Except in part II, the rules put a scalar in place. -/
theorem edit?_cases (he : r.edit? a pseudonym x = some e) :
    (x.field = .partII ∧ e = Json.without r.partII.names) ∨ ∃ s, ∀ v, e v = .scalar s := by
  obtain ⟨s, hs⟩ := value_eq_scalar r.size
  unfold edit? at he
  split at he
  · obtain ⟨-, he⟩ := Option.ite_none_right_eq_some.mp he
    exact .inr ⟨_, fun v => by rw [← Option.some.inj he]⟩
  · obtain ⟨-, he⟩ := Option.ite_none_right_eq_some.mp he
    exact .inr ⟨s, fun v => by rw [← Option.some.inj he, hs]⟩
  · obtain ⟨-, he⟩ := Option.ite_none_right_eq_some.mp he
    exact .inr ⟨s, fun v => by rw [← Option.some.inj he, hs]⟩
  · rename_i hpartII
    obtain ⟨-, he⟩ := Option.ite_none_right_eq_some.mp he
    exact .inl ⟨hpartII, (Option.some.inj he).symm⟩
  all_goals cases he

/-- An edit of the rules is made to a member that settled its field. -/
theorem member_of_edits (h : r.edits a pseudonym xs p = some e) :
    ∃ field x, first? field xs = some x ∧ x.place = p ∧ r.edit? a pseudonym x = some e := by
  have hof : ∀ field, r.editsOf a pseudonym xs field p = some e →
      ∃ field x, first? field xs = some x ∧ x.place = p ∧ r.edit? a pseudonym x = some e := by
    intro field h
    obtain ⟨x, hx, rfl⟩ := place_of_editsOf (h ▸ Option.some_ne_none e)
    cases he : r.edit? a pseudonym x with
    | none =>
      rw [editsOf_idle hx he] at h
      cases h
    | some e' =>
      rw [editsOf_some hx he, Json.Edits.single_self] at h
      exact ⟨field, x, hx, rfl, he.trans h⟩
  rcases Option.or_eq_some_iff.mp h with h | ⟨-, h⟩
  · rcases Option.or_eq_some_iff.mp h with h | ⟨-, h⟩
    · rcases Option.or_eq_some_iff.mp h with h | ⟨-, h⟩
      · exact hof _ h
      · exact hof _ h
    · exact hof _ h
  · exact hof _ h

theorem edit?_distinct (he : r.edit? a pseudonym x = some e) {v : Json} (hv : v.Distinct) :
    (e v).Distinct := by
  rcases edit?_cases he with ⟨-, rfl⟩ | ⟨s, hs⟩
  · exact hv.without _
  · rw [hs]
    exact .scalar s

theorem editsOf_sound : (r.editsOf a pseudonym xs field).Sound := by
  cases hx : first? field xs with
  | none =>
    rw [editsOf_none hx]
    exact Json.Edits.nothing_sound
  | some x =>
    cases he : r.edit? a pseudonym x with
    | none =>
      rw [editsOf_idle hx he]
      exact Json.Edits.nothing_sound
    | some e =>
      rw [editsOf_some hx he]
      exact Json.Edits.single_sound fun w hw => edit?_distinct he hw

/-- The edits for different fields do not meet. -/
theorem editsOf_apart (ht : Screened tree)
    (hne : field ≠ field') :
    (r.editsOf a pseudonym (sightings [] tree) field).Apart
      (r.editsOf a pseudonym (sightings [] tree) field') := by
  intro p q hp hq
  obtain ⟨x, hx, rfl⟩ := place_of_editsOf hp
  obtain ⟨y, hy, rfl⟩ := place_of_editsOf hq
  exact ⟨places_apart ht hx hy hne, places_apart ht hy hx (Ne.symm hne)⟩

theorem scalarEdits_apart (ht : Screened tree) :
    (r.scalarEdits a pseudonym (sightings [] tree)).Apart
      (r.editsOf a pseudonym (sightings [] tree) .partII) :=
  ((editsOf_apart ht (by decide)).both (editsOf_apart ht (by decide))).both
    (editsOf_apart ht (by decide))

end Rules

/-! ## The redaction step by step -/

/-- The record without what redaction overwrites. -/
def Record.kept (r : Record) : Record := { r with id := none, width := none, length := none }

/-- A draft to which some edits were made. Its record has changed no more than they have. -/
structure Draft.Edited (tree : Json) (edits : Json.Edits) (d : Draft) : Prop where
  edited : d.tree = Json.rewrite edits [] tree
  sound : edits.Sound
  kept : d.record.kept = (Record.of (sightings [] tree)).kept

/-- A draft that a step left without an error, with some edits made. -/
def Draft.Result.Edited (tree : Json) (edits : Json.Edits) (result : Draft.Result) : Prop :=
  ∃ d, result = (d, none) ∧ d.Edited tree edits

namespace Draft

variable {f : Json.Edits} {d : Draft} {r : Rules} {a : Activation} {pseudonym : String}

/-- A member apart from the edits is still there. -/
theorem Edited.get? (hd : d.Edited tree f) (ht : Screened tree)
    (hx : first? field (sightings [] tree) = some x) {e : Json → Json}
    (he : r.edit? a pseudonym x = some e)
    (hapart : f.Apart (r.editsOf a pseudonym (sightings [] tree) field)) :
    d.tree.get? x.place = some x.value := by
  rw [Rules.editsOf_some hx he] at hapart
  obtain ⟨step, rest, hplace, hget⟩ := get?_of_mem_sightings ht.distinct (mem_of_first? hx)
  rw [List.nil_append] at hplace
  rw [hd.edited]
  exact Json.get?_rewrite_of_apart hapart (hplace ▸ hget)

/-- One more value is put in place, and that is one more edit. -/
theorem Edited.put (hd : d.Edited tree f) (ht : Screened tree)
    (hx : first? field (sightings [] tree) = some x) {e : Json → Json}
    (he : r.edit? a pseudonym x = some e)
    (hapart : f.Apart (r.editsOf a pseudonym (sightings [] tree) field))
    {note : Record → Record} (hnote : ∀ r, (note r).kept = r.kept) :
    Result.Edited tree (f.both (r.editsOf a pseudonym (sightings [] tree) field))
      (d.put x.place (e x.value) note) := by
  have hsound : (r.editsOf a pseudonym (sightings [] tree) field).Sound := Rules.editsOf_sound
  have hget := hd.get? ht hx he hapart
  rw [Rules.editsOf_some hx he] at hapart hsound ⊢
  have hset : d.tree.set? x.place (e x.value) =
      some (Json.rewrite (f.both (.single x.place e)) [] tree) := by
    rw [hd.edited, ← Json.rewrite_rewrite hapart]
    exact Json.set?_eq_rewrite (ht.distinct.rewrite hd.sound) (hd.edited ▸ hget) e
  rw [Draft.put, hset]
  exact ⟨_, rfl, rfl, hd.sound.both hsound, (hnote d.record).trans hd.kept⟩

/-- Nothing is to be done for a field without edits. -/
theorem Edited.skip (hd : d.Edited tree f)
    (h : r.editsOf a pseudonym (sightings [] tree) field = .nothing) :
    Result.Edited tree (f.both (r.editsOf a pseudonym (sightings [] tree) field)) (d, none) := by
  rw [h, Json.Edits.both_nothing]
  exact ⟨d, rfl, hd⟩

theorem edited_start (tree : Json) (g : StdGen) :
    Draft.Edited tree .nothing ⟨tree, Record.of (sightings [] tree), g⟩ :=
  ⟨(Json.rewrite_nothing tree).symm, Json.Edits.nothing_sound, rfl⟩

theorem Edited.of_entropy (hd : d.Edited tree f) (g : StdGen) :
    Draft.Edited tree f { d with entropy := g } := ⟨hd.edited, hd.sound, hd.kept⟩

/-- The step that overwrites the id. -/
theorem redactId_edited (ht : Screened tree)
    (hd : d.Edited tree .nothing) (hrecord : d.record = Record.of (sightings [] tree))
    (ha : a.idRedaction = true) :
    Result.Edited tree
      (Json.Edits.both .nothing
        (r.editsOf a (r.id.pseudonym.draw d.entropy).1 (sightings [] tree) .id))
      (redactId r.id d) := by
  cases hx : first? .id (sightings [] tree) with
  | none =>
    have hid : d.record.id = none := by rw [hrecord, Record.of, hx]; rfl
    rw [redactId, hid]
    exact hd.skip (Rules.editsOf_none hx)
  | some x =>
    have hfit := ht.fits .id x hx
    rw [Sighting.fits, field_of_first? hx] at hfit
    obtain ⟨i, hi⟩ := Option.isSome_iff_exists.mp hfit
    have hid : d.record.id = some i := by rw [hrecord, Record.of, hx]; exact hi
    have hidAt : d.record.idAt = some x.place := by rw [hrecord, Record.of, hx]; rfl
    have hedit : r.edit? a (r.id.pseudonym.draw d.entropy).1 x =
        if r.id.applies i then some fun _ => .string (r.id.pseudonym.draw d.entropy).1
        else none := by
      rw [Rules.edit?, field_of_first? hx, hi, ha]
      rfl
    rw [redactId, hid, hidAt]
    dsimp only
    rw [IdRule.redact?]
    cases happlies : r.id.applies i with
    | false =>
      rw [happlies] at hedit
      exact hd.skip (Rules.editsOf_idle hx hedit)
    | true =>
      rw [happlies] at hedit
      exact (hd.of_entropy _).put ht hx hedit (fun p q hp => absurd rfl hp) fun _ => rfl

/-- A step that overwrites a dimension where it was recorded, if it was. -/
theorem Edited.overwrite (hd : d.Edited tree f) (ht : Screened tree)
    (hapart : f.Apart (r.editsOf a pseudonym (sightings [] tree) field))
    (hedit : ∀ x : Sighting, x.field = field → r.edit? a pseudonym x = some fun _ => r.size.value)
    {note : Record → Record} (hnote : ∀ r, (note r).kept = r.kept) {place : Option Json.Path} :
    place = (first? field (sightings [] tree)).map Sighting.place →
      Result.Edited tree (f.both (r.editsOf a pseudonym (sightings [] tree) field))
        (match place with
          | some p => d.put p r.size.value note
          | none => (d, none)) := by
  rintro rfl
  cases hx : first? field (sightings [] tree) with
  | none => exact hd.skip (Rules.editsOf_none hx)
  | some x => exact hd.put ht hx (hedit x (field_of_first? hx)) hapart hnote

/-- The step that overwrites the width. -/
theorem redactWidth_edited (ht : Screened tree) (hd : d.Edited tree f)
    (hapart : f.Apart (r.editsOf a pseudonym (sightings [] tree) .width))
    (ha : a.sizeRedaction = true) :
    Result.Edited tree (f.both (r.editsOf a pseudonym (sightings [] tree) .width))
      (redactWidth r.size d) := by
  have hat : d.record.widthAt = (first? .width (sightings [] tree)).map Sighting.place :=
    congrArg Record.widthAt hd.kept
  rw [redactWidth]
  refine hd.overwrite ht hapart (fun x hx => ?_) ?_ hat
  · rw [Rules.edit?, hx, ha]
    rfl
  · exact fun _ => rfl

/-- The step that overwrites the length. -/
theorem redactLength_edited (ht : Screened tree) (hd : d.Edited tree f)
    (hapart : f.Apart (r.editsOf a pseudonym (sightings [] tree) .length))
    (ha : a.sizeRedaction = true) :
    Result.Edited tree (f.both (r.editsOf a pseudonym (sightings [] tree) .length))
      (redactLength r.size d) := by
  have hat : d.record.lengthAt = (first? .length (sightings [] tree)).map Sighting.place :=
    congrArg Record.lengthAt hd.kept
  rw [redactLength]
  refine hd.overwrite ht hapart (fun x hx => ?_) ?_ hat
  · rw [Rules.edit?, hx, ha]
    rfl
  · exact fun _ => rfl

/-- The step that takes members out of part II. -/
theorem redactPartII_edited (ht : Screened tree) (hd : d.Edited tree f)
    (hapart : f.Apart (r.editsOf a pseudonym (sightings [] tree) .partII))
    (ha : a.partIIRedaction = true)
    (hblock : ∀ x, first? .partII (sightings [] tree) = some x → x.isBlock = true) :
    Result.Edited tree (f.both (r.editsOf a pseudonym (sightings [] tree) .partII))
      (redactPartII r.partII d) := by
  have hat : d.record.partIIAt = (first? .partII (sightings [] tree)).map Sighting.place :=
    congrArg Record.partIIAt hd.kept
  rw [redactPartII, hat]
  cases hx : first? .partII (sightings [] tree) with
  | none => exact hd.skip (Rules.editsOf_none hx)
  | some x =>
    have hedit : r.edit? a pseudonym x = some (Json.without r.partII.names) := by
      rw [Rules.edit?, field_of_first? hx, ha]
      rfl
    obtain ⟨block, count, hredact, hwithout⟩ := Sighting.redact?_of_isBlock r.partII (hblock x hx)
    rw [Option.map_some]
    dsimp only
    rw [hd.get? ht hx hedit hapart]
    dsimp only
    rw [hredact]
    dsimp only
    rw [hwithout]
    exact hd.put ht hx hedit hapart fun _ => rfl

/-- A part II block that is a scalar ends the redaction. -/
theorem redactPartII_error (ht : Screened tree) (hd : d.Edited tree f)
    (hapart : f.Apart (r.editsOf a pseudonym (sightings [] tree) .partII))
    (ha : a.partIIRedaction = true) (hx : first? .partII (sightings [] tree) = some x)
    (hblock : x.isBlock = false) :
    redactPartII r.partII d = (d, some (.notABlock x.place.pointer)) := by
  have hat : d.record.partIIAt = (first? .partII (sightings [] tree)).map Sighting.place :=
    congrArg Record.partIIAt hd.kept
  have hedit : r.edit? a pseudonym x = some (Json.without r.partII.names) := by
    rw [Rules.edit?, field_of_first? hx, ha]
    rfl
  rw [redactPartII, hat, hx, Option.map_some]
  dsimp only
  rw [hd.get? ht hx hedit hapart]
  dsimp only
  rw [Sighting.redact?_eq_none r.partII hblock]

end Draft

/-! ## The whole redaction -/

namespace Rules

variable {r : Rules} {a : Activation}

/-- The rules for the id and the dimensions never fail. -/
theorem redact_head (ht : Screened tree) (g : StdGen) :
    ∃ d, r.redact a.idRedaction a.sizeRedaction a.partIIRedaction
        ⟨tree, Record.of (sightings [] tree), g⟩ =
          (if a.partIIRedaction then d.redactPartII r.partII else (d, none)) ∧
      d.Edited tree (r.scalarEdits a (r.id.pseudonym.draw g).1 (sightings [] tree)) := by
  have hstart := Draft.edited_start tree g
  have hid : Draft.Result.Edited tree
      (r.editsOf a (r.id.pseudonym.draw g).1 (sightings [] tree) .id)
      (if a.idRedaction then
        Draft.redactId r.id ⟨tree, Record.of (sightings [] tree), g⟩
      else (⟨tree, Record.of (sightings [] tree), g⟩, none)) := by
    cases ha : a.idRedaction with
    | true => exact Draft.redactId_edited ht hstart rfl ha
    | false =>
      refine hstart.skip (editsOf_inactive fun x hx => ?_)
      rw [edit?, hx, ha]
      rfl
  obtain ⟨d, hd, hedited⟩ := hid
  have hapart : ∀ {field field' : Field}, field ≠ field' →
      (r.editsOf a (r.id.pseudonym.draw g).1 (sightings [] tree) field).Apart
        (r.editsOf a (r.id.pseudonym.draw g).1 (sightings [] tree) field') :=
    fun hne => editsOf_apart ht hne
  -- the later steps find their places untouched, since the edits do not meet
  cases ha : a.sizeRedaction with
  | true =>
    obtain ⟨d', hd', hedited'⟩ :=
      Draft.redactWidth_edited ht hedited (hapart (by decide)) ha
    obtain ⟨d'', hd'', hedited''⟩ :=
      Draft.redactLength_edited ht hedited' ((hapart (by decide)).both (hapart (by decide))) ha
    refine ⟨d'', ?_, hedited''⟩
    rw [redact]
    dsimp only
    rw [hd]
    simp only [Draft.Result.andThen, if_pos, hd', hd'']
  | false =>
    refine ⟨d, ?_, ?_⟩
    · rw [redact]
      dsimp only
      rw [hd]
      rfl
    · have hnothing : ∀ field, field = .width ∨ field = .length →
          r.editsOf a (r.id.pseudonym.draw g).1 (sightings [] tree) field = .nothing := by
        intro field hfield
        refine editsOf_inactive fun x hx => ?_
        rcases hfield with rfl | rfl <;> rw [edit?, hx, ha] <;> rfl
      rw [scalarEdits, hnothing .width (.inl rfl), hnothing .length (.inr rfl),
        Json.Edits.both_nothing, Json.Edits.both_nothing]
      exact hedited

/--
**The redaction is one edit of the message.** If part II is a block, or is not to be redacted, the
rules leave the message with all their edits made and nothing else changed.
-/
theorem redact_edited (ht : Screened tree) (g : StdGen)
    (hblock : a.partIIRedaction = true →
      ∀ x, first? .partII (sightings [] tree) = some x → x.isBlock = true) :
    Draft.Result.Edited tree (r.edits a (r.id.pseudonym.draw g).1 (sightings [] tree))
      (r.redact a.idRedaction a.sizeRedaction a.partIIRedaction
        ⟨tree, Record.of (sightings [] tree), g⟩) := by
  obtain ⟨d, hd, hedited⟩ := redact_head (r := r) (a := a) ht g
  rw [hd, edits]
  cases ha : a.partIIRedaction with
  | true =>
    rw [if_pos rfl]
    exact Draft.redactPartII_edited ht hedited (scalarEdits_apart ht) ha (hblock ha)
  | false =>
    rw [if_neg Bool.false_ne_true]
    refine hedited.skip (editsOf_inactive fun x hx => ?_)
    rw [edit?, hx, ha]
    rfl

/-- A part II block that is a scalar makes the redaction fail, and nothing else does. -/
theorem redact_error (ht : Screened tree) (g : StdGen)
    (ha : a.partIIRedaction = true) (hx : first? .partII (sightings [] tree) = some x)
    (hblock : x.isBlock = false) :
    ∃ d, r.redact a.idRedaction a.sizeRedaction a.partIIRedaction
        ⟨tree, Record.of (sightings [] tree), g⟩ = (d, some (.notABlock x.place.pointer)) ∧
      d.record.kept = (Record.of (sightings [] tree)).kept := by
  obtain ⟨d, hd, hedited⟩ := redact_head (r := r) (a := a) ht g
  refine ⟨d, ?_, hedited.kept⟩
  rw [hd, if_pos ha]
  exact Draft.redactPartII_error ht hedited (scalarEdits_apart ht) ha hx hblock

end Rules

end VehiclePrivacy
