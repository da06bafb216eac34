import VehiclePrivacy.Proofs.Sanitizer.Decision
import VehiclePrivacy.Proofs.Sanitizer.Retention
import VehiclePrivacy.Proofs.Screening.Trail

/-!
# The recorded places

A record says where the id, the dimensions and the part II block of a message stand. Written as
pointers, these places are found again in the message, and still after the id and the dimensions
were overwritten. So a redaction cannot miss its place, and the one thing it can find fault with is
a part II block that is a scalar (`receive_places`).
-/

namespace VehiclePrivacy

/-- Where a field stands, if that is recorded. -/
def Record.placeOf (r : Record) : Field → Option Json.Path
  | .id => r.idAt
  | .width => r.widthAt
  | .length => r.lengthAt
  | .partII => r.partIIAt
  | .latitude | .longitude | .speed => none

variable {tree : Json} {field : Field} {p q : Json.Path} {x : Sighting}

/-- The recorded place of a field is that of the first member that settles it. -/
theorem first?_of_placeOf {xs : List Sighting} (h : (Record.of xs).placeOf field = some p) :
    ∃ x, first? field xs = some x ∧ x.place = p := by
  cases field with
  | latitude | longitude | speed => cases h
  | id | width | length | partII => exact Option.map_eq_some_iff.mp h

theorem placeOf_kept {r r' : Record} (h : r.kept = r'.kept) (field : Field) :
    r.placeOf field = r'.placeOf field := by
  cases field with
  | latitude | longitude | speed => rfl
  | id => exact (congrArg Record.idAt h : r.kept.idAt = r'.kept.idAt)
  | width => exact (congrArg Record.widthAt h : r.kept.widthAt = r'.kept.widthAt)
  | length => exact (congrArg Record.lengthAt h : r.kept.lengthAt = r'.kept.lengthAt)
  | partII => exact (congrArg Record.partIIAt h : r.kept.partIIAt = r'.kept.partIIAt)

/-- What is no block is a scalar other than `null`. -/
theorem Sighting.isBlock_eq_false : x.isBlock = false ↔ ∃ v, x.value = .scalar v ∧ v ≠ .null := by
  obtain ⟨field, place, value⟩ := x
  cases value with
  | scalar v => cases v <;> simp [isBlock]
  | array items => simp [isBlock]
  | object members => simp [isBlock]

namespace Rules

variable {r : Rules} {a : Activation} {pseudonym : String}

/-- No rule writes above a member that settled its field. -/
theorem edits_above (ht : Screened tree) (hx : first? field (sightings [] tree) = some x)
    {s : Json.Step} {rest : Json.Path} (hplace : x.place = q ++ s :: rest) :
    r.edits a pseudonym (sightings [] tree) q = none := by
  cases he : r.edits a pseudonym (sightings [] tree) q with
  | none => rfl
  | some e =>
    exfalso
    obtain ⟨field', y, hy, rfl, -⟩ := member_of_edits he
    by_cases hfield : field' = field
    · subst hfield
      rw [hx] at hy
      obtain rfl := Option.some.inj hy
      have hlength := congrArg List.length hplace
      rw [List.length_append, List.length_cons] at hlength
      omega
    · exact places_apart ht hy hx hfield ⟨s :: rest, hplace.symm⟩

/-- The place of a settled field stays where it is, whichever of the edits are made. -/
theorem place?_rewrite (ht : Screened tree) (hx : first? field (sightings [] tree) = some x)
    {f : Json.Edits} (hf : ∀ q, f q ≠ none → r.edits a pseudonym (sightings [] tree) q ≠ none) :
    (Json.rewrite f [] tree).place? x.place.pointer = some x.place := by
  refine Json.place?_pointer (Json.get?_rewrite (get?_of_first? ht hx) fun q s rest hplace => ?_)
  by_contra hne
  exact hf q hne (edits_above ht hx hplace)

end Rules

/-- The recorded part II block stands at a place, and is a scalar other than `null`. -/
def Record.ScalarPartII (r : Record) (tree : Json) (p : Json.Path) : Prop :=
  r.partIIAt = some p ∧ ∃ v, tree.resolve? p.pointer = some (.scalar v) ∧ v ≠ .null

theorem scalarPartII_iff (ht : Screened tree) :
    (Record.of (sightings [] tree)).ScalarPartII tree p ↔
      ∃ x, first? .partII (sightings [] tree) = some x ∧ x.place = p ∧ x.isBlock = false := by
  refine ⟨fun h => ?_, fun h => ?_⟩
  · obtain ⟨hp, v, hv, hnull⟩ := h
    obtain ⟨x, hx, rfl⟩ := Option.map_eq_some_iff.mp hp
    rw [Json.resolve?_pointer (get?_of_first? ht hx)] at hv
    exact ⟨x, hx, rfl, Sighting.isBlock_eq_false.mpr ⟨v, Option.some.inj hv, hnull⟩⟩
  · obtain ⟨x, hx, rfl, hblock⟩ := h
    obtain ⟨v, hv, hnull⟩ := Sighting.isBlock_eq_false.mp hblock
    refine ⟨congrArg (Option.map Sighting.place) hx, v, ?_, hnull⟩
    rw [Json.resolve?_pointer (get?_of_first? ht hx), hv]

namespace Rules

variable {r : Rules}

/-- After the id and the dimensions were overwritten, or some of them, the recorded places are still
where they were. -/
theorem placeOf_redact (ht : Screened tree) (ids sizes : Bool) (g : StdGen) :
    ∃ d, r.redact ids sizes false ⟨tree, Record.of (sightings [] tree), g⟩ = (d, none) ∧
      ∀ field p, (Record.of (sightings [] tree)).placeOf field = some p →
        d.record.placeOf field = some p ∧ d.tree.place? p.pointer = some p := by
  let a : Activation := ⟨false, false, ids, sizes, false⟩
  obtain ⟨d, hd, hedited⟩ := redact_head (r := r) (a := a) ht g
  refine ⟨d, hd, fun field p hp => ?_⟩
  obtain ⟨x, hx, rfl⟩ := first?_of_placeOf hp
  refine ⟨(placeOf_kept hedited.kept field).trans hp, ?_⟩
  have hscalar : ∀ q, r.scalarEdits a (r.id.pseudonym.draw g).1 (sightings [] tree) q ≠ none →
      r.edits a (r.id.pseudonym.draw g).1 (sightings [] tree) q ≠ none := fun q hq hnone =>
    hq ((Json.Edits.both_eq_none q).mp hnone).1
  rw [hedited.edited]
  exact place?_rewrite ht hx hscalar

/-- The one error of a redaction is that the part II block is a scalar. -/
theorem redact_eq_error (ht : Screened tree) (ids sizes partII : Bool) (g : StdGen)
    (e : RedactionError) :
    (r.redact ids sizes partII ⟨tree, Record.of (sightings [] tree), g⟩).2 = some e ↔
      partII = true ∧ ∃ p, (Record.of (sightings [] tree)).ScalarPartII tree p ∧
        e = .notABlock p.pointer := by
  let a : Activation := ⟨false, false, ids, sizes, partII⟩
  by_cases hblock : partII = true ∧ ∃ p, (Record.of (sightings [] tree)).ScalarPartII tree p
  · obtain ⟨hpartII, p, hp⟩ := hblock
    obtain ⟨x, hx, rfl, hscalar⟩ := (scalarPartII_iff ht).mp hp
    obtain ⟨d, hd, -⟩ := redact_error (r := r) (a := a) ht g hpartII hx hscalar
    rw [show r.redact ids sizes partII ⟨tree, Record.of (sightings [] tree), g⟩ = _ from hd]
    refine ⟨fun h => ⟨hpartII, _, hp, (Option.some.inj h).symm⟩, fun h => ?_⟩
    obtain ⟨-, q, hq, rfl⟩ := h
    obtain rfl : x.place = q := Option.some.inj (hp.1.symm.trans hq.1)
    rfl
  · obtain ⟨d, hd, -⟩ := redact_edited (r := r) (a := a) ht g fun hpartII x hx => by
      rw [← Bool.not_eq_false]
      exact fun hscalar =>
        hblock ⟨hpartII, _, (scalarPartII_iff ht).mpr ⟨x, hx, rfl, hscalar⟩⟩
    rw [show r.redact ids sizes partII ⟨tree, Record.of (sightings [] tree), g⟩ = _ from hd]
    refine ⟨nofun, fun h => ?_⟩
    obtain ⟨hpartII, p, hp, -⟩ := h
    exact absurd ⟨hpartII, p, hp⟩ hblock

end Rules

namespace Sanitizer

variable {s : Sanitizer} {message : String} {found : Screening}

/-- What a redaction can find fault with in a message that passed the filters. -/
theorem receive_other_iff (hline : hasLineBreak message = false)
    (hread : Screening.read s.filters message = (found, .value tree)) :
    (s.receive message).2.verdict = .other ↔
      (found.finish s.filters).verdict = .success ∧ s.active.has .partIIRedaction = true ∧
        ∃ p, found.record.ScalarPartII tree p := by
  obtain ⟨hrecord, ht⟩ := Screening.record_of_read hread
  have hblocked : (s.taking found).blocked tree = true ↔
      s.active.has .partIIRedaction = true ∧ ∃ p, found.record.ScalarPartII tree p := by
    rw [blocked, Bool.and_eq_true, hasScalarPartII_iff, hrecord]
    refine and_congr_right fun _ => ⟨fun h => ?_, fun h => ?_⟩
    · obtain ⟨x, hx, hscalar⟩ := h
      exact ⟨_, (scalarPartII_iff ht).mpr ⟨x, hx, rfl, hscalar⟩⟩
    · obtain ⟨p, hp⟩ := h
      obtain ⟨x, hx, -, hscalar⟩ := (scalarPartII_iff ht).mp hp
      exact ⟨x, hx, hscalar⟩
  rw [receive_eq s hline, hread, conclude_value]
  rcases finish_cases s.filters (success_of_read hread) with hfinish | hfinish
  · rw [hfinish, ← hblocked]
    have hstanding := (redact_standing (s := s.taking found) ht hrecord rfl).1
    show ((s.taking found).redact tree).verdict = .other ↔ _
    rw [hstanding]
    cases (s.taking found).blocked tree <;> simp
  · rw [hfinish]
    constructor
    · intro h
      cases h
    · intro h
      cases h.1

/--
**Recorded places are found again.** Where a message was read to its end, each recorded place,
written as a pointer and looked up in the message, leads step by step to that place, and there
stands the member that settled the field, whatever the names and indices on the way. The same holds
after the id and the dimensions were overwritten. So a redaction never misses a place: its one error
is a part II block that is a scalar other than `null`, and that alone makes a message which passed
the filters one of another kind than expected.

The pointer, and whether anything is recognised at a place, can be kept up step by step while any
message is read, and the count of what hides a place is never taken below zero.
-/
theorem receive_places (s : Sanitizer) (message : String) :
    (∀ found tree, hasLineBreak message = false →
      Screening.read s.filters message = (found, .value tree) →
      (∀ field p, found.record.placeOf field = some p →
        ∃ x, first? field (sightings [] tree) = some x ∧ x.place = p ∧
          tree.place? p.pointer = some p ∧ tree.resolve? p.pointer = some x.value) ∧
        (∀ ids sizes g, ∃ d,
          s.rules.redact ids sizes false ⟨tree, found.record, g⟩ = (d, none) ∧
            ∀ field p, found.record.placeOf field = some p →
              d.record.placeOf field = some p ∧ d.tree.place? p.pointer = some p) ∧
        (∀ ids sizes partII g e,
          (s.rules.redact ids sizes partII ⟨tree, found.record, g⟩).2 = some e ↔
            partII = true ∧ ∃ p, found.record.ScalarPartII tree p ∧ e = .notABlock p.pointer) ∧
        ((s.receive message).2.verdict = .other ↔
          (found.finish s.filters).verdict = .success ∧ s.active.has .partIIRedaction = true ∧
            ∃ p, found.record.ScalarPartII tree p)) ∧
      ∀ before, before <+: Json.tokens message →
        let l := Screening.listener s.filters
        let r := (Json.Reader.start {}).run Screening.demands l before
        ∃ trail, Trail.keep? Screening.demands l (Json.Reader.start {}) ⟨[], 0⟩ before =
            some trail ∧
          trail.pointer = r.path.pointer ∧
          ∀ n, Field.at? (r.path ++ [.name n]) =
            if trail.depth = 0 then Field.named? n else none := by
  refine ⟨fun found tree hline hread => ?_, fun before _ => ?_⟩
  · obtain ⟨hrecord, ht⟩ := Screening.record_of_read hread
    refine ⟨fun field p hp => ?_, ?_, ?_, receive_other_iff hline hread⟩
    · rw [hrecord] at hp
      obtain ⟨x, hx, rfl⟩ := first?_of_placeOf hp
      have hget := get?_of_first? ht hx
      exact ⟨x, hx, rfl, Json.place?_pointer hget, Json.resolve?_pointer hget⟩
    · rw [hrecord]
      exact Rules.placeOf_redact ht
    · rw [hrecord]
      exact Rules.redact_eq_error ht
  · exact ⟨_, Trail.keep?_eq _ _, Trail.pointer_of _, Trail.at?_of _⟩

/-- So it is for an id below a name with a slash and a tilde, beside a width in an array whose own
name looks like an index. -/
theorem receive_places_of_names :
    let s := { ofSettings {} (fun _ => true) (mkStdGen 7) with
      active := ⟨false, false, true, true, true⟩, rules := ⟨.everyId (.fixed "X"), {}, ⟨0⟩⟩ }
    let message :=
      "\x7b\"a/b~1\":\x7b\"id\":\"A1\"\x7d,\"0\":[null,\x7b\"width\":2\x7d]\x7d"
    let tree : Json := .object [("a/b~1", .object [("id", .string "A1")]),
      ("0", .array [.null, .object [("width", .integer 2)]])]
    let found := (Screening.read s.filters message).1
    hasLineBreak message = false ∧ Screening.read s.filters message = (found, .value tree) ∧
      found.record.placeOf .id = some [.name "a/b~1", .name "id"] ∧
      found.record.placeOf .width = some [.name "0", .index 1, .name "width"] ∧
      tree.resolve? "/a~1b~01/id" = some (.string "A1") ∧
      tree.resolve? "/0/1/width" = some (.integer 2) := by
  intro s message tree found
  have hline : hasLineBreak message = false := by decide +kernel
  have hread : Screening.read s.filters message = (found, .value tree) := by
    have hidle : Json.read ⟨true, true⟩ .idle () message = ((), .value tree) := by
      dsimp only [message, tree]
      rfl
    have hgoes : found.verdict = .success := by decide +kernel
    have h := Json.read_eq_heed (l := Screening.listener s.filters) (s := {}) rfl rfl hidle
    have hfound : found = Json.heed (Screening.listener s.filters) {} (Json.events [] tree) :=
      congrArg Prod.fst h
    have hstop : (Screening.listener s.filters).stop found = false := by
      show (!found.verdict.retains) = false
      rw [hgoes]
      rfl
    rw [← hfound, hstop] at h
    exact h
  have hrecord := (Screening.record_of_read hread).1
  have hid : found.record.placeOf .id = some [.name "a/b~1", .name "id"] := by
    rw [hrecord]
    rfl
  have hwidth : found.record.placeOf .width = some [.name "0", .index 1, .name "width"] := by
    rw [hrecord]
    rfl
  have hplaces := ((receive_places s message).1 found tree hline hread).1
  obtain ⟨x, hx, -, -, hidValue⟩ := hplaces .id _ hid
  obtain ⟨y, hy, -, -, hwidthValue⟩ := hplaces .width _ hwidth
  obtain rfl : _ = x := Option.some.inj hx
  obtain rfl : _ = y := Option.some.inj hy
  exact ⟨hline, hread, hid, hwidth, hidValue, hwidthValue⟩

end Sanitizer

end VehiclePrivacy
