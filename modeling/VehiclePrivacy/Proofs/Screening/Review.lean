import VehiclePrivacy.Proofs.Redaction.Rules

/-!
# Reviewing a message that was read completely

A screening hears of a message while it is read, and ends the reading when it has a reason to. A
review takes the same decisions without haste: it has the whole tree, walks through the recognised
members in document order, and stops at the first reason. It needs no paths and no memory of what it
asked, since it can see which fields have their value.

Here `review` is written down on its own, after the description of the fields and filters, and
`agree_walk` shows that a screening that takes in the recognised members goes along with it: the
two match after every member, and a rejection by the one is a rejection by the other.
-/

namespace VehiclePrivacy

/-- What a walk through a message has found. -/
structure Review where
  /-- The fields that have their value. -/
  recorded : List Field := []
  latitude : Option Float := none
  longitude : Option Float := none
  speed : Option Float := none
  /-- The positions that the geofence was asked about, in order. -/
  asked : List Point := []

/-- Whether part II is a scalar, and not `null`. -/
def hasScalarPartII (xs : List Sighting) : Bool :=
  (xs.find? fun x => x.field = .partII).any fun x => !x.isBlock

namespace Review

/-- The number that a scalar says: its own, or the one that is written in a string. -/
def number? : Scalar → Option Float
  | .number n => some n.toFloat
  | .string t => Decimal.read? (Text.trim t)
  | _ => none

/-- A field gets its value. -/
def record (r : Review) (field : Field) : Review :=
  { r with recorded := field :: r.recorded }

/-- Asks the geofence once the position is complete, if the filter is active. -/
def askGeofence (f : Filters) (r : Review) : Review × Option Verdict :=
  match r.latitude, r.longitude with
  | some lat, some lon =>
    if f.active.has .positionFilter then
      ({ r with asked := r.asked ++ [⟨lat, lon⟩] },
        if f.within ⟨lat, lon⟩ then none else some .geoposition)
    else (r, none)
  | _, _ => (r, none)

/-- A numeric field gets its value, and the filter that waits for it decides. -/
def recordNumber (f : Filters) (r : Review) (n : Float) (field : Field) :
    Review × Option Verdict :=
  match field with
  | .speed =>
    ({ r.record .speed with speed := some n },
      if f.active.has .speedFilter && !(f.speeds.min ≤ n && n ≤ f.speeds.max) then some .speed
      else none)
  | .latitude => askGeofence f { r.record .latitude with latitude := some n }
  | .longitude => askGeofence f { r.record .longitude with longitude := some n }
  | field => (r.record field, none)

/-- Comes to a scalar other than `null` as the value of a field that has none yet. -/
def visitScalar (f : Filters) (r : Review) (field : Field) (v : Scalar) :
    Review × Option Verdict :=
  if field = .id then (r.record .id, none)
  else match (number? v).filter Float.isFinite with
    | some n => r.recordNumber f n field
    | none => (r, some .other)

/-- Comes to a recognised member. -/
def visit (f : Filters) (r : Review) (x : Sighting) : Review × Option Verdict :=
  if x.field ∈ r.recorded then (r, none)
  else if x.field = .partII then (r.record .partII, none)
  else match x.value with
    | .array _ | .object _ => (r, some .other)
    | .scalar .null => (r, none)
    | .scalar v => r.visitScalar f x.field v

/-- Walks through the recognised members up to the first reason to reject the message. -/
def walk (f : Filters) (r : Review) : List Sighting → Review × Option Verdict
  | [] => (r, none)
  | x :: rest =>
    match r.visit f x with
    | (r, some reason) => (r, some reason)
    | (r, none) => walk f r rest

/-- The verdict at the end of a walk: what an active filter asks for must be there, and a part II
block that is to be redacted must not be a scalar, unless it is `null`. -/
def conclude (f : Filters) (r : Review) (xs : List Sighting) : Verdict :=
  if f.active.has .speedFilter && r.speed.isNone then .missing
  else if f.active.has .positionFilter && (r.latitude.isNone || r.longitude.isNone) then .missing
  else if f.active.has .partIIRedaction && hasScalarPartII xs then .other
  else .success

end Review

/-- The review of a message that was read completely, and its verdict. -/
def review (f : Filters) (tree : Json) : Review × Verdict :=
  match Review.walk f {} (sightings [] tree) with
  | (r, some reason) => (r, reason)
  | (r, none) => (r, r.conclude f (sightings [] tree))

/-- The part II block of a message is its first member of that name. -/
theorem first?_partII (xs : List Sighting) :
    first? .partII xs = xs.find? fun x => x.field = .partII := by
  refine congrArg (List.find? · xs) (funext fun x => ?_)
  obtain ⟨field, p, value⟩ := x
  cases field <;> rfl

theorem hasScalarPartII_iff {xs : List Sighting} :
    hasScalarPartII xs = true ↔ ∃ x, first? .partII xs = some x ∧ x.isBlock = false := by
  rw [hasScalarPartII, ← first?_partII, Option.any_eq_true]
  simp only [Bool.not_eq_true']

namespace Review

/-! ## Reviews and screenings go together -/

variable {f : Filters} {r : Review} {s : Screening} {x : Sighting}

/-- A review and a screening that have found the same. The screening has asked the geofence only if
it knows a position. -/
structure Matches (r : Review) (s : Screening) : Prop where
  recorded : ∀ field, field ∈ r.recorded ↔ s.has field = true
  latitude : s.record.latitude = r.latitude
  longitude : s.record.longitude = r.longitude
  speed : s.record.speed = r.speed
  asked : s.asked.toList = r.asked
  waiting : s.record.position = none → s.asked = none

/-- They find the same, and so is their reason to reject the message, if they have one. -/
structure Agree (result : Review × Option Verdict) (s : Screening) : Prop where
  found : result.1.Matches s
  verdict : s.verdict = result.2.getD .success
  reason : result.2 ≠ some .success

/-- Which fields are recorded is a matter of the record alone. -/
theorem Matches.recorded_of_record (hr : r.Matches s) {s' : Screening}
    (h : s'.record = s.record) (field : Field) : field ∈ r.recorded ↔ s'.has field = true := by
  rw [hr.recorded]
  cases field <;> simp [Screening.has, h]

theorem Matches.goOn (hr : r.Matches s) (hs : s.verdict = .success) : Agree (r, none) s :=
  ⟨hr, hs, nofun⟩

theorem Matches.reject (hr : r.Matches s) {reason : Verdict} (h : reason ≠ .success) :
    Agree (r, some reason) (s.reject reason) :=
  ⟨⟨hr.recorded_of_record rfl, hr.latitude, hr.longitude, hr.speed, hr.asked, hr.waiting⟩, rfl,
    fun he => h (Option.some.inj he)⟩

/-- Both ask the geofence when the position has become complete. -/
theorem agree_position (hr : r.Matches s) (hs : s.verdict = .success) (hasked : s.asked = none) :
    Agree (r.askGeofence f) (s.checkPosition f) := by
  -- the geofence was not asked before, so neither side has a position on record
  have hnil : r.asked = [] := by
    rw [← hr.asked, hasked]
    rfl
  rw [askGeofence, Screening.checkPosition, hasked, Record.position, hr.latitude, hr.longitude]
  cases hlat : r.latitude with
  | none => exact hr.goOn hs
  | some lat =>
    cases hlon : r.longitude with
    | none => exact hr.goOn hs
    | some lon =>
      dsimp only
      cases ha : f.active.has .positionFilter with
      | false => exact hr.goOn hs
      | true =>
        have hmatches :
            Matches ⟨r.recorded, some lat, some lon, r.speed, r.asked ++ [⟨lat, lon⟩]⟩
              { s with asked := some ⟨lat, lon⟩ } := by
          refine ⟨hr.recorded_of_record rfl, hr.latitude.trans hlat, hr.longitude.trans hlon,
            hr.speed, ?_, fun h => ?_⟩
          · rw [hnil]
            rfl
          · rw [Record.position, hr.latitude, hr.longitude, hlat, hlon] at h
            cases h
        cases hwithin : f.within ⟨lat, lon⟩ with
        | true => exact hmatches.goOn hs
        | false => exact hmatches.reject (by decide)

/-- Both record a value for a field. -/
theorem Matches.recorded_note {field : Field} {note : Record → Record} (hr : r.Matches s)
    (hnote : ∀ other, (s.note note).has other = true ↔ other = field ∨ s.has other = true)
    (other : Field) : other ∈ field :: r.recorded ↔ (s.note note).has other = true := by
  rw [hnote, ← hr.recorded]
  exact List.mem_cons

/-- A number that fits is recorded by both, and the filters decide alike. -/
theorem agree_number {field : Field} (hfield : field ≠ .id ∧ field ≠ .partII)
    (hr : r.Matches s) (hs : s.verdict = .success) (hopen : s.has field = false)
    (p : Json.Path) (n : Float) :
    Agree (r.recordNumber f n field) (s.hearNumber f field p n) := by
  cases field with
  | id => exact absurd rfl hfield.1
  | partII => exact absurd rfl hfield.2
  | speed =>
    have hmatches : Matches { r.record .speed with speed := some n }
        (s.note ({ · with speed := some n })) := by
      refine ⟨hr.recorded_note fun other => ?_, hr.latitude, hr.longitude, rfl, hr.asked,
        hr.waiting⟩
      cases other <;> simp [Screening.has, Screening.note]
    rw [recordNumber, Screening.hearNumber]
    dsimp only
    rw [SpeedRange.accepts]
    split
    · exact hmatches.reject (by decide)
    · exact hmatches.goOn hs
  | latitude =>
    have hnone : s.record.latitude = none := by simpa [Screening.has] using hopen
    have hasked : s.asked = none := hr.waiting (by rw [Record.position, hnone])
    refine agree_position ⟨hr.recorded_note fun other => ?_, rfl, hr.longitude, hr.speed,
      hr.asked, fun _ => hasked⟩ hs hasked
    cases other <;> simp [Screening.has, Screening.note]
  | longitude =>
    have hnone : s.record.longitude = none := by simpa [Screening.has] using hopen
    have hasked : s.asked = none := hr.waiting (by
      rw [Record.position, hnone]
      cases s.record.latitude <;> rfl)
    refine agree_position ⟨hr.recorded_note fun other => ?_, hr.latitude, rfl, hr.speed,
      hr.asked, fun _ => hasked⟩ hs hasked
    cases other <;> simp [Screening.has, Screening.note]
  | width | length =>
    refine Matches.goOn ⟨hr.recorded_note fun other => ?_, hr.latitude, hr.longitude, hr.speed,
      hr.asked, hr.waiting⟩ hs
    cases other <;> simp [Screening.has, Screening.note]

/-- Both come to a scalar other than `null`, for a field that has no value yet. -/
theorem agree_scalar {field : Field} {v : Scalar} (hr : r.Matches s) (hs : s.verdict = .success)
    (hopen : s.has field = false) (hpartII : field ≠ .partII) (hnull : v ≠ .null)
    (p : Json.Path) :
    Agree (r.visitScalar f field v) (s.hearField f field p (.scalar v)) := by
  have hfinite : Screening.finite? v = (number? v).filter Float.isFinite := by cases v <;> rfl
  rw [visitScalar]
  by_cases hid : field = .id
  · subst hid
    rw [if_pos rfl, Screening.hearField_id hnull]
    refine Matches.goOn ⟨hr.recorded_note fun other => ?_, hr.latitude, hr.longitude, hr.speed,
      hr.asked, hr.waiting⟩ hs
    cases other <;> cases v <;> simp [Screening.has, Screening.note, Sighting.text?]
  · rw [if_neg hid, ← hfinite]
    cases hn : Screening.finite? v with
    | some n =>
      rw [Screening.hearField_number ⟨hid, hpartII⟩ hn]
      exact agree_number ⟨hid, hpartII⟩ hr hs hopen p n
    | none =>
      rw [Screening.hearField_noNumber ⟨hid, hpartII⟩ hnull hn]
      exact hr.reject (by decide)

/-- **Step.** Both come to a member and agree on it. -/
theorem agree_visit (hr : r.Matches s) (hs : s.verdict = .success) (x : Sighting) :
    Agree (r.visit f x) (s.notice f x) := by
  obtain ⟨field, p, value⟩ := x
  rw [visit, Screening.notice]
  dsimp only
  by_cases hfield : field ∈ r.recorded
  · rw [if_pos hfield, if_pos ((hr.recorded field).mp hfield)]
    exact hr.goOn hs
  have hopen : s.has field = false := by
    rw [← Bool.not_eq_true, ← hr.recorded]
    exact hfield
  rw [if_neg hfield, hopen, if_neg Bool.false_ne_true]
  by_cases hpartII : field = .partII
  · -- part II is taken whatever its value is
    subst hpartII
    rw [if_pos rfl]
    refine Matches.goOn ⟨hr.recorded_note fun other => ?_, hr.latitude, hr.longitude, hr.speed,
      hr.asked, hr.waiting⟩ hs
    cases other <;> simp [Screening.has, Screening.note]
  rw [if_neg hpartII]
  cases value with
  | array items =>
    rw [Json.head, Screening.hearField_opening hpartII]
    exact hr.reject (by decide)
  | object members =>
    rw [Json.head, Screening.hearField_opening hpartII]
    exact hr.reject (by decide)
  | scalar v =>
    rw [Json.head]
    by_cases hnull : v = .null
    · subst hnull
      rw [Screening.hearField_null hpartII]
      exact hr.goOn hs
    have hscalar : (match Json.scalar v with
        | .array _ | .object _ => (r, some .other)
        | .scalar .null => (r, none)
        | .scalar v => r.visitScalar f field v) = r.visitScalar f field v := by
      cases v with
      | null => exact absurd rfl hnull
      | _ => rfl
    rw [hscalar]
    exact agree_scalar hr hs hopen hpartII hnull p

/-- **Run.** Both take in the recognised members in order, and agree when they stop. -/
theorem agree_walk (hr : r.Matches s) (hs : s.verdict = .success) (xs : List Sighting) :
    Agree (r.walk f xs) (s.noticeAll f xs) := by
  induction xs generalizing r s with
  | nil => exact hr.goOn hs
  | cons x xs ih =>
    have hagree := agree_visit (f := f) hr hs x
    rw [walk, Screening.noticeAll_cons]
    generalize r.visit f x = result at hagree ⊢
    obtain ⟨r', reason⟩ := result
    obtain ⟨hfound, hverdict, hreason⟩ := hagree
    cases reason with
    | none =>
      have hretains : (Screening.notice f s x).verdict.retains = true := by
        rw [hverdict]
        rfl
      rw [hretains, Bool.not_true, if_neg Bool.false_ne_true]
      exact ih hfound hverdict
    | some reason =>
      have hrejects : (Screening.notice f s x).verdict.retains = false := by
        rw [hverdict]
        exact decide_eq_false fun he => hreason (congrArg some he)
      rw [hrejects, Bool.not_false, if_pos rfl]
      exact ⟨hfound, hverdict, hreason⟩

/-- At the end, both miss the same fields. -/
theorem finish_verdict (hr : r.Matches s) (hs : s.verdict = .success) :
    (s.finish f).verdict =
      if f.active.has .speedFilter && r.speed.isNone then .missing
      else if f.active.has .positionFilter && (r.latitude.isNone || r.longitude.isNone) then
        .missing
      else .success := by
  have hposition : s.record.position.isNone = (r.latitude.isNone || r.longitude.isNone) := by
    rw [Record.position, hr.latitude, hr.longitude]
    cases r.latitude <;> cases r.longitude <;> rfl
  have hretains : s.verdict.retains = true := by rw [hs]; rfl
  rw [Screening.finish, hretains, Bool.not_true, if_neg Bool.false_ne_true, hposition, hr.speed]
  split
  · rfl
  · split
    · rfl
    · exact hs

theorem matches_start : ({} : Review).Matches {} := by
  refine ⟨fun field => ?_, rfl, rfl, rfl, rfl, fun _ => rfl⟩
  cases field <;> simp [Screening.has]

end Review

end VehiclePrivacy
