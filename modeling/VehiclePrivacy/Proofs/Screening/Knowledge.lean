import VehiclePrivacy.Proofs.Screening.Sightings

/-!
# What a screening knows

A screening changes its record member by member. What it holds in the end can be said at once: of
every field the first member that settles it (`first?`), `null` settling no field but part II.
`Record.of` is the record of a list of sightings read off in this way, and it is the record of every
screening that took them in without a rejection (`record_of_read`).

The invariant is `Knows`. It also says that the members that settled a field have values that fit,
since without that a field could be settled and still be empty.
-/

namespace VehiclePrivacy

namespace Sighting

/-- Whether the member settles its field; `null` does so only for part II. -/
def settles (x : Sighting) : Bool :=
  match x.field, x.value with
  | .partII, _ => true
  | _, .scalar .null => false
  | _, _ => true

/-- The text that a scalar stands for, a string for itself. -/
def text? (x : Sighting) : Option String :=
  match x.value with
  | .scalar (.string t) => some t
  | .scalar v => some (Json.scalarText v)
  | _ => none

/-- The finite number that a scalar says. -/
def number? (x : Sighting) : Option Float :=
  match x.value with
  | .scalar v => Screening.finite? v
  | _ => none

/-- Whether a settled field can have the value: ids are scalars, and the other fields but part II
are numbers. -/
def fits (x : Sighting) : Bool :=
  match x.field with
  | .partII => true
  | .id => x.text?.isSome
  | _ => x.number?.isSome

theorem number?_of_fits {x : Sighting} (hfield : x.field = .width ∨ x.field = .length)
    (hx : x.fits = true) : ∃ n, x.number? = some n := by
  rw [fits] at hx
  rcases hfield with hfield | hfield <;> (rw [hfield] at hx; exact Option.isSome_iff_exists.mp hx)

end Sighting

/-- The first member that settles a field. -/
def first? (field : Field) (xs : List Sighting) : Option Sighting :=
  xs.find? fun x => x.field == field && x.settles

/-- What is known of the settled fields. -/
def Record.of (xs : List Sighting) : Record where
  id := (first? .id xs).bind Sighting.text?
  latitude := (first? .latitude xs).bind Sighting.number?
  longitude := (first? .longitude xs).bind Sighting.number?
  speed := (first? .speed xs).bind Sighting.number?
  width := (first? .width xs).bind Sighting.number?
  length := (first? .length xs).bind Sighting.number?
  idAt := (first? .id xs).map Sighting.place
  widthAt := (first? .width xs).map Sighting.place
  lengthAt := (first? .length xs).map Sighting.place
  partIIAt := (first? .partII xs).map Sighting.place

/-- The record with a member noted that settles its field. -/
def Record.noting (r : Record) (x : Sighting) : Record :=
  match x.field with
  | .id => { r with id := x.text?, idAt := some x.place }
  | .latitude => { r with latitude := x.number? }
  | .longitude => { r with longitude := x.number? }
  | .speed => { r with speed := x.number? }
  | .width => { r with width := x.number?, widthAt := some x.place }
  | .length => { r with length := x.number?, lengthAt := some x.place }
  | .partII => { r with partIIAt := some x.place }

/-- A message that can pass a screening: no name is repeated, and the fields are settled by members
whose values fit. -/
structure Screened (tree : Json) : Prop where
  distinct : tree.Distinct
  fits : ∀ field x, first? field (sightings [] tree) = some x → x.fits = true

/-! ## The first member that settles a field -/

section First

variable {field : Field} {xs : List Sighting} {x : Sighting}

theorem mem_of_first? (h : first? field xs = some x) : x ∈ xs := List.mem_of_find?_eq_some h

theorem field_of_first? (h : first? field xs = some x) : x.field = field := by
  have hx := List.find?_some h
  rw [Bool.and_eq_true] at hx
  exact eq_of_beq hx.1

theorem settles_of_first? (h : first? field xs = some x) : x.settles = true := by
  have hx := List.find?_some h
  rw [Bool.and_eq_true] at hx
  exact hx.2

/-- A member that settled its field stands where its place says. -/
theorem get?_of_first? {tree : Json} (ht : Screened tree)
    (hx : first? field (sightings [] tree) = some x) : tree.get? x.place = some x.value := by
  obtain ⟨step, rest, hplace, hget⟩ := get?_of_mem_sightings ht.distinct (mem_of_first? hx)
  rw [hplace, List.nil_append, hget]

/-- One member more: it counts if the field was open, and it settles that field. -/
theorem first?_snoc (field : Field) (xs : List Sighting) (x : Sighting) :
    first? field (xs ++ [x]) =
      (first? field xs).or (if x.field = field ∧ x.settles = true then some x else none) := by
  rw [first?, List.find?_append, ← first?, List.find?_singleton]
  simp only [Bool.and_eq_true, beq_iff_eq]

/-- A member changes nothing if its field is settled, or if it does not settle it. -/
theorem first?_snoc_of_settled (h : (first? x.field xs).isSome = true ∨ x.settles = false)
    (field : Field) : first? field (xs ++ [x]) = first? field xs := by
  rw [first?_snoc]
  by_cases hx : x.field = field ∧ x.settles = true
  · obtain ⟨rfl, hsettles⟩ := hx
    rcases h with h | h
    · obtain ⟨y, hy⟩ := Option.isSome_iff_exists.mp h
      rw [hy, Option.some_or]
    · rw [h] at hsettles
      cases hsettles
  · rw [if_neg hx, Option.or_none]

/-- A member settles its field if that was open, and no other field. -/
theorem first?_snoc_of_open (h : first? x.field xs = none) (hx : x.settles = true)
    (field : Field) :
    first? field (xs ++ [x]) = if x.field = field then some x else first? field xs := by
  rw [first?_snoc]
  by_cases hfield : x.field = field
  · rw [if_pos ⟨hfield, hx⟩, if_pos hfield, ← hfield, h, Option.none_or]
  · rw [if_neg (fun hc => hfield hc.1), if_neg hfield, Option.or_none]

theorem Record.of_snoc_of_settled (h : (first? x.field xs).isSome = true ∨ x.settles = false) :
    Record.of (xs ++ [x]) = Record.of xs := by
  simp only [Record.of, first?_snoc_of_settled h]

theorem Record.of_snoc_of_open (h : first? x.field xs = none) (hx : x.settles = true) :
    Record.of (xs ++ [x]) = (Record.of xs).noting x := by
  simp only [Record.of, first?_snoc_of_open h hx, Record.noting]
  cases x.field <;> rfl

end First

namespace Screening

variable {f : Filters} {s : Screening} {x : Sighting}

/-! ## One member -/

theorem record_checkPosition (f : Filters) (s : Screening) :
    (s.checkPosition f).record = s.record := by
  unfold checkPosition
  split
  · split
    · dsimp only
      split <;> rfl
    · rfl
  · rfl

/-- A number that is noted without a rejection is noted in its field. -/
theorem record_hearNumber {field : Field} {p : Json.Path} {v : Scalar} {n : Float}
    (hfield : field ≠ .id ∧ field ≠ .partII) (hv : finite? v = some n) :
    (s.hearNumber f field p n).record = s.record.noting ⟨field, p, .scalar v⟩ := by
  have hnumber : (Sighting.mk field p (.scalar v)).number? = some n := hv
  cases field with
  | id => exact absurd rfl hfield.1
  | partII => exact absurd rfl hfield.2
  | latitude | longitude =>
    show (checkPosition f _).record = _
    rw [record_checkPosition, Record.noting, hnumber]
    rfl
  | speed =>
    rw [Record.noting, hnumber, hearNumber]
    dsimp only
    split <;> rfl
  | width | length =>
    rw [Record.noting, hnumber]
    rfl

theorem hearField_opening {field : Field} (hfield : field ≠ .partII) (p : Json.Path)
    (b : Bracket) : s.hearField f field p (.opening b) = s.reject .other := by
  cases field <;> first | rfl | exact absurd rfl hfield

theorem hearField_null {field : Field} (hfield : field ≠ .partII) (p : Json.Path) :
    s.hearField f field p (.scalar .null) = s := by
  cases field <;> first | rfl | exact absurd rfl hfield

theorem hearField_id {v : Scalar} (hv : v ≠ .null) (p : Json.Path) :
    s.hearField f .id p (.scalar v) =
      s.note ({ · with id := (Sighting.mk .id p (.scalar v)).text?, idAt := some p }) := by
  cases v <;> first | rfl | exact absurd rfl hv

theorem hearField_number {field : Field} (hfield : field ≠ .id ∧ field ≠ .partII) {v : Scalar}
    {n : Float} (hn : finite? v = some n) (p : Json.Path) :
    s.hearField f field p (.scalar v) = s.hearNumber f field p n := by
  cases field with
  | id => exact absurd rfl hfield.1
  | partII => exact absurd rfl hfield.2
  | _ =>
    cases v with
    | null => cases hn
    | _ => simp only [hearField, hn]

theorem hearField_noNumber {field : Field} (hfield : field ≠ .id ∧ field ≠ .partII) {v : Scalar}
    (hv : v ≠ .null) (hn : finite? v = none) (p : Json.Path) :
    s.hearField f field p (.scalar v) = s.reject .other := by
  cases field with
  | id => exact absurd rfl hfield.1
  | partII => exact absurd rfl hfield.2
  | _ =>
    cases v with
    | null => exact absurd rfl hv
    | _ => simp only [hearField, hn]

/-- A member other than part II settles its field unless it is `null`. -/
theorem settles_eq_false {x : Sighting} :
    x.settles = false ↔ x.field ≠ .partII ∧ x.value = .scalar .null := by
  unfold Sighting.settles
  split
  · rename_i hpartII
    simp [hpartII]
  · rename_i hnull hpartII
    exact ⟨fun _ => ⟨hpartII, hnull⟩, fun _ => rfl⟩
  · rename_i hnull
    exact ⟨fun h => (by cases h), fun h => absurd h.2 hnull⟩

/-- What becomes of a screening that hears of a scalar for an open field other than part II. -/
theorem hearField_scalar {field : Field} {p : Json.Path} {v : Scalar} (hpartII : field ≠ .partII)
    (hnull : v ≠ .null) (h : (s.hearField f field p (.scalar v)).verdict.retains = true) :
    (Sighting.mk field p (.scalar v)).fits = true ∧
      (s.hearField f field p (.scalar v)).record = s.record.noting ⟨field, p, .scalar v⟩ := by
  by_cases hid : field = .id
  · subst hid
    rw [hearField_id hnull]
    exact ⟨by cases v <;> rfl, rfl⟩
  · cases hv : finite? v with
    | none =>
      rw [hearField_noNumber ⟨hid, hpartII⟩ hnull hv] at h
      cases h
    | some n =>
      rw [hearField_number ⟨hid, hpartII⟩ hv]
      have hnumber : (Sighting.mk field p (.scalar v)).number? = some n := hv
      refine ⟨?_, record_hearNumber ⟨hid, hpartII⟩ hv⟩
      unfold Sighting.fits
      split
      · rfl
      · contradiction
      · rw [hnumber]
        rfl

/-- What becomes of a screening that takes in a member without rejecting the message. -/
theorem notice_cases (h : (notice f s x).verdict.retains = true) :
    ((s.has x.field = true ∨ x.settles = false) ∧ notice f s x = s) ∨
      (s.has x.field = false ∧ x.settles = true ∧ x.fits = true ∧
        (notice f s x).record = s.record.noting x) := by
  obtain ⟨field, p, value⟩ := x
  cases hhas : s.has field with
  | true =>
    rw [notice, if_pos hhas]
    exact .inl ⟨.inl rfl, rfl⟩
  | false =>
    have hnotice : notice f s ⟨field, p, value⟩ = s.hearField f field p (Json.head value) := by
      rw [notice, hhas, if_neg Bool.false_ne_true]
    rw [hnotice] at h ⊢
    by_cases hpartII : field = .partII
    · subst hpartII
      exact .inr ⟨rfl, rfl, rfl, rfl⟩
    cases value with
    | array items =>
      rw [Json.head, hearField_opening hpartII] at h
      cases h
    | object members =>
      rw [Json.head, hearField_opening hpartII] at h
      cases h
    | scalar v =>
      rw [Json.head] at h ⊢
      by_cases hnull : v = .null
      · -- `null` leaves the field open for a later member
        subst hnull
        exact .inl ⟨.inr (settles_eq_false.mpr ⟨hpartII, rfl⟩), hearField_null hpartII p⟩
      have hsettles : (Sighting.mk field p (.scalar v)).settles = true := by
        rw [← Bool.not_eq_false, settles_eq_false]
        exact fun hx => hnull (Json.scalar.inj hx.2)
      exact .inr ⟨rfl, hsettles, hearField_scalar hpartII hnull h⟩

/-! ## All of them -/

/-- A screening takes in members up to the first that gets the message rejected. -/
theorem noticeAll_cons (f : Filters) (s : Screening) (x : Sighting) (xs : List Sighting) :
    s.noticeAll f (x :: xs) =
      if !(notice f s x).verdict.retains then notice f s x
      else (notice f s x).noticeAll f xs := rfl

/-- A screening knows of the members it took in what there is to know. -/
structure Knows (s : Screening) (seen : List Sighting) : Prop where
  record : s.record = Record.of seen
  fits : ∀ field x, first? field seen = some x → x.fits = true

namespace Knows

variable {seen : List Sighting}

/-- A field is settled by the first member that settles it. -/
theorem has_eq (hs : s.Knows seen) (field : Field) :
    s.has field = (first? field seen).isSome := by
  have hrecord : s.has field = ({ record := Record.of seen } : Screening).has field := by
    rw [← hs.record]
    cases field <;> rfl
  rw [hrecord]
  cases hfirst : first? field seen with
  | none =>
    cases field <;> simp [has, Record.of, hfirst]
  | some x =>
    have hx := hs.fits field x hfirst
    have hfield := field_of_first? hfirst
    rw [Sighting.fits, hfield] at hx
    cases field with
    | partII => simp [has, Record.of, hfirst]
    | _ => simpa [has, Record.of, hfirst] using hx

/-- The invariant is kept by every member that does not get the message rejected. -/
theorem notice (hs : s.Knows seen) (h : (notice f s x).verdict.retains = true) :
    (Screening.notice f s x).Knows (seen ++ [x]) := by
  rcases notice_cases h with ⟨hsettled, heq⟩ | ⟨hopen, hsettles, hfits, hrecord⟩
  · rw [hs.has_eq] at hsettled
    rw [heq]
    refine ⟨?_, ?_⟩
    · rw [Record.of_snoc_of_settled hsettled, hs.record]
    · intro field y hy
      rw [first?_snoc_of_settled hsettled] at hy
      exact hs.fits field y hy
  · -- the field was open, so the member is the first to settle it
    have hnone : first? x.field seen = none := by
      rw [hs.has_eq, Option.isSome_eq_false_iff, Option.isNone_iff_eq_none] at hopen
      exact hopen
    refine ⟨?_, ?_⟩
    · rw [hrecord, hs.record, Record.of_snoc_of_open hnone hsettles]
    · intro field y hy
      rw [first?_snoc_of_open hnone hsettles] at hy
      split at hy
      · rw [← Option.some.inj hy]
        exact hfits
      · exact hs.fits field y hy

theorem noticeAll (hs : s.Knows seen) {xs : List Sighting}
    (h : (s.noticeAll f xs).verdict.retains = true) :
    (s.noticeAll f xs).Knows (seen ++ xs) := by
  induction xs generalizing s seen with
  | nil =>
    rw [List.append_nil]
    exact hs
  | cons x xs ih =>
    rw [noticeAll_cons] at h ⊢
    cases hx : (Screening.notice f s x).verdict.retains with
    | false =>
      rw [hx, Bool.not_false, if_pos rfl, hx] at h
      cases h
    | true =>
      rw [hx, Bool.not_true, if_neg Bool.false_ne_true] at h
      rw [Bool.not_true, if_neg Bool.false_ne_true, List.append_cons]
      exact ih (hs.notice hx) h

end Knows

theorem knows_start : ({} : Screening).Knows [] := ⟨rfl, fun _ _ h => by cases h⟩

/--
**What a screening knows in the end.** A message that is read to its end without a rejection leaves
the record of the recognised members of the value that was read.
-/
theorem record_of_read {message : String} {tree : Json}
    (h : read f message = (s, .value tree)) :
    s.record = Record.of (sightings [] tree) ∧ Screened tree := by
  have hdistinct := Json.distinct_of_read (l := listener f) rfl rfl h
  obtain ⟨hheed, hstop⟩ := Json.heed_of_read (l := listener f) rfl rfl h
  rw [heed_listener f rfl] at hheed
  have hretains : s.verdict.retains = true := by
    cases hs : s.verdict.retains with
    | true => rfl
    | false =>
      have : (!s.verdict.retains) = false := hstop
      rw [hs] at this
      cases this
  subst hheed
  have hknows := knows_start.noticeAll hretains
  exact ⟨hknows.record, hdistinct, hknows.fits⟩

end Screening

end VehiclePrivacy
