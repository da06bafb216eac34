import Mathlib.Data.List.Induction
import VehiclePrivacy.Proofs.Screening.Review

/-!
# Which messages pass a screening

A screening takes its decisions one by one, each as soon as it can. Whether it rejects a message
does not depend on when it takes them: a message passes exactly if the members that settle its
fields have values that fit, and the speed and the position among them are accepted
(`retains_noticeAll`). The end of the message adds that what an active filter asks for is there
(`retains_finish`).

So nothing but the record decides, and of that no more than `Satisfies` reads. What a filter does to
messages, and what the order of their members does, is seen from here without following a screening.
-/

namespace VehiclePrivacy

variable {f : Filters} {s : Screening} {x : Sighting} {xs : List Sighting} {field : Field}

namespace Record

/-- What the record knows so far satisfies the active filters. -/
structure Clears (f : Filters) (r : Record) : Prop where
  speed : f.active.has .speedFilter = true → ∀ v, r.speed = some v → f.speeds.accepts v = true
  position : f.active.has .positionFilter = true → ∀ p, r.position = some p → f.within p = true

/-- The record knows what the active filters ask for, and that satisfies them. -/
structure Satisfies (f : Filters) (r : Record) : Prop where
  speed : f.active.has .speedFilter = true → ∃ v, r.speed = some v ∧ f.speeds.accepts v = true
  position : f.active.has .positionFilter = true → ∃ p, r.position = some p ∧ f.within p = true

theorem satisfies_iff {r : Record} : r.Satisfies f ↔ r.Clears f ∧
    (f.active.has .speedFilter = true → r.speed.isSome = true) ∧
      (f.active.has .positionFilter = true → r.position.isSome = true) := by
  constructor
  · intro h
    refine ⟨⟨fun ha v hv => ?_, fun ha p hp => ?_⟩, fun ha => ?_, fun ha => ?_⟩
    · obtain ⟨w, hw, haccepts⟩ := h.speed ha
      rw [hv, Option.some_inj] at hw
      rwa [hw]
    · obtain ⟨q, hq, hwithin⟩ := h.position ha
      rw [hp, Option.some_inj] at hq
      rwa [hq]
    · obtain ⟨v, hv, -⟩ := h.speed ha
      rw [hv, Option.isSome_some]
    · obtain ⟨p, hp, -⟩ := h.position ha
      rw [hp, Option.isSome_some]
  · rintro ⟨hclears, hspeed, hposition⟩
    refine ⟨fun ha => ?_, fun ha => ?_⟩
    · obtain ⟨v, hv⟩ := Option.isSome_iff_exists.mp (hspeed ha)
      exact ⟨v, hv, hclears.speed ha v hv⟩
    · obtain ⟨p, hp⟩ := Option.isSome_iff_exists.mp (hposition ha)
      exact ⟨p, hp, hclears.position ha p hp⟩

end Record

/-- Every field that is settled has a value that fits. -/
def Fitting (xs : List Sighting) : Prop := ∀ field x, first? field xs = some x → x.fits = true

theorem first?_append {y : Sighting} (h : first? field xs = some y) (zs : List Sighting) :
    first? field (xs ++ zs) = some y := by
  rw [first?, List.find?_append, ← first?, h, Option.some_or]

theorem Fitting.of_append {zs : List Sighting} (h : Fitting (xs ++ zs)) : Fitting xs :=
  fun field x hx => h field x (first?_append hx zs)

theorem Record.Clears.of_append {zs : List Sighting} (h : (Record.of (xs ++ zs)).Clears f) :
    (Record.of xs).Clears f := by
  have hkeep : ∀ {field : Field} {v : Float},
      (first? field xs).bind Sighting.number? = some v →
        (first? field (xs ++ zs)).bind Sighting.number? = some v := by
    intro field v hv
    obtain ⟨y, hy, hnumber⟩ := Option.bind_eq_some_iff.mp hv
    rw [first?_append hy]
    exact hnumber
  refine ⟨fun ha v hv => h.speed ha v (hkeep hv), fun ha p hp => h.position ha p ?_⟩
  rw [Record.position] at hp ⊢
  split at hp
  · rename_i lat lon hlat hlon
    rw [show (Record.of (xs ++ zs)).latitude = some lat from hkeep hlat,
      show (Record.of (xs ++ zs)).longitude = some lon from hkeep hlon]
    exact hp
  · cases hp

namespace Screening

/-! ## One member more -/

theorem notice_of_settled (h : s.has x.field = true ∨ x.settles = false) : notice f s x = s := by
  rw [notice]
  split
  · rfl
  · rename_i hopen
    obtain ⟨hpartII, hnull⟩ := settles_eq_false.mp (h.resolve_left hopen)
    rw [hnull]
    exact hearField_null hpartII x.place

/-- A position that has just become complete is held against the geofence. -/
theorem retains_checkPosition (hs : s.verdict.retains = true) (hasked : s.asked = none)
    (hclears : f.active.has .speedFilter = true →
      ∀ v, s.record.speed = some v → f.speeds.accepts v = true) :
    (s.checkPosition f).verdict.retains = true ↔ s.record.Clears f := by
  rw [checkPosition, hasked]
  cases hp : s.record.position with
  | none =>
    refine ⟨fun _ => ⟨hclears, fun _ p h => ?_⟩, fun _ => hs⟩
    rw [hp] at h
    cases h
  | some p =>
    dsimp only
    cases ha : f.active.has .positionFilter with
    | false => exact ⟨fun _ => ⟨hclears, fun h => by rw [ha] at h; cases h⟩, fun _ => hs⟩
    | true =>
      rw [if_pos rfl]
      cases hwithin : f.within p with
      | true =>
        refine ⟨fun _ => ⟨hclears, fun _ q hq => ?_⟩, fun _ => hs⟩
        rw [hp, Option.some_inj] at hq
        rwa [← hq]
      | false =>
        refine ⟨fun h => absurd h Bool.false_ne_true, fun h => ?_⟩
        have := h.position ha p hp
        rw [hwithin] at this
        cases this

/-- A number for an open field is held against the filter that waits for it. -/
theorem retains_hearNumber {p : Json.Path} {v : Scalar} {n : Float}
    (hfield : field ≠ .id ∧ field ≠ .partII) (hv : finite? v = some n)
    (hs : s.verdict.retains = true) (hopen : s.has field = false)
    (hwait : s.record.position = none → s.asked = none) (hclears : s.record.Clears f) :
    (s.hearNumber f field p n).verdict.retains = true ↔
      (s.record.noting ⟨field, p, .scalar v⟩).Clears f := by
  have hnumber : (Sighting.mk field p (.scalar v)).number? = some n := hv
  cases field with
  | id => exact absurd rfl hfield.1
  | partII => exact absurd rfl hfield.2
  | speed =>
    rw [Record.noting, hnumber, hearNumber]
    dsimp only
    cases hreject : f.active.has .speedFilter && !f.speeds.accepts n with
    | true =>
      rw [Bool.and_eq_true, Bool.not_eq_true'] at hreject
      refine ⟨fun h => absurd h Bool.false_ne_true, fun h => ?_⟩
      have := h.speed hreject.1 n rfl
      rw [hreject.2] at this
      cases this
    | false =>
      refine ⟨fun _ => ⟨fun ha w hw => ?_, hclears.position⟩, fun _ => hs⟩
      rw [ha, Bool.true_and, Bool.not_eq_false'] at hreject
      rwa [← Option.some.inj hw]
  | latitude | longitude =>
    -- without this coordinate there was no position, so the geofence was not asked
    have hasked : s.asked = none := by
      refine hwait ?_
      rw [Record.position]
      split
      · rename_i hlat hlon
        simp [has, hlat, hlon] at hopen
      · rfl
    rw [Record.noting, hnumber, hearNumber]
    exact retains_checkPosition hs hasked hclears.speed
  | width | length =>
    exact ⟨fun _ => ⟨hclears.speed, hclears.position⟩, fun _ => hs⟩

/-- A member that settles an open field is taken in if its value fits and satisfies the filters. -/
theorem retains_hearField (hs : s.verdict.retains = true) (hopen : s.has x.field = false)
    (hsettles : x.settles = true) (hwait : s.record.position = none → s.asked = none)
    (hclears : s.record.Clears f) :
    (s.hearField f x.field x.place (Json.head x.value)).verdict.retains = true ↔
      x.fits = true ∧ (s.record.noting x).Clears f := by
  obtain ⟨field, p, value⟩ := x
  by_cases hpartII : field = .partII
  · subst hpartII
    exact ⟨fun _ => ⟨rfl, hclears.speed, hclears.position⟩, fun _ => hs⟩
  have hcontainer : ∀ b, Json.head value = .opening b →
      ((s.hearField f field p (Json.head value)).verdict.retains = true ↔
        (Sighting.mk field p value).fits = true ∧
          (s.record.noting ⟨field, p, value⟩).Clears f) := by
    intro b hb
    rw [hb, hearField_opening hpartII]
    refine ⟨nofun, fun h => ?_⟩
    rcases Sighting.scalar_of_fits h.1 with h | ⟨v, hv⟩
    · exact absurd h hpartII
    · rw [show value = .scalar v from hv] at hb
      cases hb
  cases value with
  | array items => exact hcontainer _ rfl
  | object members => exact hcontainer _ rfl
  | scalar v =>
    have hnull : v ≠ .null := by
      rintro rfl
      rw [settles_eq_false.mpr ⟨hpartII, rfl⟩] at hsettles
      cases hsettles
    rw [Json.head]
    by_cases hid : field = .id
    · subst hid
      rw [hearField_id hnull]
      refine ⟨fun _ => ⟨by cases v <;> rfl, hclears.speed, hclears.position⟩, fun _ => hs⟩
    · cases hv : finite? v with
      | none =>
        rw [hearField_noNumber ⟨hid, hpartII⟩ hnull hv]
        refine ⟨nofun, fun h => ?_⟩
        have hnumber : (Sighting.mk field p (.scalar v)).number? = none := hv
        have hfits := h.1
        cases field <;> simp_all [Sighting.fits]
      | some n =>
        have hnumber : (Sighting.mk field p (.scalar v)).number? = some n := hv
        have hfits : (Sighting.mk field p (.scalar v)).fits = true := by
          cases field <;> simp_all [Sighting.fits]
        rw [hearField_number ⟨hid, hpartII⟩ hv,
          retains_hearNumber ⟨hid, hpartII⟩ hv hs hopen hwait hclears]
        exact ⟨fun h => ⟨hfits, h⟩, fun h => h.2⟩

/-! ## All of them -/

theorem noticeAll_snoc (xs : List Sighting) (x : Sighting) :
    ({} : Screening).noticeAll f (xs ++ [x]) =
      if (({} : Screening).noticeAll f xs).verdict.retains then
        notice f (({} : Screening).noticeAll f xs) x
      else ({} : Screening).noticeAll f xs := by
  rw [noticeAll, Json.stepUntil_append rfl, ← noticeAll]
  cases (({} : Screening).noticeAll f xs).verdict.retains with
  | false => rfl
  | true => exact ite_self _

/-- **Passing a screening is a matter of the record.** A screening takes in members to their end
exactly if the fields are settled by values that fit and the filters accept what is known. -/
theorem retains_noticeAll (f : Filters) (xs : List Sighting) :
    (({} : Screening).noticeAll f xs).verdict.retains = true ↔
      Fitting xs ∧ (Record.of xs).Clears f := by
  induction xs using List.reverseRecOn with
  | nil => exact ⟨fun _ => ⟨nofun, nofun, nofun⟩, fun _ => rfl⟩
  | append_singleton xs x ih =>
    have hagree := Review.agree_walk (f := f) Review.matches_start rfl xs
    rw [noticeAll_snoc]
    cases hs : (({} : Screening).noticeAll f xs).verdict.retains with
    | false =>
      -- a rejection stands, and no later member unsettles a field
      rw [if_neg Bool.false_ne_true, hs]
      refine ⟨nofun, fun h => ?_⟩
      rw [ih.mpr ⟨h.1.of_append, h.2.of_append⟩] at hs
      cases hs
    | true =>
      rw [if_pos rfl]
      obtain ⟨hfitting, hclears⟩ := ih.mp hs
      have hknows := knows_start.noticeAll hs
      rw [List.nil_append] at hknows
      generalize ({} : Screening).noticeAll f xs = s at hagree hs hknows
      by_cases hsettled : s.has x.field = true ∨ x.settles = false
      · rw [notice_of_settled hsettled, hs]
        rw [hknows.has_eq] at hsettled
        rw [Record.of_snoc_of_settled hsettled]
        refine ⟨fun _ => ⟨fun field y hy => ?_, hclears⟩, fun _ => rfl⟩
        rw [first?_snoc_of_settled hsettled] at hy
        exact hfitting field y hy
      · rw [not_or, Bool.not_eq_true, Bool.not_eq_false] at hsettled
        obtain ⟨hopen, hsettles⟩ := hsettled
        have hnone : first? x.field xs = none := by
          rw [hknows.has_eq, Option.isSome_eq_false_iff, Option.isNone_iff_eq_none] at hopen
          exact hopen
        have hfits : Fitting (xs ++ [x]) ↔ x.fits = true := by
          refine ⟨fun h => h x.field x ?_, fun h field y hy => ?_⟩
          · rw [first?_snoc_of_open hnone hsettles, if_pos rfl]
          · rw [first?_snoc_of_open hnone hsettles] at hy
            split at hy
            · rwa [← Option.some.inj hy]
            · exact hfitting field y hy
        rw [notice, if_neg (by rw [hopen]; exact Bool.false_ne_true), hfits,
          Record.of_snoc_of_open hnone hsettles, ← hknows.record]
        exact retains_hearField hs hopen hsettles hagree.found.waiting (hknows.record ▸ hclears)

/-- At its end, a message that passed is retained if what the filters ask for is there. -/
theorem retains_finish (hs : s.verdict = .success) :
    (s.finish f).verdict.retains = true ↔
      (f.active.has .speedFilter = true → s.record.speed.isSome = true) ∧
        (f.active.has .positionFilter = true → s.record.position.isSome = true) := by
  have hretains : s.verdict.retains = true := by
    rw [hs]
    rfl
  rw [finish, hretains, Bool.not_true, if_neg Bool.false_ne_true]
  cases f.active.has .speedFilter <;> cases f.active.has .positionFilter <;>
    cases s.record.speed <;> cases s.record.position <;> simp [hs, reject, Verdict.retains]

end Screening

end VehiclePrivacy
