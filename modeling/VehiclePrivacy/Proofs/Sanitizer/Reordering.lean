import VehiclePrivacy.Proofs.Sanitizer.Retention
import VehiclePrivacy.Proofs.Screening.Reordering

/-!
# The order of members does not matter

A screening takes the members of a message as they come and decides early, so the same members in
another order may be rejected for another reason. But they are not retained in one order and
rejected in another, and what is left of a retained message is the same but for the order of its
members (`receive_reordered`).
-/

namespace VehiclePrivacy

variable {f : Filters} {tree tree' : Json}

theorem Fitting.reordered (h : tree.Reordered tree') (hlone : Lone (sightings [] tree)) :
    Fitting (sightings [] tree) ↔ Fitting (sightings [] tree') := by
  have hfits : ∀ field, (first? field (sightings [] tree)).bind (fun x => some x.fits) =
      (first? field (sightings [] tree')).bind (fun x => some x.fits) := fun field =>
    bind_reordered (first?_sightings h hlone field) fun h => congrArg some h.fits
  -- a member that settles a field fits on one side as the one on the other side does
  have hside : ∀ {xs ys : List Sighting}, (∀ field, (first? field xs).bind (fun x => some x.fits) =
      (first? field ys).bind (fun x => some x.fits)) → Fitting xs → Fitting ys := by
    intro xs ys hfits hfitting field y hy
    have hfield := hfits field
    rw [hy, Option.bind_some] at hfield
    obtain ⟨x, hx, heq⟩ := Option.bind_eq_some_iff.mp hfield
    rw [← Option.some.inj heq]
    exact hfitting field x hx
  exact ⟨hside hfits, hside fun field => (hfits field).symm⟩

theorem Retains.reordered (h : tree.Reordered tree') (hlone : Lone (sightings [] tree)) :
    Retains f tree ↔ Retains f tree' := by
  have hfitting := Fitting.reordered h hlone
  have hrecord := Record.of_reordered h hlone
  have hscalar := hasScalarPartII_reordered h hlone
  constructor
  · intro hr
    exact ⟨hfitting.mp hr.fits, hrecord ▸ hr.satisfied, hscalar ▸ hr.block⟩
  · intro hr
    exact ⟨hfitting.mpr hr.fits, hrecord ▸ hr.satisfied, hscalar ▸ hr.block⟩

namespace Sanitizer

variable {s r : Sanitizer} {message message' pseudonym : String}

/-- Redaction keeps the messages the same but for the order of their members. -/
theorem redacted_reordered (h : tree.Reordered tree') (hlone : Lone (sightings [] tree)) :
    (s.redacted tree).Reordered (s.redacted tree') := by
  rw [redacted, redacted, edits, edits, ← Rules.edits_reordered h hlone]
  exact h.rewrite Rules.edits_steady []

/-- Nothing is given out for a message that is not retained. -/
theorem emit_suppressed (h : (s.receive message).2.verdict ≠ .success) :
    (s.receive message).2.emit.1 = "" := by
  cases s.received message with
  | unreadable _ _ _ _ htree houtput => rw [emit_of_no_tree houtput htree]
  | rejected _ _ _ htree houtput => rw [emit_of_no_tree houtput htree]
  | retained _ _ hverdict _ _ => exact absurd hverdict h

/--
**Whether a message is retained does not depend on the order of its members**, as long as no
recognised field could be settled by two of them. In any two orders, at any depth, sanitizers with the
same settings retain both messages or neither. Of retained messages they have the same record, and
what they give out is the same but for that order; for the others they give out nothing.
-/
theorem receive_reordered (s r : Sanitizer) (hagrees : s.Agrees r)
    (hfixed : s.rules.id.pseudonym = .fixed pseudonym) (hline : hasLineBreak message = false)
    (hread : Json.read ⟨true, true⟩ .idle () message = ((), .value tree))
    (hline' : hasLineBreak message' = false)
    (hread' : Json.read ⟨true, true⟩ .idle () message' = ((), .value tree'))
    (hreordered : tree.Reordered tree') (hlone : Lone (sightings [] tree)) :
    let left := s.receive message
    let left' := r.receive message'
    left.1 = true ∧ left'.1 = true ∧ (left.2.verdict = .success ↔ left'.2.verdict = .success) ∧
      (left.2.verdict = .success →
        left.2.record = left'.2.record ∧
          ∃ out out' : Json, left.2.tree = some out ∧ left'.2.tree = some out' ∧
            left.2.emit.1 = out.render ∧ left'.2.emit.1 = out'.render ∧ out.Reordered out') ∧
      (left.2.verdict ≠ .success → left.2.emit.1 = "" ∧ left'.2.emit.1 = "") := by
  intro left left'
  have hleft' : left' =
      ((s.receive message').1, (s.receive message').2.drawing r.buffer r.entropy) :=
    receive_of_agrees hagrees hfixed message'
  have hretains := Retains.reordered (f := s.filters) hreordered hlone
  have hiff := (retained_iff hline hread).trans (hretains.trans (retained_iff hline' hread').symm)
  have hanswer : left.1 = true := congrArg Prod.fst (receive_readable s hline hread)
  have hanswer' : (s.receive message').1 = true :=
    congrArg Prod.fst (receive_readable s hline' hread')
  rw [hleft', emit_drawing]
  refine ⟨hanswer, hanswer', hiff, fun h => ?_, fun h => ?_⟩
  · have hkept := receive_retained hline hread ((retained_iff hline hread).mp h)
    have hkept' := receive_retained hline' hread' ((retained_iff hline' hread').mp (hiff.mp h))
    refine ⟨?_, s.redacted tree, s.redacted tree', hkept.tree, hkept'.tree, hkept.emit, hkept'.emit,
      redacted_reordered hreordered hlone⟩
    show left.2.record = (s.receive message').2.record
    rw [hkept.record, hkept'.record, Record.of_reordered hreordered hlone]
  · exact ⟨emit_suppressed h, emit_suppressed fun h' => h (hiff.mpr h')⟩

/-- So it is for two messages in which the speed stands behind or before all else. -/
theorem receive_reordered_of_two :
    let s := { ofSettings {} (fun _ => true) (mkStdGen 7) with
      active := ⟨true, false, true, false, false⟩ }
    let message := "\x7b\"b\":\x7b\"id\":2,\"lat\":null\x7d,\"speed\":5\x7d"
    let message' := "\x7b\"speed\":5,\"b\":\x7b\"lat\":null,\"id\":2\x7d\x7d"
    ∃ tree tree' : Json, Json.read ⟨true, true⟩ .idle () message = ((), .value tree) ∧
      Json.read ⟨true, true⟩ .idle () message' = ((), .value tree') ∧ tree.Reordered tree' ∧
      Lone (sightings [] tree) ∧ (s.receive message).2.verdict = .success ∧
      (s.receive message').2.verdict = .success := by
  intro s message message'
  have hread : Json.read ⟨true, true⟩ .idle ()
      "\x7b\"b\":\x7b\"id\":2,\"lat\":null\x7d,\"speed\":5\x7d" = ((), .value (.object
        [("b", .object [("id", .integer 2), ("lat", .null)]), ("speed", .integer 5)])) := rfl
  have hread' : Json.read ⟨true, true⟩ .idle ()
      "\x7b\"speed\":5,\"b\":\x7b\"lat\":null,\"id\":2\x7d\x7d" = ((), .value (.object
        [("speed", .integer 5), ("b", .object [("lat", .null), ("id", .integer 2)])])) := rfl
  have hreordered := Json.Reordered.object (.trans
    (.cons "b" (.object (.swap ("id", .integer 2) ("lat", .null) []))
      (.refl [("speed", .integer 5)])) (.swap _ _ []))
  have hlone : Lone (sightings [] (.object
      [("b", .object [("id", .integer 2), ("lat", .null)]), ("speed", .integer 5)])) := by
    intro field
    cases field <;> decide
  have hretained : (s.receive message).2.verdict = .success := by decide +kernel
  have hline : hasLineBreak message = false := by decide +kernel
  have hline' : hasLineBreak message' = false := by decide +kernel
  obtain ⟨-, -, hiff, -⟩ := receive_reordered s s ⟨rfl, rfl, rfl, rfl⟩ rfl hline hread hline' hread'
    hreordered hlone
  exact ⟨_, _, hread, hread', hreordered, hlone, hretained, hiff.mp hretained⟩

/-- The record of a message that is rejected does depend on the order: it has what came before. -/
theorem record_of_rejected_order :
    let s := { ofSettings {} (fun _ => true) (mkStdGen 7) with
      active := ⟨true, false, false, false, false⟩ }
    let message := "\x7b\"speed\":100,\"id\":2\x7d"
    let message' := "\x7b\"id\":2,\"speed\":100\x7d"
    ∃ tree tree' : Json, Json.read ⟨true, true⟩ .idle () message = ((), .value tree) ∧
      Json.read ⟨true, true⟩ .idle () message' = ((), .value tree') ∧ tree.Reordered tree' ∧
      Lone (sightings [] tree) ∧ (s.receive message).2.verdict = .speed ∧
      (s.receive message').2.verdict = .speed ∧ (s.receive message).2.record.id = none ∧
      (s.receive message').2.record.id = some "2" := by
  have hread : Json.read ⟨true, true⟩ .idle () "\x7b\"speed\":100,\"id\":2\x7d" =
      ((), .value (.object [("speed", .integer 100), ("id", .integer 2)])) := rfl
  have hread' : Json.read ⟨true, true⟩ .idle () "\x7b\"id\":2,\"speed\":100\x7d" =
      ((), .value (.object [("id", .integer 2), ("speed", .integer 100)])) := rfl
  have hlone : Lone (sightings [] (.object [("speed", .integer 100), ("id", .integer 2)])) := by
    intro field
    cases field <;> decide
  exact ⟨_, _, hread, hread', .object (.swap _ _ []), hlone, by decide +kernel, by decide +kernel,
    by decide +kernel, by decide +kernel⟩

end Sanitizer

end VehiclePrivacy
