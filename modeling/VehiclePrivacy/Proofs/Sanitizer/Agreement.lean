import VehiclePrivacy.Proofs.Sanitizer.Repetition

/-!
# The record and the redacted message

What is known of a message is kept twice: in the record, which is noted while the message is read
and changed along with the redaction, and in the redacted message itself. The two never part.
Whoever looks for the fields in the redacted message, by the rule for messages as they come in,
finds what the record says (`record_of_redacted`).

Dimensions are kept in two kinds, as a double in the record and as an integer in the message where
they are whole. So they are compared as numbers, and a zero that has lost its sign is the same one.
-/

namespace VehiclePrivacy

open Binary64

variable {tree : Json} {r : Rules} {a : Activation} {pseudonym : String} {x : Sighting}

/-- Two numbers that are equal, or both unknown. -/
abbrev SameNumber : Option Float → Option Float → Prop := Option.Rel fun x y => (x == y) = true

/-- Two records that say the same, of the same places. -/
structure Record.Same (r r' : Record) : Prop where
  id : r.id = r'.id
  width : SameNumber r.width r'.width
  length : SameNumber r.length r'.length
  /-- All the rest: the position, the speed, and the places. -/
  kept : r.kept = r'.kept

theorem beq_self_of_isFinite {n : Float} (h : n.isFinite = true) : (n == n) = true := by
  obtain ⟨q, hq⟩ := number_of_isFinite h
  exact beq_of_value hq hq

/-- The number that a message has for dimensions is the number of the rule. -/
theorem SizeRule.toFloat_value {r : SizeRule} {n : Number} (h : r.value = .scalar (.number n)) :
    (n.toFloat == r.number) = true := by
  have hfinite : r.number.isFinite = true := by
    rw [← Bool.not_eq_false]
    intro hnull
    cases h.symm.trans (value_eq_null_iff.mpr hnull)
  obtain ⟨x, m, hm⟩ := exact_of_isFinite hfinite
  obtain rfl : n = m := Scalar.number.inj (Json.scalar.inj (h.symm.trans hm.value))
  exact hm.beq

/-- The numbers that fields get are finite. -/
theorem sameNumber_number? (x : Sighting) : SameNumber x.number? x.number? := by
  cases hn : x.number? with
  | none => exact .none
  | some n =>
    obtain ⟨field, place, value⟩ := x
    cases value with
    | scalar v => exact .some (beq_self_of_isFinite (Option.filter_eq_some_iff.mp hn).2)
    | array items => cases hn
    | object members => cases hn

namespace Rules

/-- The width or length that an amended member says is the revised one. -/
theorem number?_amended (hsize : r.size.number.isFinite = true)
    (hfield : x.field = .width ∨ x.field = .length) (hx : x.fits = true) :
    SameNumber (r.amend a pseudonym x).number?
      (if a.sizeRedaction then x.number?.map fun _ => r.size.number else x.number?) := by
  have hedit := edit?_dimension r a pseudonym hfield
  cases ha : a.sizeRedaction with
  | false =>
    rw [ha] at hedit
    rw [amend_none hedit]
    exact sameNumber_number? x
  | true =>
    rw [ha] at hedit
    obtain ⟨m, hm⟩ := Sighting.number?_of_fits hfield hx
    obtain ⟨n, hn, -, hfinite⟩ := value_of_isFinite hsize
    have hamended : (r.amend a pseudonym x).number? = some n.toFloat := by
      rw [amend_some hedit, hn]
      exact Option.filter_some_pos hfinite
    rw [hamended, hm]
    exact .some (SizeRule.toFloat_value hn)

/-- **The record of a redacted message** is the revised record of the message. -/
theorem same_redacted (ht : Screened tree) (hsize : r.size.number.isFinite = true) :
    (Record.of (sightings []
        (Json.rewrite (r.edits a pseudonym (sightings [] tree)) [] tree))).Same
      (r.revise a pseudonym (Record.of (sightings [] tree))) := by
  have hnumber : ∀ field, field = .width ∨ field = .length →
      SameNumber (((first? field (sightings [] tree)).map (r.amend a pseudonym)).bind
          Sighting.number?)
        (if a.sizeRedaction then
          ((first? field (sightings [] tree)).bind Sighting.number?).map fun _ => r.size.number
        else (first? field (sightings [] tree)).bind Sighting.number?) := by
    intro field hfield
    cases hx : first? field (sightings [] tree) with
    | none => cases a.sizeRedaction <;> exact .none
    | some x =>
      exact number?_amended hsize ((field_of_first? hx).symm ▸ hfield) (ht.fits _ x hx)
  refine ⟨?_, ?_, ?_, kept_redacted ht hsize⟩
  all_goals simp only [revise, Record.of, first?_redacted hsize ht]
  · cases hx : first? .id (sightings [] tree) with
    | none => cases a.idRedaction <;> rfl
    | some x => exact text?_amend (field_of_first? hx) (ht.fits _ x hx)
  · exact hnumber .width (.inl rfl)
  · exact hnumber .length (.inr rfl)

end Rules

namespace Sanitizer

/--
**The record and the redacted message never part.** If dimensions are overwritten with a finite
number, then after a message that is retained, whatever is redacted, the fields that are found in
the redacted message are those of the record, and at the places that it names. That is the record of
the message as it was read, with the id and the dimensions revised by the active rules.
-/
theorem record_of_redacted (s : Sanitizer) (message : String)
    (hsize : s.rules.size.number.isFinite = true)
    (h : (s.receive message).2.verdict = .success) :
    ∃ tree out, Json.parse message = .ok tree ∧ (s.receive message).2.tree = some out ∧
      (s.receive message).2.emit.1 = out.render ∧
      (Record.of (sightings [] out)).Same (s.receive message).2.record ∧
      (s.receive message).2.record =
        s.rules.revise s.active (s.rules.id.pseudonym.draw s.entropy).1
          (Record.of (sightings [] tree)) := by
  obtain ⟨hline, tree, hread⟩ := readable_of_retained h
  have hretains := (retained_iff hline hread).mp h
  have hkept := receive_retained hline hread hretains
  have ht : Screened tree := ⟨distinct_of_readable hread, hretains.fits⟩
  refine ⟨tree, s.redacted tree, Json.parse_of_read hread, hkept.tree, hkept.emit, ?_,
    hkept.record⟩
  rw [hkept.record]
  exact Rules.same_redacted ht hsize

/-- So it is where a width is overwritten with negative zero, which is written without its sign. -/
theorem record_of_redacted_of_zero :
    let s := { ofSettings {} (fun _ => true) (mkStdGen 7) with
      active := ⟨true, false, true, true, true⟩,
      rules := ⟨.onlyIds ["A1", "X"] (.fixed "X"), ⟨["a"]⟩, ⟨-0.0⟩⟩ }
    let message :=
      "\x7b\"id\":\"A1\",\"width\":\"7\",\"speed\":20.5,\"partII\":[\x7b\"a\":1\x7d]\x7d"
    s.rules.size.number.isFinite = true ∧ (s.receive message).2.verdict = .success ∧
      (s.receive message).2.emit.1 =
        "\x7b\"id\":\"X\",\"width\":0,\"speed\":20.5,\"partII\":[\x7b\x7d]\x7d" ∧
      (s.receive message).2.record.id = some "X" ∧
      (s.receive message).2.record.width = some (-0.0) ∧
      ∃ out, (s.receive message).2.tree = some out ∧
        (Record.of (sightings [] out)).Same (s.receive message).2.record := by
  intro s message
  have hsize : s.rules.size.number.isFinite = true := by decide +kernel
  have hretained : (s.receive message).2.verdict = .success := by decide +kernel
  have hemit : (s.receive message).2.emit.1 =
      "\x7b\"id\":\"X\",\"width\":0,\"speed\":20.5,\"partII\":[\x7b\x7d]\x7d" := by
    decide +kernel
  have hid : (s.receive message).2.record.id = some "X" := by decide +kernel
  have hwidth : (s.receive message).2.record.width = some (-0.0) := by decide +kernel
  obtain ⟨tree, out, -, htree, -, hsame, -⟩ := record_of_redacted s message hsize hretained
  exact ⟨hsize, hretained, hemit, hid, hwidth, out, htree, hsame⟩

end Sanitizer

end VehiclePrivacy
