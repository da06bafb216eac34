import VehiclePrivacy.Proofs.Redaction.Dimensions
import VehiclePrivacy.Proofs.Sanitizer.Overwriting

/-!
# The dimensions in the output and in the record

Where dimensions are overwritten with a finite number, the message that is given out has exactly
this number in the places of the dimensions, and the record has it too
(`Sanitizer.dimensions_exact`).
-/

namespace VehiclePrivacy

variable {tree out : Json} {field : Field}

/-- Where a dimension is recorded, a message has the number, and the record has the double. Without
a place there is neither. -/
inductive Json.HasDimension (out : Json) (n : Number) (double : Float) :
    Option Json.Path → Option Float → Prop
  | absent : out.HasDimension n double none none
  | present {p : Json.Path} (h : out.get? p = some (.scalar (.number n))) :
    out.HasDimension n double (some p) (some double)

namespace Sanitizer

open Binary64

variable {s : Sanitizer} {n : Number}

/-- The first width and the first length are overwritten with the number of the rule. -/
theorem hasDimension_redacted (ht : Screened tree) (ha : s.active.sizeRedaction = true)
    (hn : s.rules.size.value = .scalar (.number n)) (hfield : field = .width ∨ field = .length) :
    (s.redacted tree).HasDimension n s.rules.size.number
      ((first? field (sightings [] tree)).map Sighting.place)
      (((first? field (sightings [] tree)).bind Sighting.number?).map
        fun _ => s.rules.size.number) := by
  cases hx : first? field (sightings [] tree) with
  | none => exact .absent
  | some x =>
    have hxfield : x.field = .width ∨ x.field = .length := (field_of_first? hx).symm ▸ hfield
    have hedit := Rules.edit?_dimension s.rules s.active (s.rules.id.pseudonym.draw s.entropy).1
      hxfield
    rw [ha, if_pos rfl] at hedit
    obtain ⟨m, hm⟩ := Sighting.number?_of_fits hxfield (ht.fits field x hx)
    rw [Option.map_some, Option.bind_some, hm, Option.map_some]
    exact .present (hn ▸ get?_redacted_of_edit ht hx hedit)

/--
**The number that dimensions are overwritten with is exact.** If it is finite, a message gets a
number that is equal to it, also when it is read as a double. That is an integer just if the number
is whole and below `2 ^ 63` in magnitude, and then the conversion to a machine word neither clamps
nor rounds it. NaN and the infinities give `null`, and nothing else does. So in a message that is
retained with its dimensions overwritten, and in the record of it, the dimensions that are recorded
are equal.
-/
theorem dimensions_exact :
    (∀ r : SizeRule, r.number.isFinite = true →
      ∃ x n, r.Exact x n ∧ (n.toFloat == r.number) = true) ∧
    (∀ r : SizeRule, r.value = .null ↔ r.number.isFinite = false) ∧
    ∀ (s : Sanitizer) (message : String), s.active.has .sizeRedaction = true →
      s.rules.size.number.isFinite = true → (s.receive message).2.verdict = .success →
        ∃ x n, ∃ out : Json, s.rules.size.Exact x n ∧ (n.toFloat == s.rules.size.number) = true ∧
          (s.receive message).2.emit.1 = out.render ∧
          out.HasDimension n s.rules.size.number (s.receive message).2.record.widthAt
            (s.receive message).2.record.width ∧
          out.HasDimension n s.rules.size.number (s.receive message).2.record.lengthAt
            (s.receive message).2.record.length := by
  have hexact : ∀ r : SizeRule, r.number.isFinite = true →
      ∃ x n, r.Exact x n ∧ (n.toFloat == r.number) = true := by
    intro r hfinite
    obtain ⟨x, n, hn⟩ := SizeRule.exact_of_isFinite hfinite
    exact ⟨x, n, hn, hn.beq⟩
  refine ⟨hexact, fun r => SizeRule.value_eq_null_iff, fun s message ha hfinite h => ?_⟩
  obtain ⟨x, n, hn, hequal⟩ := hexact s.rules.size hfinite
  obtain ⟨hline, tree, hread⟩ := readable_of_retained h
  have hretains := (retained_iff hline hread).mp h
  have hkept := receive_retained hline hread hretains
  have ht : Screened tree := ⟨distinct_of_readable hread, hretains.fits⟩
  have ha : s.active.sizeRedaction = true := ha
  refine ⟨x, n, s.redacted tree, hn, hequal, hkept.emit, ?_⟩
  rw [hkept.record, Rules.revise, ha]
  exact ⟨hasDimension_redacted ht ha hn.value (.inl rfl),
    hasDimension_redacted ht ha hn.value (.inr rfl)⟩

/-- So it is for the last number before the limit; the next one is the limit itself, and no longer
written as an integer. -/
theorem dimensions_exact_of_limit :
    let last : SizeRule := ⟨-9223372036854774784⟩
    let next : SizeRule := ⟨-9223372036854775808⟩
    let s := { ofSettings {} (fun _ => true) (mkStdGen 7) with
      active := ⟨false, false, false, true, false⟩, rules := { size := last } }
    let message := "\x7b\"width\":\"2\",\"trailer\":\x7b\"length\":5.5\x7d\x7d"
    last.number.isFinite = true ∧ next.number.isFinite = true ∧
      (s.receive message).2.verdict = .success ∧
      (s.receive message).2.emit.1 = "\x7b\"width\":-9223372036854774784," ++
        "\"trailer\":\x7b\"length\":-9223372036854774784\x7d\x7d" ∧
      (∃ x n, next.Exact x n ∧ ∀ i, n ≠ .integer i) ∧ (⟨0 / 0⟩ : SizeRule).value = .null ∧
      ∃ x n, ∃ out : Json, last.Exact x n ∧ (s.receive message).2.emit.1 = out.render ∧
        out.HasDimension n last.number (some [.name "width"]) (some last.number) ∧
        out.HasDimension n last.number (some [.name "trailer", .name "length"])
          (some last.number) := by
  intro last next s message
  have hlast : last.number.isFinite = true := by decide +kernel
  have hnext : next.number.isFinite = true := by decide +kernel
  have hlimit : ¬ next.number.abs < .ofModel (.ofInt64 Int64.maxValue) := by decide +kernel
  have hnan : (0 / 0 : Float).isFinite = false := by decide +kernel
  obtain ⟨hretained, hemit, hrecord⟩ : (s.receive message).2.verdict = .success ∧
      (s.receive message).2.emit.1 = "\x7b\"width\":-9223372036854774784," ++
        "\"trailer\":\x7b\"length\":-9223372036854774784\x7d\x7d" ∧
      (s.receive message).2.record =
        { width := some last.number, widthAt := some [.name "width"],
          length := some last.number, lengthAt := some [.name "trailer", .name "length"] } := by
    decide +kernel
  obtain ⟨hexact, hnull, hreceive⟩ := dimensions_exact
  obtain ⟨x, n, hn, -⟩ := hexact next hnext
  have hreal : ∀ i, n ≠ .integer i := fun i hi =>
    hlimit (hn.limit.mpr (hn.integer_iff.mp ⟨i, hi⟩).2)
  obtain ⟨y, m, out, hm, -, hout, hwidth, hlength⟩ := hreceive s message rfl hlast hretained
  rw [hrecord] at hwidth hlength
  exact ⟨hlast, hnext, hretained, hemit, ⟨x, n, hn, hreal⟩, (hnull ⟨0 / 0⟩).mpr hnan, y, m, out,
    hm, hout, hwidth, hlength⟩

end Sanitizer

end VehiclePrivacy
