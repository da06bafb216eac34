import VehiclePrivacy.Proofs.Redaction.Repetition
import VehiclePrivacy.Proofs.Sanitizer.Retention

/-!
# A second pass

What was given out for a message can be taken in again. If dimensions are overwritten with a finite
number, ids with a fixed pseudonym, and all floats in the text are read back, then nothing changes
any more: the text is retained, with the same record, and is given out as it is (`receive_again`).

The text is read as the redacted message, whose fields are settled where they were before. So the
filters find what they found, and the rules find nothing more to do.
-/

namespace VehiclePrivacy

open Json (Every ReadsBack Readable)

variable {tree : Json}

/-- Control characters are not written, so there is no line break in what is given out. -/
theorem hasLineBreak_render (v : Json) : Sanitizer.hasLineBreak v.render = false := by
  rw [Sanitizer.hasLineBreak, List.any_eq_false]
  intro c hc hbreak
  have hplain := Json.plain_render v c hc
  rw [Bool.or_eq_true, decide_eq_true_eq, decide_eq_true_eq] at hbreak
  rcases hbreak with rfl | rfl <;> exact absurd hplain (by decide)

namespace Rules

variable {r : Rules} {a : Activation} {pseudonym : String} {f : Filters}

/-- What the rules write to a record is nothing that a filter looks at. -/
theorem satisfies_revise {record : Record} :
    (r.revise a pseudonym record).Satisfies f ↔ record.Satisfies f :=
  ⟨fun h => ⟨h.speed, h.position⟩, fun h => ⟨h.speed, h.position⟩⟩

/-- A redacted message has what it takes to be retained if the message has it. -/
theorem retains_redacted (hsize : r.size.number.isFinite = true) (ht : Screened tree)
    (h : Retains f tree) :
    Retains f (Json.rewrite (r.edits a pseudonym (sightings [] tree)) [] tree) := by
  refine ⟨(screened_redacted hsize ht).fits, ?_, fun ha => ?_⟩
  · rw [← satisfies_revise, revise_redacted ht hsize, satisfies_revise]
    exact h.satisfied
  · have hblock := h.block ha
    rw [hasScalarPartII, ← first?_partII] at hblock ⊢
    rw [first?_redacted hsize ht]
    cases hx : first? .partII (sightings [] tree) with
    | none => rfl
    | some x =>
      rw [hx] at hblock
      rw [Option.map_some, Option.any_some, isBlock_amend (field_of_first? hx)]
      exact hblock

end Rules

namespace Sanitizer

variable {s r : Sanitizer} {message pseudonym : String}

/-- Sanitizers that treat messages by the same rules redact alike, with a fixed pseudonym. -/
theorem redacted_of_agrees (h : r.Agrees s) (hfixed : s.rules.id.pseudonym = .fixed pseudonym)
    (tree : Json) :
    r.redacted tree =
      Json.rewrite (s.rules.edits s.active pseudonym (sightings [] tree)) [] tree := by
  rw [redacted, edits, h.rules, h.active, draw_fixed hfixed]

/-- A document that was read can be redacted, printed and read again, if its floats are read back. -/
theorem read_redacted (hread : Json.read ⟨true, true⟩ .idle () message = ((), .value tree))
    (ht : Screened tree) (hsize : s.rules.size.number.isFinite = true)
    (hback : Every ReadsBack (s.redacted tree)) :
    Json.read ⟨true, true⟩ .idle () (s.redacted tree).render =
      ((), .value (s.redacted tree)) := by
  have hdocument := (Json.read_iff rfl rfl).mp hread
  have hreadable : Readable Json.Reader.maxDepth (s.redacted tree) :=
    (Json.readable_of_document hdocument).rewrite (Rules.edits_keepReadable hsize)
  obtain ⟨-, members, rfl⟩ := hdocument
  have hobject : s.redacted (.object members) =
      .object (Json.rewriteMembers (s.edits (.object members)) [] members) :=
    Json.rewrite_none (Rules.edits_root ht) _
  rw [hobject] at hreadable hback ⊢
  exact Json.read_render_self hreadable hback

/--
**A second pass changes nothing.** With a fixed pseudonym and a finite number for dimensions, what
was given out for a retained message is retained by the same sanitizer, with the same record, and is
given out as it is, provided that each float in it is read back from its text.
-/
theorem receive_again (s : Sanitizer) (message : String)
    (hfixed : s.rules.id.pseudonym = .fixed pseudonym)
    (hsize : s.rules.size.number.isFinite = true)
    (h : (s.receive message).2.verdict = .success)
    (hback : ∀ tree, (s.receive message).2.tree = some tree → Every ReadsBack tree) :
    let once := (s.receive message).2
    let again := once.emit.2.receive once.emit.1
    again.1 = true ∧ again.2.verdict = .success ∧ again.2.record = once.record ∧
      again.2.tree = once.tree ∧ again.2.emit.1 = once.emit.1 := by
  intro once again
  obtain ⟨hline, tree, hread⟩ := readable_of_retained h
  have hretains := (retained_iff hline hread).mp h
  have hkept := receive_retained hline hread hretains
  have ht : Screened tree := ⟨distinct_of_readable hread, hretains.fits⟩
  have hredacted := redacted_of_agrees (r := s) ⟨rfl, rfl, rfl, rfl⟩ hfixed
  -- the sanitizer treats the text as it treated the message
  have hagrees : once.emit.2.Agrees s := (agrees_emit _).trans (agrees_receive s message)
  have hfilters : once.emit.2.filters = s.filters := by
    rw [filters, hagrees.active, hagrees.speeds, hagrees.within]
    rfl
  have hretains' : Retains once.emit.2.filters (s.redacted tree) := by
    rw [hfilters, hredacted]
    exact Rules.retains_redacted hsize ht hretains
  have hread' := read_redacted hread ht hsize (hback _ hkept.tree)
  have hkept' := receive_retained (hasLineBreak_render _) hread' hretains'
  rw [← hkept.emit] at hkept'
  -- and finds nothing more to redact
  have hfixpoint : once.emit.2.redacted (s.redacted tree) = s.redacted tree := by
    rw [redacted_of_agrees hagrees hfixed]
    exact Rules.rewrite_redacted hsize ht (hredacted tree)
  refine ⟨hkept'.answer, hkept'.verdict, ?_, ?_, ?_⟩
  · rw [hkept'.record, hkept.record, hagrees.rules, hagrees.active, draw_fixed hfixed,
      draw_fixed hfixed, hredacted]
    exact Rules.revise_redacted ht hsize
  · rw [hkept'.tree, hkept.tree, hfixpoint]
  · rw [hkept'.emit, hkept.emit, hfixpoint]

/-- So it is for an id that is on the list with its pseudonym, a width that was a string, a speed
that is no whole number, and a block from which a member is taken out. -/
theorem receive_again_of_vehicle :
    let s := { ofSettings {} (fun _ => true) (mkStdGen 7) with
      active := ⟨true, false, true, true, true⟩,
      rules := ⟨.onlyIds ["A1", "X"] (.fixed "X"), ⟨["a"]⟩, ⟨0⟩⟩ }
    let message :=
      "\x7b\"id\":\"A1\",\"width\":\"7\",\"speed\":20.5,\"partII\":[\x7b\"a\":1\x7d]\x7d"
    let once := (s.receive message).2
    let again := once.emit.2.receive once.emit.1
    s.rules.size.number.isFinite = true ∧ once.verdict = .success ∧
      once.emit.1 = "\x7b\"id\":\"X\",\"width\":0,\"speed\":20.5,\"partII\":[\x7b\x7d]\x7d" ∧
      again.1 = true ∧ again.2.verdict = .success ∧ again.2.record = once.record ∧
      again.2.tree = once.tree ∧ again.2.emit.1 = once.emit.1 := by
  intro s message once again
  have hsize : s.rules.size.number.isFinite = true := by decide +kernel
  have hretained : once.verdict = .success := by decide +kernel
  have hline : hasLineBreak message = false := by decide +kernel
  have hemit : once.emit.1 =
      "\x7b\"id\":\"X\",\"width\":0,\"speed\":20.5,\"partII\":[\x7b\x7d]\x7d" := by
    decide +kernel
  let tree : Json := .object [("id", .string "A1"), ("width", .string "7"), ("speed", .real 20.5),
    ("partII", .array [.object [("a", .integer 1)]])]
  let out : Json := .object [("id", .string "X"), ("width", .integer 0), ("speed", .real 20.5),
    ("partII", .array [.object []])]
  have htokens : Json.tokens message = [.opening .object, .text (some "id"), .colon,
      .text (some "A1"), .comma, .text (some "width"), .colon, .text (some "7"), .comma,
      .text (some "speed"), .colon, .number "20.5".toList, .comma, .text (some "partII"), .colon,
      .opening .array, .opening .object, .text (some "a"), .colon, .number "1".toList,
      .closing .object, .closing .array, .closing .object] := by
    decide +kernel
  have hread : Json.read ⟨true, true⟩ .idle () message = ((), .value tree) := by
    refine (Json.read_iff rfl rfl).mpr ?_
    rw [htokens]
    have hspeed : (Json.Token.number "20.5".toList).scalar = .ok (.number (.real 20.5)) :=
      Json.scalar_number (by decide +kernel)
    exact ⟨.object (.member (by decide) (.scalar rfl) (.member (by decide) (.scalar rfl)
      (.member (by decide) (.scalar hspeed) (.member (by decide) (.array (.item
        (.object (.member (by decide) (.scalar rfl) .done)) .done)) .done)))), _, rfl⟩
  have hvalue : s.rules.size.value = .integer 0 := by
    rw [SizeRule.value, show Decimal.wholeNumber? s.rules.size.number = some 0 by decide +kernel]
    rfl
  have htree : once.tree = some out := by
    rw [(receive_retained hline hread ((retained_iff hline hread).mp hretained)).tree]
    show some (Json.object [("id", .string "X"), ("width", s.rules.size.value),
      ("speed", .real 20.5), ("partII", .array [.object []])]) = some out
    rw [hvalue]
  have hback : ∀ v, once.tree = some v → Every ReadsBack v := by
    intro v hv
    obtain rfl := Option.some.inj (htree.symm.trans hv)
    have hid : ReadsBack (.string "X") := by
      intro x heq
      cases heq
    have hwidth : ReadsBack (.number (.integer 0)) := by
      intro x heq
      cases heq
    have hspeed : ReadsBack (.number (.real 20.5)) := by
      intro x heq
      rw [← Number.real.inj (Scalar.number.inj heq)]
      decide +kernel
    exact .object (List.forall_mem_cons.mpr ⟨.scalar hid, List.forall_mem_cons.mpr
      ⟨.scalar hwidth, List.forall_mem_cons.mpr ⟨.scalar hspeed, List.forall_mem_singleton.mpr
        (.array (List.forall_mem_singleton.mpr (.object (List.forall_mem_nil _))))⟩⟩⟩)
  obtain ⟨hanswer, hverdict, hrecord, hsame, htext⟩ :=
    receive_again s message rfl hsize hretained hback
  exact ⟨hsize, hretained, hemit, hanswer, hverdict, hrecord, hsame, htext⟩

end Sanitizer

end VehiclePrivacy
