import VehiclePrivacy.Proofs.Json.Rereading
import VehiclePrivacy.Proofs.Sanitizer.Retention

/-!
# What is given out is read again

Where nothing is redacted, a message that is retained is given out as the tree that it was read as.
What is given out can be read in its turn, and gives the same tree but for floats, of which those
with many digits may drift (`receive_reread`). They do: there is a latitude with seventeen digits
that comes back as another one (`latitude_drifts`).
-/

namespace VehiclePrivacy

open Json (Every Short Drifted rereadTree)

/-- Rules of which none is active edit nothing. -/
theorem Rules.edits_inactive {rules : Rules} {a : Activation}
    (h : ∀ c ∈ Sanitizer.redactions, a.has c = false) (pseudonym : String) (xs : List Sighting) :
    rules.edits a pseudonym xs = .nothing := by
  have hid : a.idRedaction = false := h .idRedaction (by decide)
  have hsize : a.sizeRedaction = false := h .sizeRedaction (by decide)
  have hpartII : a.partIIRedaction = false := h .partIIRedaction (by decide)
  have hfield : ∀ field, rules.editsOf a pseudonym xs field = .nothing := fun field =>
    Rules.editsOf_inactive fun x _ => by
      rw [Rules.edit?, hid, hsize, hpartII]
      cases x.field <;> rfl
  rw [Rules.edits, Rules.scalarEdits, hfield, hfield, hfield, hfield]
  rfl

/-- A document that was read can be printed and read again. -/
theorem Json.read_render {message : String} {tree : Json}
    (h : Json.read ⟨true, true⟩ .idle () message = ((), .value tree)) :
    Every Json.Legible tree ∧
      Json.read ⟨true, true⟩ .idle () tree.render = ((), .value (rereadTree tree)) := by
  obtain ⟨hlegible, hagain⟩ := Json.document_reread ((Json.read_iff rfl rfl).mp h)
  exact ⟨hlegible, (Json.read_iff rfl rfl).mpr hagain⟩

namespace Sanitizer

variable {s : Sanitizer} {message : String} {tree : Json}

theorem redacted_inactive (h : ∀ c ∈ redactions, s.active.has c = false) (tree : Json) :
    s.redacted tree = tree := by
  rw [redacted, edits, Rules.edits_inactive h, Json.rewrite_nothing]

/--
**What is given out is read again.** A message that is retained while nothing is redacted is given
out as a text that is read like the message itself, with the same members in the same order, the
same strings and the same integers. Floats may drift, but not far, and those that are short do not.
-/
theorem receive_reread (s : Sanitizer) (message : String)
    (hinactive : ∀ c ∈ redactions, s.active.has c = false)
    (h : (s.receive message).2.verdict = .success) :
    ∃ tree : Json, Json.read ⟨true, true⟩ .idle () message = ((), .value tree) ∧
      Json.read ⟨true, true⟩ .idle () (s.receive message).2.emit.1 =
        ((), .value (rereadTree tree)) ∧
      Drifted tree (rereadTree tree) ∧ (Every Short tree → rereadTree tree = tree) := by
  obtain ⟨hline, tree, hread⟩ := readable_of_retained h
  have hkept := receive_retained hline hread ((retained_iff hline hread).mp h)
  obtain ⟨hlegible, hagain⟩ := Json.read_render hread
  refine ⟨tree, hread, ?_, Json.drifted_tree tree hlegible, Json.rereadTree_short tree⟩
  rw [hkept.emit, redacted_inactive hinactive]
  exact hagain

/-- So it is for a message with a short float and an escape, which are given out in another
spelling. -/
theorem receive_reread_of_speed :
    let s := { ofSettings {} (fun _ => true) (mkStdGen 7) with active := .none }
    let message := "\x7b\"speed\":2050e-2,\"note\":[\"\\u0041\",-7]\x7d"
    let tree : Json :=
      .object [("speed", .real 20.5), ("note", .array [.string "A", .integer (-7)])]
    (∀ c ∈ redactions, s.active.has c = false) ∧ (s.receive message).2.verdict = .success ∧
      Json.read ⟨true, true⟩ .idle () message = ((), .value tree) ∧ Every Short tree ∧
      Json.read ⟨true, true⟩ .idle () (s.receive message).2.emit.1 = ((), .value tree) := by
  intro s message tree
  have hinactive : ∀ c ∈ redactions, s.active.has c = false := by decide
  have hretained : (s.receive message).2.verdict = .success := by decide +kernel
  have htokens : Json.tokens message = [.opening .object, .text (some "speed"), .colon,
      .number "2050e-2".toList, .comma, .text (some "note"), .colon, .opening .array,
      .text (some "A"), .comma, .number "-7".toList, .closing .array, .closing .object] := by
    decide +kernel
  have hread : Json.read ⟨true, true⟩ .idle () message = ((), .value tree) := by
    refine (Json.read_iff rfl rfl).mpr ?_
    rw [htokens]
    refine ⟨.object (.member List.not_mem_nil (.scalar ?_) (.member ?_ (.array ?_) .done)), _, rfl⟩
    · exact Json.scalar_number (by decide +kernel)
    · decide
    · exact .item (.scalar rfl) (.item (.scalar rfl) .done)
  have hshort : Every Short tree := by
    refine .object (List.forall_mem_cons.mpr ⟨.scalar ?_, List.forall_mem_singleton.mpr
      (.array (List.forall_mem_cons.mpr ⟨.scalar nofun, List.forall_mem_singleton.mpr
        (.scalar nofun)⟩))⟩)
    rintro x heq
    rw [← Number.real.inj (Scalar.number.inj heq)]
    decide +kernel
  obtain ⟨tree', hread', hagain, -, hsame⟩ := receive_reread s message hinactive hretained
  obtain rfl : tree = tree' := Json.Outcome.value.inj (Prod.mk.inj (hread.symm.trans hread')).2
  exact ⟨hinactive, hretained, hread, hshort, hagain.trans (by rw [hsame hshort])⟩

/-- The reader's answer to a message with nothing but a latitude. -/
theorem read_latitude {text : String} {x : Float} (lexeme : List Char)
    (htokens : Json.tokens text =
      [.opening .object, .text (some "lat"), .colon, .number lexeme, .closing .object])
    (hx : Json.numberValue? lexeme = some (.real x)) :
    Json.read ⟨true, true⟩ .idle () text = ((), .value (.object [("lat", .real x)])) := by
  refine (Json.read_iff rfl rfl).mpr ?_
  rw [htokens]
  exact ⟨.object (.member List.not_mem_nil (.scalar (Json.scalar_number hx)) .done), _, rfl⟩

/-- Floats that are not short do drift: what was given out for this latitude is read as a greater
one. -/
theorem latitude_drifts :
    let s := { ofSettings {} (fun _ => true) (mkStdGen 7) with active := .none }
    let message := "\x7b\"lat\":22.159714398754283\x7d"
    (∀ c ∈ redactions, s.active.has c = false) ∧ (s.receive message).2.verdict = .success ∧
      Json.read ⟨true, true⟩ .idle () message =
        ((), .value (.object [("lat", .real 22.159714398754286)])) ∧
      Json.read ⟨true, true⟩ .idle () (s.receive message).2.emit.1 =
        ((), .value (.object [("lat", .real 22.15971439875429)])) ∧
      (22.159714398754286 : Float) < 22.15971439875429 := by
  intro s message
  have hemit : (s.receive message).2.emit.1 = "\x7b\"lat\":22.159714398754286\x7d" := by
    decide +kernel
  rw [hemit]
  refine ⟨by decide, by decide +kernel, ?_, ?_, by decide +kernel⟩
  · exact read_latitude "22.159714398754283".toList (by decide +kernel) (by decide +kernel)
  · exact read_latitude "22.159714398754286".toList (by decide +kernel) (by decide +kernel)

end Sanitizer

end VehiclePrivacy
