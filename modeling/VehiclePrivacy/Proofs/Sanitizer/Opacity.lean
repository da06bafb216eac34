import VehiclePrivacy.Proofs.Sanitizer.Retention
import VehiclePrivacy.Proofs.Screening.Opacity

/-!
# Opaque members decide nothing

Two messages that differ only in what their opaque members hold are treated alike
(`receive_of_veil`): the same is found in them, asked about them and put on record, and what is
given out for them differs only where they did. One thing can tell them apart, and that is not
opaque: part II cannot be redacted if it is a scalar.
-/

namespace VehiclePrivacy

namespace Sanitizer

variable {s r : Sanitizer} {message message' pseudonym : String} {tree tree' : Json}

/-- Nothing that is behind a veil is found. -/
theorem found_veil (s : Sanitizer) (tree : Json) : s.found tree.veil = s.found tree := by
  rw [found, sightings_veil, Screening.noticeAll_veil, found]

theorem edits_of_veil (h : tree.veil = tree'.veil) : s.edits tree = s.edits tree' := by
  have hveil : ∀ tree : Json, s.edits tree = s.edits tree.veil := by
    intro tree
    rw [edits, edits, sightings_veil, Rules.edits_veil]
  rw [hveil tree, hveil tree', h]

/-- Redaction keeps messages alike. -/
theorem redacted_of_veil (h : tree.veil = tree'.veil) :
    (s.redacted tree).veil = (s.redacted tree').veil := by
  have hblind : ∀ tree, (s.edits tree).Blind := fun _ => Rules.edits_blind
  calc (s.redacted tree).veil
    _ = (Json.rewrite (s.edits tree) [] tree.veil).veil :=
      (Json.veil_rewrite (hblind tree) rfl tree).symm
    _ = (Json.rewrite (s.edits tree') [] tree'.veil).veil := by rw [edits_of_veil h, h]
    _ = (s.redacted tree').veil := Json.veil_rewrite (hblind tree') rfl tree'

/-- A sanitizer shows the same about two messages, the messages themselves aside. -/
structure Reports (s r : Sanitizer) : Prop where
  verdict : s.verdict = r.verdict
  phase : s.phase = r.phase
  record : s.record = r.record
  asked : s.asked = r.asked

/-- Two messages in which the same is found are reported alike, if part II can be redacted in both or
in neither. -/
theorem reports_of_found (hline : hasLineBreak message = false)
    (hread : Json.read ⟨true, true⟩ .idle () message = ((), .value tree))
    (hline' : hasLineBreak message' = false)
    (hread' : Json.read ⟨true, true⟩ .idle () message' = ((), .value tree'))
    (hfound : s.found tree = s.found tree')
    (hscalar : s.active.has .partIIRedaction = true →
      hasScalarPartII (sightings [] tree) = hasScalarPartII (sightings [] tree')) :
    (s.receive message).2.Reports (s.receive message').2 := by
  rw [receive_readable s hline hread, receive_readable s hline' hread', hfound]
  cases hfinish : ((s.found tree').finish s.filters).verdict.retains with
  | false => exact ⟨rfl, rfl, rfl, rfl⟩
  | true =>
    rw [if_pos rfl, if_pos rfl]
    set taken := s.taking (s.found tree')
    -- both messages are redacted from the same record
    obtain ⟨ht, hrecord⟩ := screened_of_finish hread (hfound ▸ hfinish)
    obtain ⟨ht', hrecord'⟩ := screened_of_finish hread' hfinish
    have hrecord : taken.record = Record.of (sightings [] tree) :=
      (congrArg Screening.record hfound).symm.trans hrecord
    have hrecord' : taken.record = Record.of (sightings [] tree') := hrecord'
    have hverdict : taken.verdict = .success := rfl
    have hblocked : taken.blocked tree = taken.blocked tree' := by
      rw [blocked, blocked]
      cases ha : s.active.has .partIIRedaction with
      | false =>
        rw [show taken.active.has .partIIRedaction = false from ha]
        rfl
      | true => rw [hscalar ha]
    obtain ⟨hend, hphase, hasked⟩ := redact_standing ht hrecord hverdict
    obtain ⟨hend', hphase', hasked'⟩ := redact_standing ht' hrecord' hverdict
    refine ⟨?_, ?_, ?_, hasked.trans hasked'.symm⟩
    · rw [hend, hend', hblocked]
    · rw [hphase, hphase', hblocked]
    · rw [redact_record ht hrecord, redact_record ht' hrecord']

theorem receive_reports (hline : hasLineBreak message = false)
    (hread : Json.read ⟨true, true⟩ .idle () message = ((), .value tree))
    (hline' : hasLineBreak message' = false)
    (hread' : Json.read ⟨true, true⟩ .idle () message' = ((), .value tree'))
    (hveil : tree.veil = tree'.veil)
    (hscalar : s.active.has .partIIRedaction = true →
      hasScalarPartII (sightings [] tree) = hasScalarPartII (sightings [] tree')) :
    (s.receive message).2.Reports (s.receive message').2 := by
  have hfound : s.found tree = s.found tree' := by
    rw [← found_veil s tree, hveil, found_veil]
  exact reports_of_found hline hread hline' hread' hfound hscalar

/--
**What opaque members hold decides nothing.** Two messages may differ in whatever the members named
`metadata` or `partII` hold, as long as part II can be redacted in both or in neither. Then sanitizers
with the same settings answer them alike and report the same about them, and where they retain them,
the texts they give out differ only in what such members hold.
-/
theorem receive_of_veil (s r : Sanitizer) (hagrees : s.Agrees r)
    (hfixed : s.rules.id.pseudonym = .fixed pseudonym) (hline : hasLineBreak message = false)
    (hread : Json.read ⟨true, true⟩ .idle () message = ((), .value tree))
    (hline' : hasLineBreak message' = false)
    (hread' : Json.read ⟨true, true⟩ .idle () message' = ((), .value tree'))
    (hveil : tree.veil = tree'.veil)
    (hscalar : s.active.has .partIIRedaction = true →
      hasScalarPartII (sightings [] tree) = hasScalarPartII (sightings [] tree')) :
    let left := s.receive message
    let left' := r.receive message'
    left.1 = left'.1 ∧ left.2.Reports left'.2 ∧
      (left.2.verdict = .success →
        left.2.emit.1 = (s.redacted tree).render ∧ left'.2.emit.1 = (s.redacted tree').render ∧
          (s.redacted tree).veil = (s.redacted tree').veil) := by
  intro left left'
  have hreports := receive_reports (s := s) hline hread hline' hread' hveil hscalar
  have hleft' : left' =
      ((s.receive message').1, (s.receive message').2.drawing r.buffer r.entropy) :=
    receive_of_agrees hagrees hfixed message'
  refine ⟨?_, ?_, fun h => ?_⟩
  · rw [hleft', show left = _ from receive_readable s hline hread,
      receive_readable s hline' hread']
  · rw [hleft']
    exact ⟨hreports.verdict, hreports.phase, hreports.record, hreports.asked⟩
  · have hretains := (retained_iff hline hread).mp h
    have hretains' := (retained_iff hline' hread').mp (hreports.verdict ▸ h)
    refine ⟨(receive_retained hline hread hretains).emit, ?_, redacted_of_veil hveil⟩
    rw [hleft', emit_drawing]
    exact (receive_retained hline' hread' hretains').emit

/-- So it is for recognised names below opaque members, a speed too high and an ill-typed id. -/
theorem receive_of_veil_of_metadata :
    let s := { ofSettings {} (fun _ => true) (mkStdGen 7) with
      active := ⟨true, false, true, false, true⟩ }
    let message := "\x7b\"partII\":[],\"metadata\":1,\"speed\":5\x7d"
    let message' :=
      "\x7b\"partII\":\x7b\"id\":[]\x7d,\"metadata\":\x7b\"speed\":90\x7d,\"speed\":5\x7d"
    ∃ tree tree' : Json, Json.read ⟨true, true⟩ .idle () message = ((), .value tree) ∧
      Json.read ⟨true, true⟩ .idle () message' = ((), .value tree') ∧ tree.veil = tree'.veil ∧
      (s.receive message).2.verdict = .success ∧
      (s.receive message).2.Reports (s.receive message').2 := by
  have hread : Json.read ⟨true, true⟩ .idle ()
      "\x7b\"partII\":[],\"metadata\":1,\"speed\":5\x7d" = ((), .value (.object
        [("partII", .array []), ("metadata", .integer 1), ("speed", .integer 5)])) := rfl
  have hread' : Json.read ⟨true, true⟩ .idle ()
      "\x7b\"partII\":\x7b\"id\":[]\x7d,\"metadata\":\x7b\"speed\":90\x7d,\"speed\":5\x7d" =
        ((), .value (.object [("partII", .object [("id", .array [])]),
          ("metadata", .object [("speed", .integer 90)]), ("speed", .integer 5)])) := rfl
  exact ⟨_, _, hread, hread', rfl, by decide +kernel, (receive_of_veil _ _ ⟨rfl, rfl, rfl, rfl⟩ rfl
    rfl hread rfl hread' rfl fun _ => rfl).2.1⟩

end Sanitizer

end VehiclePrivacy
