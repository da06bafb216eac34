import VehiclePrivacy.Proofs.Sanitizer.Receipt
import VehiclePrivacy.Proofs.Screening.Interruption

/-!
# Messages that cannot be read

A message may be unreadable and may give a reason to be rejected, and what comes first in it decides.
`receive_reason` says what becomes of a message that gives a reason before its reading breaks off,
`receive_broken` of one that does not and breaks off, and `receive_document` of one that is read to
its end. From these three follows when a message counts as unreadable (`receive_unreadable_iff`).
-/

namespace VehiclePrivacy

namespace Sanitizer

open Json.Grammar

variable {s : Sanitizer} {message : String} {reason : Verdict} {tree : Json}

/-- Whether a reading that nobody stops comes to an end is a matter of the tokens. -/
theorem outcome_scribed (message : String) :
    (∃ tree, Document (Json.tokens message) tree ∧
        (Json.scribed Screening.demands message).phase.outcome = .value tree) ∨
      (¬ ∃ tree, Document (Json.tokens message) tree) ∧
        ∃ f, (Json.scribed Screening.demands message).phase.outcome = .fault f := by
  have hdone : ∀ tree, (Json.scribed Screening.demands message).phase = .done tree ↔
      Document (Json.tokens message) tree := fun tree => Json.done_iff rfl rfl
  have hgoes : (Json.scribed Screening.demands message).phase ≠ .stopped :=
    Json.Reader.scribe_goes_on (show Json.Phase.value ≠ .stopped from nofun) _
  cases hphase : (Json.scribed Screening.demands message).phase with
  | done tree => exact .inl ⟨tree, (hdone tree).mp hphase, rfl⟩
  | stopped => exact absurd hphase hgoes
  | _ =>
    refine .inr ⟨?_, _, rfl⟩
    intro h
    obtain ⟨tree, htree⟩ := h
    have := (hdone tree).mpr htree
    rw [hphase] at this
    cases this

/-- A message with a reason to reject it is rejected for that reason. -/
theorem receive_reason (hline : hasLineBreak message = false)
    (h : (Review.walk s.filters {} (Screening.met message)).2 = some reason) :
    (s.receive message).1 = true ∧ (s.receive message).2.verdict = reason := by
  obtain ⟨found, hread, hagree⟩ := Screening.read_met s.filters message
  have hverdict : found.verdict = reason := by rw [hagree.verdict, h]; rfl
  rw [receive_eq s hline, hread, h]
  exact ⟨rfl, hverdict⟩

/-- A message without such a reason that breaks off is unreadable. -/
theorem receive_broken (hline : hasLineBreak message = false)
    (h : (Review.walk s.filters {} (Screening.met message)).2 = none)
    (hbroken : ¬ ∃ tree, Document (Json.tokens message) tree) :
    (s.receive message).1 = false ∧ (s.receive message).2.verdict = .parse := by
  obtain ⟨found, hread, -⟩ := Screening.read_met s.filters message
  rcases outcome_scribed message with ⟨tree, htree, -⟩ | ⟨-, f, hf⟩
  · exact absurd ⟨tree, htree⟩ hbroken
  · rw [receive_eq s hline, hread, h, hf]
    exact ⟨rfl, rfl⟩

/-- A document without such a reason is judged at its end. -/
theorem receive_document (hline : hasLineBreak message = false)
    (h : (Review.walk s.filters {} (Screening.met message)).2 = none)
    (htree : Document (Json.tokens message) tree) :
    (s.receive message).1 = true ∧
      (s.receive message).2.verdict =
        (Review.walk s.filters {} (Screening.met message)).1.conclude s.filters
          (sightings [] tree) := by
  obtain ⟨found, hread, hagree⟩ := Screening.read_met s.filters message
  have hdone := (Json.done_iff (d := Screening.demands) rfl rfl).mpr htree
  have hread' : Screening.read s.filters message = (found, .value tree) := by
    rw [hread, h, hdone]
    rfl
  obtain ⟨hrecord, ht⟩ := Screening.record_of_read hread'
  have hverdict : found.verdict = .success := by rw [hagree.verdict, h]; rfl
  obtain ⟨haccepted, hconclude, -⟩ := s.conclude_decides ht hrecord hagree.found hverdict
  rw [receive_eq s hline, hread']
  exact ⟨haccepted, hconclude⟩

theorem hasLineBreak_iff : hasLineBreak message = true ↔
    '\n' ∈ message.toList ∨ '\r' ∈ message.toList := by
  simp only [hasLineBreak, List.any_eq_true, Bool.or_eq_true, decide_eq_true_eq]
  refine ⟨fun h => ?_, fun h => ?_⟩
  · obtain ⟨c, hc, rfl | rfl⟩ := h
    · exact .inl hc
    · exact .inr hc
  · rcases h with h | h
    · exact ⟨_, h, .inl rfl⟩
    · exact ⟨_, h, .inr rfl⟩

/-- A message with a line break is unreadable, whatever is in it. -/
theorem receive_lineBreak (s : Sanitizer) (hline : hasLineBreak message = true) :
    s.receive message = (false, s.reset.giveUp) := by
  rw [receive, hline]
  rfl

/--
**Unreadable is what breaks off before there is a reason to reject it.** A message is refused as
unreadable exactly if it has a line break, or if it is no document and what is met before it breaks
off gives no reason to reject it. All other messages are accepted as read and have another verdict.
That a field is missing, or that part II is no block, is said of complete documents alone.

Of a document, all recognised members are met. Another text has a first token that rules a document
out, and met is what all documents with the same tokens before it have in common.
-/
theorem receive_unreadable_iff (s : Sanitizer) (message : String) :
    let broken := '\n' ∈ message.toList ∨ '\r' ∈ message.toList
    let readable := ∃ tree, Document (Json.tokens message) tree
    let met := Screening.met message
    let reason := (Review.walk s.filters {} met).2
    let verdict := (s.receive message).2.verdict
    ((s.receive message).1 = false ∧ verdict = .parse ↔ broken ∨ ¬ readable ∧ reason = none) ∧
      ((s.receive message).1 = true ∧ verdict ≠ .parse ↔
        ¬ (broken ∨ ¬ readable ∧ reason = none)) ∧
      (verdict = .missing → ¬ broken ∧ readable ∧ reason = none) ∧
      (verdict = .other → ¬ broken ∧ (reason = some .other ∨
        ∃ tree, Document (Json.tokens message) tree ∧ reason = none ∧
          s.active.has .partIIRedaction = true ∧ hasScalarPartII (sightings [] tree) = true)) ∧
      (∀ tree, Document (Json.tokens message) tree →
        met = (sightings [] tree).map Sighting.begun) ∧
      ∃ before rest, Breaks (Json.tokens message) before rest ∧
        ∀ xs, xs <+: met ↔ ∀ more tree, Document (before ++ more) tree →
          xs <+: (sightings [] tree).map Sighting.begun := by
  intro broken readable met reason verdict
  have hdocument : ∀ tree, Document (Json.tokens message) tree →
      met = (sightings [] tree).map Sighting.begun := fun tree h => Screening.met_of_document h
  have hbreaks : ∃ before rest, Breaks (Json.tokens message) before rest ∧
      ∀ xs, xs <+: met ↔ ∀ more tree, Document (before ++ more) tree →
        xs <+: (sightings [] tree).map Sighting.begun := by
    obtain ⟨before, rest, h⟩ := exists_breaks (Json.tokens message)
    exact ⟨before, rest, h, fun _ => Screening.met_of_breaks h⟩
  -- a line break decides at once, then a reason, and then whether the message breaks off
  cases hline : hasLineBreak message with
  | true =>
    have hbroken : broken := hasLineBreak_iff.mp hline
    have hrefused := s.receive_lineBreak hline
    have hverdict : verdict = .parse := congrArg (·.2.verdict) hrefused
    have hanswer : (s.receive message).1 = false := congrArg Prod.fst hrefused
    refine ⟨?_, ?_, ?_, ?_, hdocument, hbreaks⟩ <;> simp [hbroken, hverdict, hanswer]
  | false =>
    have hbroken : ¬ broken := by
      rw [← hasLineBreak_iff.not, hline]
      exact Bool.false_ne_true
    cases hreason : reason with
    | some v =>
      obtain ⟨hanswer, hverdict⟩ := receive_reason hline hreason
      have hverdict : verdict = v := hverdict
      have hv : v = .speed ∨ v = .geoposition ∨ v = .other := by
        simpa [Review.reasons] using Review.reason_of_walk hreason
      refine ⟨?_, ?_, ?_, ?_, hdocument, hbreaks⟩ <;>
        rcases hv with rfl | rfl | rfl <;> simp [hbroken, hverdict, hanswer]
    | none =>
      by_cases hreadable : readable
      · have ⟨tree, htree⟩ := hreadable
        obtain ⟨hanswer, hverdict⟩ := receive_document hline hreason htree
        have hcases := (Review.walk s.filters {} met).1.conclude_cases s.filters (sightings [] tree)
        rw [← hverdict] at hcases
        rcases hcases with h | h | ⟨h, hactive, hscalar⟩
        · have hverdict : verdict = .success := h
          refine ⟨?_, ?_, ?_, ?_, hdocument, hbreaks⟩ <;>
            simp [hbroken, hreadable, hanswer, hverdict]
        · have hverdict : verdict = .missing := h
          refine ⟨?_, ?_, ?_, ?_, hdocument, hbreaks⟩ <;>
            simp [hbroken, hreadable, hanswer, hverdict]
        · have hverdict : verdict = .other := h
          refine ⟨?_, ?_, ?_, fun _ => ?_, hdocument, hbreaks⟩
          · simp [hbroken, hreadable, hanswer, hverdict]
          · simp [hbroken, hreadable, hanswer, hverdict]
          · simp [hverdict]
          · exact ⟨hbroken, .inr ⟨tree, htree, rfl, hactive, hscalar⟩⟩
      · obtain ⟨hanswer, hverdict⟩ := receive_broken hline hreason hreadable
        have hverdict : verdict = .parse := hverdict
        refine ⟨?_, ?_, ?_, ?_, hdocument, hbreaks⟩ <;>
          simp [hbroken, hanswer, hverdict, hreadable]

/-- A whole message, one that ends too early, one that is rejected for its speed before it does, and
a whole one with a line break. -/
example :
    let s := ofSettings {} (fun _ => true) (mkStdGen 7)
    let answer (message : String) := ((s.receive message).1, (s.receive message).2.verdict)
    answer "\x7b\"id\":1\x7d" = (true, .missing) ∧ answer "\x7b\"id\":1" = (false, .parse) ∧
      answer "\x7b\"speed\":50," = (true, .speed) ∧ answer "\x7b\"id\":1\x7d\n" = (false, .parse) := by
  decide +kernel

/-- The first of them is a document, and the second is none. -/
example : Document (Json.tokens "\x7b\"id\":1\x7d") (.object [("id", .integer 1)]) ∧
    ¬ ∃ tree, Document (Json.tokens "\x7b\"id\":1") tree := by
  have hdone : ∀ message tree, (Json.scribed Screening.demands message).phase = .done tree ↔
      Document (Json.tokens message) tree := fun _ _ => Json.done_iff rfl rfl
  constructor
  · exact (hdone _ _).mp rfl
  · rintro ⟨tree, h⟩
    cases (hdone _ _).mpr h

end Sanitizer

end VehiclePrivacy
