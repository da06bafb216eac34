import VehiclePrivacy.Proofs.Binary64.Value
import VehiclePrivacy.Proofs.Redaction.Records
import VehiclePrivacy.Proofs.Sanitizer.Forgetting
import VehiclePrivacy.Proofs.Screening.Retention

/-!
# Which messages are retained

A message is read, screened, held against what the filters ask for, and redacted, and any of these
can hold it back. For a message that can be read, `retained_iff` says at once what it takes to come
through: `Retains` speaks of the recognised members alone, and of no order in which they were met.

What a retained message leaves is as plain (`receive_retained`): the revised record, and the tree
with the edits of the rules. So of filters it can be said that letting through more messages changes
nothing about those that came through before (`receive_loosened`).
-/

namespace VehiclePrivacy

/-- What it takes for a message to be retained. -/
structure Retains (f : Filters) (tree : Json) : Prop where
  fits : Fitting (sightings [] tree)
  satisfied : (Record.of (sightings [] tree)).Satisfies f
  block : f.active.has .partIIRedaction = true → hasScalarPartII (sightings [] tree) = false

namespace Sanitizer

variable {s r : Sanitizer} {message : String} {tree : Json}

/-! ## Messages that can be read -/

/-- What a screening finds in a message. -/
def found (s : Sanitizer) (tree : Json) : Screening :=
  ({} : Screening).noticeAll s.filters (sightings [] tree)

/-- A message that can be read is screened and redacted, or held back with what was found by then.
-/
theorem receive_readable (s : Sanitizer) (hline : hasLineBreak message = false)
    (hread : Json.read ⟨true, true⟩ .idle () message = ((), .value tree)) :
    s.receive message = (true,
      if ((s.found tree).finish s.filters).verdict.retains then
        (s.taking (s.found tree)).redact tree
      else (s.taking (s.found tree)).reject ((s.found tree).finish s.filters).verdict) := by
  have hscreen := Json.read_eq_heed (l := Screening.listener s.filters) (s := {}) rfl rfl hread
  rw [Screening.heed_listener s.filters rfl] at hscreen
  have hread' : Screening.read s.filters message = _ := hscreen
  rw [receive_eq s hline, hread', found]
  generalize ({} : Screening).noticeAll s.filters (sightings [] tree) = found
  have hstop : (Screening.listener s.filters).stop found = !found.verdict.retains := rfl
  rw [hstop]
  cases hretains : found.verdict.retains with
  | true => exact conclude_value s found tree
  | false =>
    -- the reading was stopped, and a rejection is not looked at again at the end
    have hfinish : found.finish s.filters = found := by
      rw [Screening.finish, hretains]
      rfl
    rw [hfinish, hretains]
    rfl

theorem distinct_of_readable (hread : Json.read ⟨true, true⟩ .idle () message = ((), .value tree)) :
    tree.Distinct :=
  Json.distinct_of_read (l := .idle) rfl rfl hread

/-- A message is found to be without fault if its settled fields fit and the filters are cleared. -/
theorem found_retains : (s.found tree).verdict.retains = true ↔
    Fitting (sightings [] tree) ∧ (Record.of (sightings [] tree)).Clears s.filters :=
  Screening.retains_noticeAll s.filters (sightings [] tree)

theorem found_record (h : (s.found tree).verdict.retains = true) :
    (s.found tree).record = Record.of (sightings [] tree) :=
  (Screening.knows_start.noticeAll h).record

theorem finish_retains : ((s.found tree).finish s.filters).verdict.retains = true ↔
    Fitting (sightings [] tree) ∧ (Record.of (sightings [] tree)).Satisfies s.filters := by
  cases h : (s.found tree).verdict.retains with
  | false =>
    have hfinish : (s.found tree).finish s.filters = s.found tree := by
      rw [Screening.finish, h]
      rfl
    rw [hfinish, h, Record.satisfies_iff]
    refine ⟨fun hs => absurd hs Bool.false_ne_true, fun hs => ?_⟩
    rw [found_retains.mpr ⟨hs.1, hs.2.1⟩] at h
    cases h
  | true =>
    obtain ⟨hfitting, hclears⟩ := found_retains.mp h
    rw [Screening.retains_finish (of_decide_eq_true h), found_record h, Record.satisfies_iff]
    exact ⟨fun hs => ⟨hfitting, hclears, hs⟩, fun hs => hs.2.2⟩

/-- A message that was found without fault to its end is screened, and what was found is what the
settled fields say. -/
theorem screened_of_finish
    (hread : Json.read ⟨true, true⟩ .idle () message = ((), .value tree))
    (h : ((s.found tree).finish s.filters).verdict.retains = true) :
    Screened tree ∧ (s.found tree).record = Record.of (sightings [] tree) := by
  obtain ⟨hfitting, hsatisfied⟩ := finish_retains.mp h
  have hclears := (Record.satisfies_iff.mp hsatisfied).1
  exact ⟨⟨distinct_of_readable hread, hfitting⟩,
    found_record (found_retains.mpr ⟨hfitting, hclears⟩)⟩

/-! ## Redaction -/

theorem redact_record (ht : Screened tree) (hrecord : s.record = Record.of (sightings [] tree)) :
    (s.redact tree).record =
      s.rules.revise s.active (s.rules.id.pseudonym.draw s.entropy).1 s.record := by
  have h := Rules.record_redact (r := s.rules) (a := s.active) ht s.entropy
  rw [← hrecord] at h
  unfold redact
  dsimp only
  split <;> exact h

theorem redact_tree (ht : Screened tree) (hrecord : s.record = Record.of (sightings [] tree))
    (h : s.blocked tree = false) : (s.redact tree).tree = some (s.redacted tree) := by
  obtain ⟨d, hd, heq⟩ := redact_retained ht hrecord h
  rw [heq]
  exact congrArg some hd.edited

theorem redact_output (s : Sanitizer) (tree : Json) : (s.redact tree).output = s.output := by
  unfold redact
  dsimp only
  split <;> rfl

/-- Where a sanitizer stands after a redaction. -/
theorem redact_standing (ht : Screened tree) (hrecord : s.record = Record.of (sightings [] tree))
    (hs : s.verdict = .success) :
    (s.redact tree).verdict = (if s.blocked tree then .other else .success) ∧
      (s.redact tree).phase = (if s.blocked tree then .rejected .other else .redacted) ∧
      (s.redact tree).asked = s.asked := by
  cases h : s.blocked tree with
  | false =>
    obtain ⟨d, -, heq⟩ := redact_retained ht hrecord h
    rw [heq]
    exact ⟨hs, rfl, rfl⟩
  | true =>
    obtain ⟨d, -, heq⟩ := redact_rejected ht hrecord h
    rw [heq, reject]
    dsimp only
    rw [hs]
    exact ⟨rfl, rfl, rfl⟩

/-- Redaction comes through unless it must fail. -/
theorem redact_verdict (ht : Screened tree) (hrecord : s.record = Record.of (sightings [] tree))
    (hs : s.verdict = .success) : (s.redact tree).verdict = .success ↔ s.blocked tree = false := by
  rw [(redact_standing ht hrecord hs).1]
  cases s.blocked tree <;> simp

/-! ## Retained messages -/

/-- What is left of a message that is retained. -/
structure Kept (s : Sanitizer) (tree : Json) (left : Bool × Sanitizer) : Prop where
  answer : left.1 = true
  verdict : left.2.verdict = .success
  record : left.2.record =
    s.rules.revise s.active (s.rules.id.pseudonym.draw s.entropy).1 (Record.of (sightings [] tree))
  tree : left.2.tree = some (s.redacted tree)
  output : left.2.output = none

theorem Kept.emit {left : Bool × Sanitizer} (h : s.Kept tree left) :
    left.2.emit.1 = (s.redacted tree).render :=
  emit_retained h.verdict h.tree h.output

/-- A message that has what it takes is retained. -/
theorem receive_retained (hline : hasLineBreak message = false)
    (hread : Json.read ⟨true, true⟩ .idle () message = ((), .value tree))
    (h : Retains s.filters tree) : s.Kept tree (s.receive message) := by
  have hfinish := finish_retains.mpr ⟨h.fits, h.satisfied⟩
  obtain ⟨ht, hfound⟩ := screened_of_finish hread hfinish
  have hrecord : (s.taking (s.found tree)).record = Record.of (sightings [] tree) := hfound
  have hblocked : (s.taking (s.found tree)).blocked tree = false := by
    show (s.active.has .partIIRedaction && hasScalarPartII (sightings [] tree)) = false
    cases ha : s.active.has .partIIRedaction with
    | false => rfl
    | true => exact h.block ha
  rw [receive_readable s hline hread, hfinish, if_pos rfl]
  refine ⟨rfl, (redact_verdict ht hrecord rfl).mpr hblocked, ?_, redact_tree ht hrecord hblocked,
    redact_output _ tree⟩
  rw [redact_record ht hrecord, hrecord]
  rfl

/-- **What it takes to be retained.** A message that can be read is retained exactly if its settled
fields have values that fit, these satisfy the active filters, and part II can be redacted. -/
theorem retained_iff (hline : hasLineBreak message = false)
    (hread : Json.read ⟨true, true⟩ .idle () message = ((), .value tree)) :
    (s.receive message).2.verdict = .success ↔ Retains s.filters tree := by
  refine ⟨fun h => ?_, fun h => (receive_retained hline hread h).verdict⟩
  rw [receive_readable s hline hread] at h
  cases hfinish : ((s.found tree).finish s.filters).verdict.retains with
  | false =>
    rw [hfinish, if_neg Bool.false_ne_true] at h
    rw [show ((s.found tree).finish s.filters).verdict = .success from h] at hfinish
    cases hfinish
  | true =>
    rw [hfinish, if_pos rfl] at h
    obtain ⟨hfitting, hsatisfied⟩ := finish_retains.mp hfinish
    obtain ⟨ht, hfound⟩ := screened_of_finish hread hfinish
    have hrecord : (s.taking (s.found tree)).record = Record.of (sightings [] tree) := hfound
    have hblocked := (redact_verdict ht hrecord rfl).mp h
    refine ⟨hfitting, hsatisfied, fun ha => ?_⟩
    rw [blocked, show (s.taking (s.found tree)).active.has .partIIRedaction = true from ha,
      Bool.true_and] at hblocked
    exact hblocked

/-- What is retained has no line break and can be read. -/
theorem readable_of_retained (h : (s.receive message).2.verdict = .success) :
    hasLineBreak message = false ∧
      ∃ tree, Json.read ⟨true, true⟩ .idle () message = ((), .value tree) := by
  cases hline : hasLineBreak message with
  | true =>
    rw [receive, hline] at h
    cases h
  | false =>
    refine ⟨rfl, ?_⟩
    rw [receive_eq s hline] at h
    cases hread : Screening.read s.filters message with
    | mk found outcome =>
    rw [hread] at h
    cases outcome with
    | fault _ => cases h
    | stopped =>
      have hstop : (!found.verdict.retains) = true := Json.stop_of_read hread
      rw [show found.verdict = .success from h] at hstop
      cases hstop
    | value tree =>
      exact ⟨tree, Json.idle_of_read (l := Screening.listener s.filters) rfl hread⟩

/-! ## Filters that let more through -/

/-- The redactions among the capabilities. -/
def redactions : List Capability := [.idRedaction, .sizeRedaction, .partIIRedaction]

/-- One sanitizer redacts as another does, and its filters let through what those of the other do.
-/
structure Loosens (r s : Sanitizer) : Prop where
  rules : r.rules = s.rules
  redactions : ∀ c ∈ redactions, r.active.has c = s.active.has c
  filters : ∀ c ∉ Sanitizer.redactions, r.active.has c = true → s.active.has c = true
  speeds : ∀ v, s.speeds.accepts v = true → r.speeds.accepts v = true
  within : ∀ p, s.within p = true → r.within p = true

/-- A range that includes another one accepts what that one does. -/
theorem accepts_of_wider {a b : SpeedRange} (hmin : b.min ≤ a.min) (hmax : a.max ≤ b.max)
    (v : Float) (h : a.accepts v = true) : b.accepts v = true := by
  simp only [SpeedRange.accepts, Bool.and_eq_true, decide_eq_true_eq] at h ⊢
  exact ⟨Binary64.doubles_le_trans hmin h.1, Binary64.doubles_le_trans h.2 hmax⟩

theorem Loosens.retains (h : r.Loosens s) (hs : Retains s.filters tree) :
    Retains r.filters tree := by
  refine ⟨hs.fits, ⟨fun ha => ?_, fun ha => ?_⟩, fun ha => ?_⟩
  · obtain ⟨v, hv, haccepts⟩ := hs.satisfied.speed (h.filters .speedFilter (by decide) ha)
    exact ⟨v, hv, h.speeds v haccepts⟩
  · obtain ⟨p, hp, hwithin⟩ := hs.satisfied.position (h.filters .positionFilter (by decide) ha)
    exact ⟨p, hp, h.within p hwithin⟩
  · exact hs.block ((h.redactions .partIIRedaction (by decide)).symm.trans ha)

/-- Rules look at the redactions among the active capabilities, and at no filter. -/
theorem edits_congr {rules : Rules} {a b : Activation} (h : ∀ c ∈ redactions, a.has c = b.has c)
    (pseudonym : String) (xs : List Sighting) :
    rules.edits a pseudonym xs = rules.edits b pseudonym xs := by
  have hid : a.idRedaction = b.idRedaction := h .idRedaction (by decide)
  have hsize : a.sizeRedaction = b.sizeRedaction := h .sizeRedaction (by decide)
  have hpartII : a.partIIRedaction = b.partIIRedaction := h .partIIRedaction (by decide)
  have hedit : rules.edit? a pseudonym = rules.edit? b pseudonym := by
    funext x
    rw [Rules.edit?, Rules.edit?, hid, hsize, hpartII]
  simp only [Rules.edits, Rules.scalarEdits, Rules.editsOf, hedit]

theorem revise_congr {rules : Rules} {a b : Activation} (h : ∀ c ∈ redactions, a.has c = b.has c)
    (pseudonym : String) (record : Record) :
    rules.revise a pseudonym record = rules.revise b pseudonym record := by
  have hid : a.idRedaction = b.idRedaction := h .idRedaction (by decide)
  have hsize : a.sizeRedaction = b.sizeRedaction := h .sizeRedaction (by decide)
  rw [Rules.revise, Rules.revise, hid, hsize]

theorem draw_fixed {p : Pseudonym} {text : String} (h : p = .fixed text) (g : StdGen) :
    (p.draw g).1 = text := by
  rw [h]
  rfl

/--
**Looser filters change nothing about what is retained.** If one sanitizer redacts as another does,
by a fixed pseudonym, and lets through what that lets through, then it retains each message that the
other one retains, with the same record, and gives out the same text.
-/
theorem receive_loosened {pseudonym : String} (s r : Sanitizer) (message : String)
    (hfixed : s.rules.id.pseudonym = .fixed pseudonym) (hloosens : r.Loosens s)
    (h : (s.receive message).2.verdict = .success) :
    (r.receive message).2.verdict = .success ∧
      (r.receive message).2.record = (s.receive message).2.record ∧
      (r.receive message).2.emit.1 = (s.receive message).2.emit.1 := by
  obtain ⟨hline, tree, hread⟩ := readable_of_retained h
  have hretains := (retained_iff hline hread).mp h
  have hs := receive_retained hline hread hretains
  have hr := receive_retained (s := r) hline hread (hloosens.retains hretains)
  have hfixed' : r.rules.id.pseudonym = .fixed pseudonym := hloosens.rules ▸ hfixed
  refine ⟨hr.verdict, ?_, ?_⟩
  · rw [hr.record, hs.record, draw_fixed hfixed, draw_fixed hfixed', hloosens.rules,
      revise_congr hloosens.redactions]
  · rw [hr.emit, hs.emit, redacted, redacted, edits, edits, draw_fixed hfixed, draw_fixed hfixed',
      hloosens.rules, edits_congr hloosens.redactions]

/-- So it is when the geofence is turned off, and the range of speeds is made wider. -/
theorem receive_loosened_of_wider_range :
    let s := ofSettings {} (fun p => 30 ≤ p.lat) (mkStdGen 7)
    let r := { s with
      active := s.active.erase .positionFilter, speeds := ⟨0, 50⟩, within := fun _ => true }
    let message := "\x7b\"id\":\"A1\",\"speed\":20,\"lat\":35.5,\"lon\":-83.9\x7d"
    s.rules.id.pseudonym = .fixed "FFFFFFFF" ∧ r.Loosens s ∧
      (s.receive message).2.verdict = .success ∧ (r.receive message).2.verdict = .success ∧
        (r.receive message).2.emit.1 = (s.receive message).2.emit.1 := by
  intro s r message
  have hloosens : r.Loosens s := by
    refine ⟨rfl, by decide, fun c _ => by cases c <;> decide, ?_, fun _ _ => rfl⟩
    exact accepts_of_wider (a := s.speeds) (b := ⟨0, 50⟩) (by decide +kernel) (by decide +kernel)
  have h : (s.receive message).2.verdict = .success := by decide +kernel
  obtain ⟨hretained, -, hemit⟩ := receive_loosened s r message rfl hloosens h
  exact ⟨rfl, hloosens, h, hretained, hemit⟩

end Sanitizer

end VehiclePrivacy
