import VehiclePrivacy.Proofs.Screening.Review
import VehiclePrivacy.Sanitizer

/-!
# What a sanitizer makes of a message

Here the parts come together: the reading of a message, its screening, and its redaction. A
sanitizer decides about a message as the review of the finished tree does (`receive_eq_review`), and
what it gives out for a retained message is the text of the message with the edits of its rules made
and nothing else changed (`emit_receive`).
-/

namespace VehiclePrivacy

namespace Screening

theorem finish_record (f : Filters) (s : Screening) : (s.finish f).record = s.record := by
  unfold finish
  split
  · rfl
  · split
    · rfl
    · split <;> rfl

theorem finish_asked (f : Filters) (s : Screening) : (s.finish f).asked = s.asked := by
  unfold finish
  split
  · rfl
  · split
    · rfl
    · split <;> rfl

end Screening

namespace Sanitizer

variable {s : Sanitizer} {tree : Json} {x : Sighting}

/-! ## Redaction -/

/-- The edits that the active rules make to a message, with the next pseudonym. -/
def edits (s : Sanitizer) (tree : Json) : Json.Edits :=
  s.rules.edits s.active (s.rules.id.pseudonym.draw s.entropy).1 (sightings [] tree)

/-- The message with these edits made. -/
def redacted (s : Sanitizer) (tree : Json) : Json := Json.rewrite (s.edits tree) [] tree

/-- Whether the redaction of a message must fail. -/
def blocked (s : Sanitizer) (tree : Json) : Bool :=
  s.active.has .partIIRedaction && hasScalarPartII (sightings [] tree)

/-- A message is redacted by the edits, unless that must fail. -/
theorem redact_retained (ht : Screened tree) (hrecord : s.record = Record.of (sightings [] tree))
    (h : s.blocked tree = false) :
    ∃ d : Draft, d.Edited tree (s.edits tree) ∧
      s.redact tree =
        { s with record := d.record, entropy := d.entropy, phase := .redacted,
                 tree := some d.tree } := by
  obtain ⟨d, hd, hedited⟩ := Rules.redact_edited (r := s.rules) (a := s.active) ht s.entropy
    fun ha x hx => by
      rw [← Bool.not_eq_false]
      intro hblock
      rw [blocked, show s.active.has .partIIRedaction = true from ha,
        hasScalarPartII_iff.mpr ⟨x, hx, hblock⟩] at h
      cases h
  refine ⟨d, hedited, ?_⟩
  rw [← hrecord] at hd
  unfold redact
  dsimp only
  rw [show s.rules.redact (s.isActive .idRedaction) (s.isActive .sizeRedaction)
    (s.isActive .partIIRedaction) ⟨tree, s.record, s.entropy⟩ = (d, none) from hd]

/-- A message whose redaction must fail is held back. -/
theorem redact_rejected (ht : Screened tree) (hrecord : s.record = Record.of (sightings [] tree))
    (h : s.blocked tree = true) :
    ∃ d : Draft, d.record.kept = (Record.of (sightings [] tree)).kept ∧
      s.redact tree =
        { s with record := d.record, entropy := d.entropy, phase := .redacted }.reject .other := by
  obtain ⟨ha, hscalar⟩ := Bool.and_eq_true_iff.mp h
  obtain ⟨x, hx, hblock⟩ := hasScalarPartII_iff.mp hscalar
  obtain ⟨d, hd, hkept⟩ := Rules.redact_error (r := s.rules) (a := s.active) ht s.entropy ha hx
    hblock
  refine ⟨d, hkept, ?_⟩
  rw [← hrecord] at hd
  unfold redact
  dsimp only
  rw [show s.rules.redact (s.isActive .idRedaction) (s.isActive .sizeRedaction)
    (s.isActive .partIIRedaction) ⟨tree, s.record, s.entropy⟩ = (d, some _) from hd]

/-- The sanitizer with what the screening of a new message has found. -/
def taking (s : Sanitizer) (found : Screening) : Sanitizer :=
  { s.reset with asked := found.asked, record := found.record }

/-- A message that was read to its end is redacted or held back. -/
theorem conclude_value (s : Sanitizer) (found : Screening) (tree : Json) :
    s.reset.conclude (found, .value tree) =
      (true,
        if (found.finish s.filters).verdict.retains then (s.taking found).redact tree
        else (s.taking found).reject (found.finish s.filters).verdict) := by
  rw [taking, ← found.finish_record s.filters, ← found.finish_asked s.filters]
  exact (apply_ite (Prod.mk true) _ _ _).symm

/-! ## Decisions -/

/-- What a review and a sanitizer have found about a message is the same. -/
structure Shows (s : Sanitizer) (r : Review) : Prop where
  latitude : s.record.latitude = r.latitude
  longitude : s.record.longitude = r.longitude
  speed : s.record.speed = r.speed
  asked : s.asked.toList = r.asked

theorem Shows.of_kept {r : Review} {d : Draft} (hr : s.Shows r)
    (hrecord : s.record = Record.of (sightings [] tree))
    (hkept : d.record.kept = (Record.of (sightings [] tree)).kept) :
    d.record.latitude = r.latitude ∧ d.record.longitude = r.longitude ∧
      d.record.speed = r.speed := by
  rw [← hrecord] at hkept
  exact ⟨(congrArg Record.latitude hkept).trans hr.latitude,
    (congrArg Record.longitude hkept).trans hr.longitude,
    (congrArg Record.speed hkept).trans hr.speed⟩

/-- Redaction changes nothing of what a review finds, and fails where it must. -/
theorem redact_decides {r : Review} (ht : Screened tree)
    (hrecord : s.record = Record.of (sightings [] tree)) (hs : s.verdict = .success)
    (hr : s.Shows r) :
    (s.redact tree).Shows r ∧
      (s.redact tree).verdict = if s.blocked tree then .other else .success := by
  cases hblocked : s.blocked tree with
  | true =>
    obtain ⟨d, hkept, heq⟩ := redact_rejected ht hrecord hblocked
    obtain ⟨hlat, hlon, hspeed⟩ := hr.of_kept hrecord hkept
    rw [heq]
    refine ⟨⟨hlat, hlon, hspeed, hr.asked⟩, ?_⟩
    rw [reject]
    dsimp only
    rw [hs]
    rfl
  | false =>
    obtain ⟨d, hedited, heq⟩ := redact_retained ht hrecord hblocked
    obtain ⟨hlat, hlon, hspeed⟩ := hr.of_kept hrecord hedited.kept
    rw [heq]
    exact ⟨⟨hlat, hlon, hspeed, hr.asked⟩, hs⟩

/-- Without a line break, a message is read and screened. -/
theorem receive_eq (s : Sanitizer) {message : String} (h : hasLineBreak message = false) :
    s.receive message = s.reset.conclude (Screening.read s.filters message) := by
  rw [receive, h]
  rfl

/-- A message that is read to its end is decided as a review decides at the end of its walk. -/
theorem conclude_decides (s : Sanitizer) {found : Screening} {r : Review} (ht : Screened tree)
    (hrecord : found.record = Record.of (sightings [] tree)) (hr : r.Matches found)
    (hs : found.verdict = .success) :
    (s.reset.conclude (found, .value tree)).1 = true ∧
      (s.reset.conclude (found, .value tree)).2.verdict =
        r.conclude s.filters (sightings [] tree) ∧
      (s.reset.conclude (found, .value tree)).2.Shows r := by
  have hshows : (s.taking found).Shows r := ⟨hr.latitude, hr.longitude, hr.speed, hr.asked⟩
  rw [conclude_value, Review.finish_verdict hr hs, Review.conclude]
  split
  · exact ⟨rfl, rfl, hr.latitude, hr.longitude, hr.speed, hr.asked⟩
  · split
    · exact ⟨rfl, rfl, hr.latitude, hr.longitude, hr.speed, hr.asked⟩
    · obtain ⟨hredacted, hverdict⟩ := redact_decides ht hrecord rfl hshows
      exact ⟨rfl, hverdict, hredacted⟩

/--
**Deciding while reading is deciding about the finished tree.** Where a message can be read as an
object without repeated names, a sanitizer accepts it as read, and its verdict, the position and
speed in its record, and what it asked the geofence are those of the review of the tree.
-/
theorem receive_eq_review (s : Sanitizer) {message : String} {tree : Json}
    (hline : hasLineBreak message = false)
    (hread : Json.read ⟨true, true⟩ .idle () message = ((), .value tree)) :
    (s.receive message).1 = true ∧
      (s.receive message).2.verdict = (review s.filters tree).2 ∧
      (s.receive message).2.record.latitude = (review s.filters tree).1.latitude ∧
      (s.receive message).2.record.longitude = (review s.filters tree).1.longitude ∧
      (s.receive message).2.record.speed = (review s.filters tree).1.speed ∧
      (s.receive message).2.asked.toList = (review s.filters tree).1.asked := by
  have hscreen := Json.read_eq_heed (l := Screening.listener s.filters) (s := {}) rfl rfl hread
  rw [Screening.heed_listener s.filters rfl] at hscreen
  have hagree := Review.agree_walk (f := s.filters) Review.matches_start rfl (sightings [] tree)
  have hread' : Screening.read s.filters message = _ := hscreen
  rw [receive_eq s hline, hread', review]
  generalize Screening.noticeAll s.filters {} (sightings [] tree) = found at hagree hread' ⊢
  generalize Review.walk s.filters {} (sightings [] tree) = result at hagree ⊢
  obtain ⟨r, reason⟩ := result
  obtain ⟨hr, hverdict, hreason⟩ := hagree
  cases reason with
  | some reason =>
    -- the walk ended early, so the reading was stopped there
    have hstop : (Screening.listener s.filters).stop found = true := by
      show (!found.verdict.retains) = true
      rw [hverdict, Bool.not_eq_true']
      exact decide_eq_false fun he => hreason (congrArg some he)
    rw [hstop, if_pos rfl]
    exact ⟨rfl, hverdict, hr.latitude, hr.longitude, hr.speed, hr.asked⟩
  | none =>
    have hstop : (Screening.listener s.filters).stop found = false := by
      show (!found.verdict.retains) = false
      rw [hverdict]
      rfl
    rw [hstop, if_neg Bool.false_ne_true] at hread' ⊢
    obtain ⟨hrecord, ht⟩ := Screening.record_of_read hread'
    obtain ⟨haccepted, hconclude, hshows⟩ := s.conclude_decides ht hrecord hr hverdict
    exact ⟨haccepted, hconclude, hshows.latitude, hshows.longitude, hshows.speed, hshows.asked⟩

/-- A message that is rejected for its speed, which is written as a string, after the geofence was
asked about its position. The speed of the opaque member before it is not recognised. -/
theorem receive_eq_review_of_quoted_speed :
    let s := ofSettings {} (fun _ => true) (mkStdGen 7)
    let message :=
      "\x7b\"metadata\":\x7b\"speed\":1\x7d,\"lat\":35,\"long\":-84,\"speed\":\" 50\",\"partII\":[]\x7d"
    let tree : Json := .object [("metadata", .object [("speed", .integer 1)]),
      ("lat", .integer 35), ("long", .integer (-84)), ("speed", .string " 50"),
      ("partII", .array [])]
    hasLineBreak message = false ∧ Json.read ⟨true, true⟩ .idle () message = ((), .value tree) ∧
      (s.receive message).1 = true ∧
      (s.receive message).2.verdict = (review s.filters tree).2 ∧
      (s.receive message).2.verdict = .speed ∧
      (s.receive message).2.record.speed = some 50 ∧
      (s.receive message).2.asked.toList = [⟨35, -84⟩] := by
  intro s message tree
  have hline : hasLineBreak message = false := by decide +kernel
  have hread : Json.read ⟨true, true⟩ .idle () message = ((), .value tree) := by
    dsimp only [message, tree]
    rfl
  obtain ⟨haccepted, hverdict, -, -, hspeed, hasked⟩ := receive_eq_review s hline hread
  have hreview : (review s.filters tree).2 = .speed ∧
      (review s.filters tree).1.speed = some 50 ∧
      (review s.filters tree).1.asked = [⟨35, -84⟩] := by decide +kernel
  exact ⟨hline, hread, haccepted, hverdict, hverdict.trans hreview.1, hspeed.trans hreview.2.1,
    hasked.trans hreview.2.2⟩

/-! ## What is given out -/

/-- A message that is retained after it was read completely was redacted. -/
theorem retained_of_value {found : Screening} (ht : Screened tree)
    (hrecord : found.record = Record.of (sightings [] tree))
    (h : (s.reset.conclude (found, .value tree)).2.verdict = .success) :
    ∃ d : Draft, d.Edited tree (s.edits tree) ∧
      (s.reset.conclude (found, .value tree)).2.tree = some d.tree ∧
      (s.reset.conclude (found, .value tree)).2.output = none := by
  rw [conclude_value] at h ⊢
  dsimp only at h ⊢
  cases hretains : (found.finish s.filters).verdict.retains with
  | false =>
    rw [hretains, if_neg Bool.false_ne_true] at h
    rw [show (found.finish s.filters).verdict = .success from h] at hretains
    cases hretains
  | true =>
    rw [hretains, if_pos rfl] at h
    rw [if_pos rfl]
    cases hblocked : (s.taking found).blocked tree with
    | true =>
      obtain ⟨d, -, heq⟩ := redact_rejected ht hrecord hblocked
      rw [heq] at h
      cases h
    | false =>
      obtain ⟨d, hedited, heq⟩ := redact_retained ht hrecord hblocked
      rw [heq]
      exact ⟨d, hedited, rfl, rfl⟩

/-- A message that is retained was read completely, passed the screening, and was redacted. -/
theorem retained_cases {message : String} (h : (s.receive message).2.verdict = .success) :
    ∃ tree d, Json.parse message = .ok tree ∧ Screened tree ∧ Draft.Edited tree (s.edits tree) d ∧
      (s.receive message).2.tree = some d.tree ∧ (s.receive message).2.output = none := by
  cases hline : hasLineBreak message with
  | true =>
    rw [receive, hline] at h
    cases h
  | false =>
    rw [receive_eq s hline] at h ⊢
    cases hread : Screening.read s.filters message with
    | mk found outcome =>
    rw [hread] at h
    cases outcome with
    | fault _ => cases h
    | stopped =>
      -- only a rejection stops a reading
      have hstop : (!found.verdict.retains) = true := Json.stop_of_read hread
      rw [show found.verdict = .success from h] at hstop
      cases hstop
    | value tree =>
      obtain ⟨hrecord, ht⟩ := Screening.record_of_read hread
      obtain ⟨d, hd, htree, houtput⟩ := retained_of_value ht hrecord h
      have hparse := Json.parse_of_read (Json.idle_of_read (l := Screening.listener s.filters)
        rfl hread)
      exact ⟨tree, d, hparse, ht, hd, htree, houtput⟩

theorem emit_retained (hs : s.verdict = .success) {t : Json} (htree : s.tree = some t)
    (houtput : s.output = none) : s.emit.1 = t.render := by
  have hretains : s.verdict.retains = true := by rw [hs]; rfl
  rw [emit, houtput]
  dsimp only
  rw [htree]
  dsimp only
  rw [hretains]
  rfl

/--
**The text of a retained message is its own text with the edits of the rules.** It is the message as
any reader reads it, with the edits of the active rules made at once and everything else as it was.
No edit is made inside of what another one replaces.
-/
theorem emit_receive (s : Sanitizer) {message : String}
    (h : (s.receive message).2.verdict = .success) :
    ∃ tree, Json.parse message = .ok tree ∧
      (s.receive message).2.emit.1 = (s.redacted tree).render ∧
      ∀ field field' x y, first? field (sightings [] tree) = some x →
        first? field' (sightings [] tree) = some y → field ≠ field' → ¬ x.place <+: y.place := by
  obtain ⟨tree, d, hparse, ht, hd, htree, houtput⟩ := retained_cases h
  refine ⟨tree, hparse, ?_, fun field field' x y hx hy hne => places_apart ht hx hy hne⟩
  rw [emit_retained h htree houtput, hd.edited, redacted]

/-- So it is for a message of which everything is redacted that can be. -/
theorem emit_receive_of_everything :
    let s := { ofSettings {} (fun _ => true) (mkStdGen 7) with
      active := ⟨false, false, true, true, true⟩,
      rules := ⟨.everyId (.fixed "X"), ⟨["a"]⟩, ⟨0⟩⟩ }
    let message := "\x7b\"id\":\"A1\",\"size\":\x7b\"width\":\"2\"\x7d," ++
      "\"partII\":[\x7b\"a\":1,\"b\":2\x7d]\x7d"
    (s.receive message).2.verdict = .success ∧
      (∃ tree, Json.parse message = .ok tree ∧
        (s.receive message).2.emit.1 = (s.redacted tree).render) ∧
      (s.receive message).2.emit.1 =
        "\x7b\"id\":\"X\",\"size\":\x7b\"width\":0\x7d,\"partII\":[\x7b\"b\":2\x7d]\x7d" := by
  intro s message
  let tree : Json := .object [("id", .string "A1"), ("size", .object [("width", .string "2")]),
    ("partII", .array [.object [("a", .integer 1), ("b", .integer 2)]])]
  have h : (s.receive message).2.verdict = .success := by decide +kernel
  have hparse : Json.parse message = .ok tree := by
    dsimp only [message, tree]
    rfl
  obtain ⟨tree', hparse', hemit, -⟩ := emit_receive s h
  obtain rfl : tree = tree' := Except.ok.inj (hparse.symm.trans hparse')
  refine ⟨h, ⟨tree, hparse, hemit⟩, ?_⟩
  rw [hemit]
  decide +kernel

end Sanitizer

end VehiclePrivacy
