import VehiclePrivacy.Proofs.Json.Prefixes
import VehiclePrivacy.Proofs.Sanitizer.Calls

/-!
# Where a message is decided

A message that is rejected while it is read is rejected at one character of it, where the value ends
that decides. From there on the message could be any other, or no JSON at all: a sanitizer does not
look at it (`receive_decided`).
-/

namespace VehiclePrivacy

namespace Sanitizer

variable {s : Sanitizer} {message : String} {q : List Char} {c : Char}

/-- The screening of a message is stopped at the character `c` behind `q`. -/
abbrev DecidedAt (s : Sanitizer) (q : List Char) (c : Char) : Prop :=
  Json.StopsAt Screening.demands (Screening.listener s.filters) {} q c

/-- A message whose screening is stopped is held back, with what was found by then and no text. -/
theorem receive_stopped (hline : hasLineBreak message = false) {found : Screening}
    (h : Screening.read s.filters message = (found, .stopped)) :
    s.receive message = (true, (s.taking found).reject found.verdict) ∧
      (s.receive message).2.emit.1 = "" := by
  rw [receive_eq s hline, h]
  exact ⟨rfl, rfl⟩

/-- A redaction finds no fault with the speed or the position. -/
theorem redact_cases (hs : s.verdict = .success) (tree : Json) :
    (s.redact tree).verdict = .success ∨ (s.redact tree).verdict = .other := by
  unfold redact
  dsimp only
  split
  · exact .inl hs
  · exact .inr (congrArg Sanitizer.verdict (reject_of_success hs .other))

/-- A message that is read to its end was not rejected on the way. -/
theorem success_of_read {f : Filters} {found : Screening} {tree : Json}
    (h : Screening.read f message = (found, .value tree)) : found.verdict = .success := by
  have hgoes : (!found.verdict.retains) = false :=
    (Json.heed_of_read (l := Screening.listener f) rfl rfl h).2
  have hretains : found.verdict.retains = true := by simpa using hgoes
  exact of_decide_eq_true hretains

/-- The speed and the position of a message are judged while it is read. -/
theorem read_stopped (h : (s.receive message).2.verdict = .speed ∨
    (s.receive message).2.verdict = .geoposition) :
    (Screening.read s.filters message).2 = .stopped := by
  cases hline : hasLineBreak message with
  | true =>
    rw [receive, hline] at h
    rcases h with h | h <;> cases h
  | false =>
    rw [receive_eq s hline] at h
    cases hread : Screening.read s.filters message with
    | mk found outcome =>
    rw [hread] at h
    cases outcome with
    | stopped => rfl
    | fault f => rcases h with h | h <;> cases h
    | value tree =>
      have hcases := finish_cases s.filters (success_of_read hread)
      rw [conclude_value] at h
      dsimp only at h
      split at h
      · have hredacted := redact_cases (s := s.taking found) rfl tree
        rcases hredacted with hv | hv <;> rw [hv] at h <;> rcases h with h | h <;> cases h
      · rename_i hfinish
        rcases hcases with hv | hv
        · rw [hv] at hfinish
          exact absurd rfl hfinish
        · rw [hv] at h
          rcases h with h | h <;> cases h

/-- A message that is rejected for its speed has one that is not accepted. -/
theorem refused_speed (h : (s.receive message).2.verdict = .speed) :
    ∃ v, (s.receive message).2.record.speed = some v ∧ s.speeds.accepts v = false := by
  have hline : hasLineBreak message = false := by
    cases hline : hasLineBreak message with
    | false => rfl
    | true =>
      rw [receive, hline] at h
      cases h
  have hstopped := read_stopped (.inl h)
  obtain ⟨found, hread, hagree⟩ := Screening.read_met s.filters message
  rw [hread] at hstopped
  dsimp only at hstopped
  rw [hstopped] at hread
  rw [(receive_stopped hline hread).1] at h ⊢
  have hverdict : found.verdict = .speed := h
  have hrecord : found.record.speed = _ := hagree.found.speed
  rw [hagree.verdict] at hverdict
  have hreason : (Review.walk s.filters {} (Screening.met message)).2 = some .speed := by
    cases hwalk : (Review.walk s.filters {} (Screening.met message)).2 with
    | none =>
      rw [hwalk] at hverdict
      cases hverdict
    | some reason =>
      rw [hwalk] at hverdict
      exact congrArg some hverdict
  obtain ⟨v, hv, hrefused⟩ := Review.refuses_walk {} _ hreason
  exact ⟨v, hrecord.trans hv, hrefused⟩

/--
**A rejection while reading does not depend on the rest of the message.** A message that is rejected
for its speed, for its position, or for a value of another kind than expected is decided at a
character: where the value that decides ends, or behind it if it is a number; unless the message
ends with that number. Whatever follows there instead, as long as it is one line, is received with
the same answer, leaves the sanitizer the same, and gives no text.
-/
theorem receive_decided (s : Sanitizer) (message : String)
    (h : (s.receive message).2.verdict = .speed ∨ (s.receive message).2.verdict = .geoposition ∨
      (s.receive message).2.verdict = .other ∧
        (Screening.read s.filters message).2 = .stopped) :
    ((∃ q c rest, message.toList = q ++ c :: rest ∧ s.DecidedAt q c) ∨
        ∃ lexeme, lexeme <:+ message.toList ∧
          Json.tokens message = Json.complete message.toList ++ [.number lexeme]) ∧
      ∀ q c rest, message.toList = q ++ c :: rest → s.DecidedAt q c →
        ∀ more, hasLineBreak (String.ofList (q ++ c :: more)) = false →
          (s.receive (String.ofList (q ++ c :: more))).1 = true ∧
            s.receive (String.ofList (q ++ c :: more)) = s.receive message ∧
            (s.receive (String.ofList (q ++ c :: more))).2.emit.1 = "" := by
  have hstopped : (Screening.read s.filters message).2 = .stopped := by
    rcases h with h | h | ⟨-, h⟩
    · exact read_stopped (.inl h)
    · exact read_stopped (.inr h)
    · exact h
  have hline : hasLineBreak message = false := by
    cases hline : hasLineBreak message with
    | false => rfl
    | true =>
      rw [receive, hline] at h
      rcases h with h | h | ⟨h, -⟩ <;> cases h
  refine ⟨?_, ?_⟩
  · rcases Json.stopsAt_of_read hstopped with h | ⟨lexeme, hlexeme, htokens, -⟩
    · exact .inl h
    · exact .inr ⟨lexeme, hlexeme, htokens⟩
  · intro q c rest heq hdecided more hmore
    have hmessage : message = String.ofList (q ++ c :: rest) := by
      rw [← heq, String.ofList_toList]
    have hread := hdecided.read_eq rest
    rw [← hmessage] at hread
    obtain ⟨hreceived, -⟩ := receive_stopped hline hread
    obtain ⟨hagain, hempty⟩ := receive_stopped hmore (hdecided.read_eq more)
    rw [hagain] at hempty ⊢
    exact ⟨rfl, hreceived.symm, hempty⟩

/-- So it is for a message that is too fast: it is decided at the brace behind its speed, and might
as well go on with something that is no JSON. -/
theorem receive_decided_of_speed :
    let s := { ofSettings {} (fun _ => true) (mkStdGen 7) with
      active := Activation.none.insert .speedFilter }
    let q := "\x7b\"ids\":[],\"speed\":99".toList
    let message := String.ofList (q ++ '\x7d' :: [])
    let other := String.ofList (q ++ '\x7d' :: "]speed".toList)
    (s.receive message).2.verdict = .speed ∧ s.DecidedAt q '\x7d' ∧
      hasLineBreak other = false ∧ s.receive other = s.receive message := by
  intro s q message other
  have hspeed : (s.receive message).2.verdict = .speed := by decide +kernel
  have hline : hasLineBreak other = false := by decide +kernel
  have hdecided : s.DecidedAt q '\x7d' := by
    have hphase : ((Json.Reader.start {}).run Screening.demands (Screening.listener s.filters)
        (Json.complete q)).phase = .value := by rfl
    have htokens : Json.tokens message = Json.complete (q ++ ['\x7d']) := by decide +kernel
    have hstopped := Json.outcome_eq_stopped.mp (read_stopped (.inl hspeed))
    rw [htokens] at hstopped
    exact Json.stopsAt_of_complete (by rw [hphase]; nofun) hstopped
  have h := (receive_decided s message (.inl hspeed)).2 q '\x7d' [] (String.toList_ofList) hdecided
    "]speed".toList hline
  exact ⟨hspeed, hdecided, hline, h.2.1⟩

end Sanitizer

end VehiclePrivacy
