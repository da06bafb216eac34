import Mathlib.Data.List.DropRight
import VehiclePrivacy.Proofs.Feed.Accounts

/-!
# Feeds that fail

Reading may fail behind some octets, the sink may run out of room, and the last flush may fail. What
is written by then is what a run without failures would have written so far (`run_failures`).

A run with limited room is compared with the run that has room for all (`Beside`): they are the same
run until the octets no longer fit, and from then on the one has failed while the other goes on. A
source that fails gives its complete lines, which are those of its octets up to the last line feed
(`completeLines_failing`). In the end the sanitizer has its settings still, and so it takes the next
feed as a fresh one would (`Level`).
-/

namespace VehiclePrivacy.Feed

open Sanitizer

/-! ## Lines that are read completely -/

section Complete

variable {octets p q : List UInt8} {b : UInt8}

/-- The octets up to the last line feed, and with it. -/
def untilLastBreak (octets : List UInt8) : List UInt8 := octets.rdropWhile (· ≠ lineFeed)

theorem lines_ne_nil (p : List UInt8) (b : UInt8) : lines (p ++ [b]) ≠ [] := by
  intro h
  have hflatten := (cut_lines (p ++ [b])).flatten
  rw [h] at hflatten
  exact absurd hflatten.symm (by simp)

/-- A line feed ends a line, whatever follows. -/
theorem lines_append_lineFeed (p q : List UInt8) :
    lines (p ++ [lineFeed] ++ q) = lines (p ++ [lineFeed]) ++ lines q := by
  induction p with
  | nil => rfl
  | cons b p ih =>
    rw [List.cons_append, List.cons_append, lines_cons, ih, lines_cons]
    split
    · rfl
    · cases hlines : lines (p ++ [lineFeed]) with
      | nil => exact absurd hlines (lines_ne_nil p lineFeed)
      | cons l more => rfl

/-- Of octets that end with a line feed, all lines do. -/
theorem ended_lines (p : List UInt8) :
    ∀ l ∈ lines (p ++ [lineFeed]), l.getLast? = some lineFeed := by
  induction p with
  | nil => exact List.forall_mem_singleton.mpr rfl
  | cons b p ih =>
    rw [List.cons_append, lines_cons]
    split
    · rename_i hb
      exact List.forall_mem_cons.mpr ⟨congrArg some hb, ih⟩
    · cases hlines : lines (p ++ [lineFeed]) with
      | nil => exact absurd hlines (lines_ne_nil p lineFeed)
      | cons l more =>
        have hne : l ≠ [] := (cut_lines (p ++ [lineFeed])).inhabited l (hlines ▸ List.mem_cons_self)
        rw [hlines, List.forall_mem_cons] at ih
        exact List.forall_mem_cons.mpr ⟨(List.getLast?_cons_of_ne_nil hne).trans ih.1, ih.2⟩

/-- Of octets without a line feed, no line ends with one. -/
theorem unended_lines (hq : lineFeed ∉ q) : ∀ l ∈ lines q, l.getLast? ≠ some lineFeed := by
  intro l hl h
  have hmem : lineFeed ∈ (lines q).flatten :=
    List.mem_flatten.mpr ⟨l, hl, List.mem_of_getLast? h⟩
  rw [(cut_lines q).flatten] at hmem
  exact hq hmem

/-- There is a last line feed, or none. -/
theorem last_lineFeed (octets : List UInt8) :
    lineFeed ∉ octets ∨ ∃ p q, octets = p ++ [lineFeed] ++ q ∧ lineFeed ∉ q := by
  by_cases h : lineFeed ∈ octets
  · obtain ⟨q, p, heq, hq⟩ := List.eq_append_cons_of_mem (List.mem_reverse.mpr h)
    refine .inr ⟨p.reverse, q.reverse, ?_, by simpa using hq⟩
    rw [← List.reverse_reverse octets, heq]
    simp
  · exact .inl h

theorem untilLastBreak_none (hq : lineFeed ∉ q) : untilLastBreak q = [] := by
  refine List.rdropWhile_eq_nil_iff.mpr fun b hb => ?_
  simpa using fun he : b = lineFeed => hq (he ▸ hb)

theorem untilLastBreak_append (p : List UInt8) (hq : lineFeed ∉ q) :
    untilLastBreak (p ++ [lineFeed] ++ q) = p ++ [lineFeed] := by
  induction q using List.reverseRecOn with
  | nil =>
    rw [List.append_nil]
    exact List.rdropWhile_concat_neg _ _ _ (by simp)
  | append_singleton q b ih =>
    rw [List.mem_append, not_or, List.mem_singleton] at hq
    rw [← List.append_assoc]
    exact (List.rdropWhile_concat_pos _ _ _ (by simpa using Ne.symm hq.2)).trans (ih hq.1)

/-- **A source that fails gives the lines of its octets up to the last line feed.** -/
theorem completeLines_failing (octets : List UInt8) (cause : String) :
    Source.completeLines ⟨octets, some cause⟩ = lines (untilLastBreak octets) := by
  have hkeep : ∀ {ls : List (List UInt8)}, (∀ l ∈ ls, l.getLast? = some lineFeed) →
      ls.filter (fun l => l.getLast? = some lineFeed) = ls := fun h =>
    List.filter_eq_self.mpr fun l hl => decide_eq_true (h l hl)
  have hdrop : ∀ {q : List UInt8}, lineFeed ∉ q →
      (lines q).filter (fun l => l.getLast? = some lineFeed) = [] := fun hq =>
    List.filter_eq_nil_iff.mpr fun l hl => by simpa using unended_lines hq l hl
  show (lines octets).filter _ = _
  rcases last_lineFeed octets with h | ⟨p, q, rfl, hq⟩
  · rw [hdrop h, untilLastBreak_none h]
    rfl
  · rw [untilLastBreak_append p hq, lines_append_lineFeed, List.filter_append, hdrop hq,
      List.append_nil, hkeep (ended_lines p)]

/-- The octets of a source that make up the lines that are read. -/
def Source.delivered (source : Source) : List UInt8 :=
  match source.failure with
  | none => source.octets
  | some _ => untilLastBreak source.octets

theorem completeLines_eq (source : Source) : source.completeLines = lines source.delivered := by
  obtain ⟨octets, failure⟩ := source
  cases failure with
  | none => rfl
  | some cause => exact completeLines_failing octets cause

end Complete

/-! ## A sink with limited room -/

section Room

variable {sink : Sink} {u r : Run} {octets : List UInt8} {k : Nat} {m : String}

theorem write_fitting (octets : List UInt8) (hu : u.error = none)
    (h : ∀ k ∈ sink.room, u.size + octets.length ≤ k) : u.write sink octets = u.write {} octets := by
  obtain ⟨room, flushFailure⟩ := sink
  cases room with
  | none => rfl
  | some k =>
    have hk : u.size + octets.length ≤ k := h k rfl
    have htake : octets.take (k - u.size) = octets := List.take_of_length_le (by omega)
    simp only [Run.write, htake, hu, lt_irrefl, if_false]

theorem write_cut (hroom : sink.room = some k) (h : k < u.size + octets.length)
    (hsize : u.size ≤ k) :
    (u.write sink octets).error = some noRoom ∧
      (u.write sink octets).output = u.output ++ octets.take (k - u.size) := by
  have hshort : (octets.take (k - u.size)).length < octets.length := by
    rw [List.length_take]
    omega
  rw [Run.write, hroom]
  dsimp only
  rw [if_pos hshort]
  exact ⟨rfl, by simp [Run.output]⟩

/-- Writes the octets of a retained message, and counts it unless that fails. -/
def Run.deliver (r : Run) (sink : Sink) (octets : List UInt8) : Run :=
  let r := r.write sink octets
  match r.error with
  | some _ => r
  | none =>
    let octetsOut := r.tally.octetsOut + octets.length
    { r with tally := { r.tally with octetsOut } }.countMessage

theorem message_write (sink : Sink) (h : (u.sanitizer.receive m).2.verdict = .success) :
    u.message sink m =
      { u with sanitizer := (u.sanitizer.receive m).2.emit.2 }.deliver sink
        (written (u.sanitizer.receive m).2.emit.1) := by
  have hretains : (u.sanitizer.receive m).2.verdict.retains = true := decide_eq_true h
  rw [Run.message]
  dsimp only
  rw [if_pos hretains]
  rfl

/-- A run that has not failed, and knows how much it has written. -/
structure Healthy (u : Run) : Prop where
  unfailing : u.error = none
  size : u.size = u.output.length

/-- A run goes on, and writes behind what was written. -/
structure Continues (u u' : Run) : Prop extends Healthy u' where
  output : ∃ more, u'.output = u.output ++ more

theorem Healthy.refl (h : Healthy u) : Continues u u := ⟨h, [], (List.append_nil _).symm⟩

theorem Healthy.message (h : Healthy u) (m : String) : Continues u (u.message {} m) := by
  by_cases hretained : (u.sanitizer.receive m).2.verdict = .success
  · obtain ⟨-, hunfailing, houtput, -⟩ := message_retained h.unfailing rfl hretained
    have hsize : (u.message {} m).size =
        u.size + (written (u.sanitizer.receive m).2.emit.1).length := by
      rw [message_write _ hretained]
      simp only [Run.deliver, Run.write, h.unfailing, Run.countMessage]
    exact ⟨⟨hunfailing, by rw [hsize, houtput, List.length_append, h.size]⟩, _, houtput⟩
  · rw [message_suppressed hretained]
    exact ⟨⟨h.unfailing, h.size⟩, [], (List.append_nil _).symm⟩

theorem Healthy.line (h : Healthy u) (octets : List UInt8) : Continues u (Run.line {} u octets) := by
  rw [Run.line, h.unfailing]
  cases String.fromUTF8? octets.toByteArray with
  | none => exact ⟨⟨rfl, h.size⟩, [], (List.append_nil _).symm⟩
  | some text =>
    dsimp only
    cases Run.message? text with
    | none => exact h.refl
    | some m => exact h.message m

/-- A run with limited room beside the one that has room for all. As long as all fits they are the
same, then the one has failed, and has written as much as fits. -/
structure Beside (sink : Sink) (u r : Run) : Prop where
  healthy : Healthy u
  fitting : (∀ k ∈ sink.room, u.output.length ≤ k) → r = u
  cut : ∀ k ∈ sink.room, k < u.output.length → r.error = some noRoom ∧ r.output = u.output.take k

theorem beside_start (sink : Sink) (s : Sanitizer) :
    Beside sink { sanitizer := s } { sanitizer := s } :=
  ⟨⟨rfl, rfl⟩, fun _ => rfl, fun _ _ h => absurd h (Nat.not_lt_zero _)⟩

theorem Healthy.beside (h : Healthy u) (hfits : ∀ k ∈ sink.room, u.output.length ≤ k) :
    Beside sink u u :=
  ⟨h, fun _ => rfl, fun k hk hcut => absurd (hfits k hk) (by omega)⟩

/-- A message that is retained may be the one that no longer fits. -/
theorem Healthy.beside_message (h : Healthy u) (hfits : ∀ k ∈ sink.room, u.output.length ≤ k)
    (m : String) : Beside sink (u.message {} m) (u.message sink m) := by
  have hgoes := h.message m
  by_cases hretained : (u.sanitizer.receive m).2.verdict = .success
  · obtain ⟨-, -, houtput, -⟩ := message_retained h.unfailing rfl hretained
    have hlength := congrArg List.length houtput
    rw [List.length_append, ← h.size] at hlength
    refine ⟨hgoes.toHealthy, fun hall => ?_, fun k hk hcut => ?_⟩
    · have hwrite := write_fitting (u := { u with sanitizer := (u.sanitizer.receive m).2.emit.2 })
        (written (u.sanitizer.receive m).2.emit.1) h.unfailing fun k hk => hlength ▸ hall k hk
      rw [message_write _ hretained, message_write _ hretained, Run.deliver, Run.deliver, hwrite]
    · obtain ⟨herror, htaken⟩ := write_cut
        (u := { u with sanitizer := (u.sanitizer.receive m).2.emit.2 }) hk (hlength ▸ hcut)
        (h.size.symm ▸ hfits k hk)
      rw [message_write _ hretained, Run.deliver]
      dsimp only
      rw [herror]
      refine ⟨herror, ?_⟩
      rw [htaken, houtput, List.take_append, List.take_of_length_le (hfits k hk), ← h.size]
      rfl
  · rw [message_suppressed hretained] at hgoes ⊢
    rw [message_suppressed hretained]
    exact hgoes.toHealthy.beside hfits

theorem Beside.line (h : Beside sink u r) (octets : List UInt8) :
    Beside sink (Run.line {} u octets) (Run.line sink r octets) := by
  have hgoes := h.healthy.line octets
  by_cases hfits : ∀ k ∈ sink.room, u.output.length ≤ k
  · -- all has fitted so far, so there is but one run
    obtain rfl := h.fitting hfits
    rw [Run.line, Run.line, h.healthy.unfailing]
    cases String.fromUTF8? octets.toByteArray with
    | none => exact Healthy.beside ⟨rfl, h.healthy.size⟩ hfits
    | some text =>
      dsimp only
      cases Run.message? text with
      | none => exact h
      | some m => exact h.healthy.beside_message hfits m
  · -- the one has failed already, and the other only writes behind what was cut
    push Not at hfits
    obtain ⟨k, hk, hcut⟩ := hfits
    obtain ⟨herror, houtput⟩ := h.cut k hk hcut
    obtain ⟨more, hmore⟩ := hgoes.output
    have hlonger : k < (Run.line {} u octets).output.length := by
      rw [hmore, List.length_append]
      omega
    have hfailed : Run.line sink r octets = r := by rw [Run.line, herror]
    rw [hfailed]
    refine ⟨hgoes.toHealthy, fun hall => absurd (hall k hk) (by omega), fun k' hk' _ => ?_⟩
    obtain rfl : k = k' := Option.mem_unique hk hk'
    exact ⟨herror, by rw [houtput, hmore, List.take_append_of_le_length hcut.le]⟩

theorem Beside.lines (h : Beside sink u r) (ls : List (List UInt8)) :
    Beside sink (ls.foldl (Run.line {}) u) (ls.foldl (Run.line sink) r) := by
  induction ls generalizing u r with
  | nil => exact h
  | cons first rest ih => exact ih (h.line first)

/-- A run without failures is no more than its lines. -/
theorem run_unfailing (s : Sanitizer) (octets : List UInt8) :
    run s ⟨octets, none⟩ {} = (lines octets).foldl (Run.line {}) { sanitizer := s } ∧
      (run s ⟨octets, none⟩ {}).error = none := by
  have hlines := ((beside_start {} s).lines (lines octets)).healthy.unfailing
  have hrun : run s ⟨octets, none⟩ {} = (lines octets).foldl (Run.line {}) { sanitizer := s } := by
    have hcomplete : (⟨octets, none⟩ : Source).completeLines = lines octets := rfl
    rw [run, hcomplete, Run.finish, hlines]
  exact ⟨hrun, hrun ▸ hlines⟩

/-- A run fails for want of room, or it does all that a run without failures does for the octets that
are delivered, and may fail in the end. -/
theorem run_beside (s : Sanitizer) (source : Source) (sink : Sink) :
    let whole := run s ⟨source.delivered, none⟩ {}
    ((∀ k ∈ sink.room, whole.output.length ≤ k) →
        run s source sink = whole.finish source sink) ∧
      ∀ k ∈ sink.room, k < whole.output.length →
        (run s source sink).error = some noRoom ∧
          (run s source sink).output = whole.output.take k := by
  intro whole
  have hbeside := (beside_start sink s).lines (lines source.delivered)
  rw [← (run_unfailing s source.delivered).1] at hbeside
  have hrun : run s source sink =
      ((lines source.delivered).foldl (Run.line sink) { sanitizer := s }).finish source sink := by
    rw [run, completeLines_eq]
  rw [hrun]
  refine ⟨fun hfits => by rw [hbeside.fitting hfits], fun k hk hcut => ?_⟩
  obtain ⟨herror, houtput⟩ := hbeside.cut k hk hcut
  rw [Run.finish, herror]
  exact ⟨herror, houtput⟩

end Room

/-! ## The next feed -/

section Next

variable {s : Sanitizer} {a b : Sanitizer} {r r' : Run} {pseudonym : String} {sink : Sink}

theorem finish_sanitizer (r : Run) (source : Source) (sink : Sink) :
    (r.finish source sink).sanitizer = r.sanitizer := by
  rw [Run.finish]
  split <;> rfl

theorem write_sanitizer (sink : Sink) (u : Run) (octets : List UInt8) (a : Sanitizer) :
    { u with sanitizer := a }.write sink octets =
      { u.write sink octets with sanitizer := a } := by
  rw [Run.write, Run.write]
  cases sink.room <;> rfl

theorem agrees_message (sink : Sink) (r : Run) (m : String) :
    (r.message sink m).sanitizer.Agrees r.sanitizer := by
  have hreceive := agrees_receive r.sanitizer m
  by_cases hretained : (r.sanitizer.receive m).2.verdict = .success
  · have hemit := (agrees_emit (r.sanitizer.receive m).2).trans hreceive
    rw [message_write sink hretained, Run.deliver]
    dsimp only
    rw [write_sanitizer]
    split <;> exact hemit
  · rw [message_suppressed hretained]
    exact hreceive

theorem agrees_line (sink : Sink) (r : Run) (octets : List UInt8) :
    (Run.line sink r octets).sanitizer.Agrees r.sanitizer := by
  rw [Run.line]
  cases r.error with
  | some e => exact Agrees.refl r.sanitizer
  | none =>
    cases String.fromUTF8? octets.toByteArray with
    | none => exact Agrees.refl r.sanitizer
    | some text =>
      dsimp only
      cases Run.message? text with
      | none => exact Agrees.refl r.sanitizer
      | some m => exact agrees_message sink r m

/-- A run changes nothing of how messages are treated, however it ends. -/
theorem agrees_run (s : Sanitizer) (source : Source) (sink : Sink) :
    (run s source sink).sanitizer.Agrees s := by
  have hlines : ∀ (ls : List (List UInt8)) (r : Run),
      (ls.foldl (Run.line sink) r).sanitizer.Agrees r.sanitizer := by
    intro ls
    induction ls with
    | nil => exact fun r => Agrees.refl r.sanitizer
    | cons first rest ih => exact fun r => (ih _).trans (agrees_line sink r first)
  rw [run, finish_sanitizer]
  exact hlines _ _

/-- Two runs that are the same but for their sanitizers, which began as `a` and `b`. -/
structure Level (a b : Sanitizer) (r r' : Run) : Prop where
  same : r' = { r with sanitizer := r'.sanitizer }
  agrees : r.sanitizer.Agrees r'.sanitizer
  /-- What is shown of the last message is the same, unless there was none. -/
  shown : r.sanitizer.Alike r'.sanitizer ∨ r.sanitizer = a ∧ r'.sanitizer = b

theorem deliver_drawing (r : Run) (octets : List UInt8) (buffer : Float) (entropy : StdGen) :
    { r with sanitizer := r.sanitizer.drawing buffer entropy }.deliver sink octets =
      { r.deliver sink octets with
        sanitizer := (r.deliver sink octets).sanitizer.drawing buffer entropy } := by
  have hwrite := write_sanitizer sink r octets (r.sanitizer.drawing buffer entropy)
  have hkept : r.write sink octets = { r.write sink octets with sanitizer := r.sanitizer } :=
    write_sanitizer sink r octets r.sanitizer
  rw [Run.deliver, Run.deliver, hwrite, hkept]
  dsimp only
  cases (r.write sink octets).error <;> rfl

theorem message_drawing (sink : Sink) {buffer : Float} {entropy : StdGen} {m : String}
    (h : b.receive m =
      ((r.sanitizer.receive m).1, (r.sanitizer.receive m).2.drawing buffer entropy)) :
    { r with sanitizer := b }.message sink m = { r.message sink m with
      sanitizer := (r.message sink m).sanitizer.drawing buffer entropy } := by
  have hafter : (b.receive m).2 = (r.sanitizer.receive m).2.drawing buffer entropy :=
    congrArg Prod.snd h
  have hverdict : (b.receive m).2.verdict = (r.sanitizer.receive m).2.verdict := by
    rw [hafter]
    rfl
  by_cases hretained : (r.sanitizer.receive m).2.verdict = .success
  · have hemit := emit_drawing (r.sanitizer.receive m).2 buffer entropy
    rw [← hafter] at hemit
    rw [message_write (u := { r with sanitizer := b }) sink (hverdict.trans hretained),
      message_write sink hretained]
    dsimp only
    rw [hemit]
    exact deliver_drawing { r with sanitizer := (r.sanitizer.receive m).2.emit.2 } _ _ _
  · rw [message_suppressed (r := { r with sanitizer := b }) (hverdict ▸ hretained),
      message_suppressed hretained]
    dsimp only
    rw [hafter]
    rfl

theorem Level.message (h : Level a b r r') (hfixed : r.sanitizer.rules.id.pseudonym = .fixed pseudonym)
    (m : String) : Level a b (r.message sink m) (r'.message sink m) := by
  have hdrawing := message_drawing sink (receive_of_agrees h.agrees hfixed m)
  rw [← h.same] at hdrawing
  rw [hdrawing]
  exact ⟨rfl, ⟨rfl, rfl, rfl, rfl⟩, .inl (alike_drawing _ _ _)⟩

theorem Level.line (h : Level a b r r') (hfixed : r.sanitizer.rules.id.pseudonym = .fixed pseudonym)
    (octets : List UInt8) : Level a b (Run.line sink r octets) (Run.line sink r' octets) := by
  have herror : r'.error = r.error := by rw [h.same]
  rw [Run.line, Run.line, herror]
  cases r.error with
  | some e => exact h
  | none =>
    cases String.fromUTF8? octets.toByteArray with
    | none =>
      refine ⟨?_, h.agrees, h.shown⟩
      dsimp only
      rw [h.same]
    | some text =>
      dsimp only
      cases Run.message? text with
      | none => exact h
      | some m => exact h.message hfixed m

theorem Level.lines (h : Level a b r r') (sink : Sink)
    (hfixed : r.sanitizer.rules.id.pseudonym = .fixed pseudonym) (ls : List (List UInt8)) :
    Level a b (ls.foldl (Run.line sink) r) (ls.foldl (Run.line sink) r') := by
  induction ls generalizing r r' with
  | nil => exact h
  | cons first rest ih =>
    have hrules : (Run.line sink r first).sanitizer.rules = r.sanitizer.rules :=
      (agrees_line sink r first).rules
    exact ih (h.line hfixed first) (hrules ▸ hfixed)

/-- Sanitizers that treat messages by the same rules, with a fixed pseudonym, make the same of a feed
to any sink. -/
theorem run_level (h : a.Agrees b) (hfixed : a.rules.id.pseudonym = .fixed pseudonym)
    (source : Source) (sink : Sink) : Level a b (run a source sink) (run b source sink) := by
  have hstart : Level a b { sanitizer := a } { sanitizer := b } := ⟨rfl, h, .inr ⟨rfl, rfl⟩⟩
  have hlines := hstart.lines sink hfixed source.completeLines
  have hfinish : ∀ (r : Run) x, { r with sanitizer := x }.finish source sink =
      { r.finish source sink with sanitizer := x } := by
    intro r x
    rw [Run.finish, Run.finish]
    dsimp only
    split <;> rfl
  refine ⟨?_, ?_, ?_⟩
  · rw [run, run, finish_sanitizer, hlines.same, hfinish]
  · rw [run, run, finish_sanitizer, finish_sanitizer]
    exact hlines.agrees
  · rw [run, run, finish_sanitizer, finish_sanitizer]
    exact hlines.shown

end Next

/-! ## Failures -/

theorem outcome_of_error {r : Run} {e : Error} (h : r.error = some e) : r.outcome = .error e := by
  rw [Run.outcome, h]

/--
**A failure cuts the output cleanly.** A sink that has room for `k` octets ends up with the first `k`
octets of what a run without failures writes, and the run fails just if there are more. If reading
fails behind some octets the run fails, and does what a run without failures does for these octets up
to the last line feed. If the last flush fails the run fails, and all is written. Whatever feed a
sanitizer has been through, and in whichever way that ended, it makes the same of the next feed as a
sanitizer without a past that has the same active capabilities.
-/
theorem run_failures {pseudonym : String} (s : Sanitizer) (octets : List UInt8)
    (hfixed : s.rules.id.pseudonym = .fixed pseudonym) :
    let whole := run s ⟨octets, none⟩ {}
    whole.error = none ∧
      (∀ k,
        let r := run s ⟨octets, none⟩ { room := some k }
        r.output = whole.output.take k ∧
          r.outcome = if k < whole.output.length then .error noRoom else whole.outcome) ∧
      (∀ cause,
        let r := run s ⟨octets, some cause⟩ {}
        let cut := run s ⟨untilLastBreak octets, none⟩ {}
        r.outcome = .error (.readFailed cause) ∧ r.output = cut.output ∧
          r.sanitizer = cut.sanitizer) ∧
      (∀ cause,
        let r := run s ⟨octets, none⟩ { flushFailure := some cause }
        r.outcome = .error (.flushFailed cause) ∧ r.output = whole.output ∧
          r.sanitizer = whole.sanitizer) ∧
      ∀ source sink calls next sink',
        let used := (run s source sink).sanitizer.afterAll calls
        let fresh := { s.fresh with active := used.active }
        let later := run used next sink'
        let first := run fresh next sink'
        later.outcome = first.outcome ∧ later.output = first.output ∧
          (later.sanitizer.Alike first.sanitizer ∨
            later.sanitizer = used ∧ first.sanitizer = fresh) := by
  intro whole
  have hwhole : whole.error = none := (run_unfailing s octets).2
  refine ⟨hwhole, fun k => ?_, fun cause => ?_, fun cause => ?_, ?_⟩
  · obtain ⟨hfitting, hcut⟩ := run_beside s ⟨octets, none⟩ { room := some k }
    by_cases hk : k < whole.output.length
    · obtain ⟨herror, houtput⟩ := hcut k rfl hk
      rw [if_pos hk]
      exact ⟨houtput, outcome_of_error herror⟩
    · have hroom : whole.output.length ≤ k := by omega
      have hfinish : whole.finish ⟨octets, none⟩ { room := some k } = whole := by
        rw [Run.finish, hwhole]
      have hrun : run s ⟨octets, none⟩ { room := some k } = whole :=
        (hfitting fun k' hk' => Option.some.inj hk' ▸ hroom).trans hfinish
      rw [if_neg hk, hrun, List.take_of_length_le hroom]
      exact ⟨rfl, rfl⟩
  · have hrun := (run_beside s ⟨octets, some cause⟩ {}).1 (by simp)
    have hcut := (run_unfailing s (untilLastBreak octets)).2
    have hfinish : (run s ⟨untilLastBreak octets, none⟩ {}).finish ⟨octets, some cause⟩ {} =
        { run s ⟨untilLastBreak octets, none⟩ {} with error := some (.readFailed cause) } := by
      rw [Run.finish, hcut]
    rw [hrun]
    exact hfinish ▸ ⟨rfl, rfl, rfl⟩
  · have hrun := (run_beside s ⟨octets, none⟩ { flushFailure := some cause }).1 (by simp)
    have hfinish : whole.finish ⟨octets, none⟩ { flushFailure := some cause } =
        { whole with error := some (.flushFailed cause) } := by
      rw [Run.finish, hwhole]
    rw [hrun]
    exact hfinish ▸ ⟨rfl, rfl, rfl⟩
  · intro source sink calls next sink' used fresh later first
    obtain ⟨hrules, hspeeds, hwithin⟩ := (run s source sink).sanitizer.afterAll_settings calls
    have hrun := agrees_run s source sink
    have hagrees : used.Agrees fresh :=
      ⟨rfl, hrules.trans hrun.rules, hspeeds.trans hrun.speeds, hwithin.trans hrun.within⟩
    have hlevel := run_level hagrees (hagrees.rules ▸ hfixed) next sink'
    refine ⟨?_, ?_, hlevel.shown⟩
    · rw [Run.outcome, Run.outcome, show first = _ from hlevel.same]
    · rw [Run.output, Run.output, show first = _ from hlevel.same]

/-- So it is where a second message breaks off: its line is dropped, and what is written of the first
one can be cut in the middle, or before its line feed. -/
theorem run_failures_of_broken :
    let s := ofSettings {} (fun _ => true) (mkStdGen 7)
    let message := "\x7b\"speed\":20,\"lat\":1,\"lon\":2\x7d"
    let octets := (message ++ "\n" ++ message).toUTF8.data.toList
    let r := run s ⟨octets, some "timed out"⟩ {}
    let short := fun k => run s ⟨octets, none⟩ { room := some k }
    (run s ⟨octets, none⟩ {}).output = (message ++ "\n" ++ message ++ "\n").toUTF8.data.toList ∧
      r.outcome = .error (.readFailed "timed out") ∧
      r.output = (message ++ "\n").toUTF8.data.toList ∧
      (short 28).outcome = .error noRoom ∧ (short 28).output = message.toUTF8.data.toList ∧
      (short 58).outcome = .ok ⟨2, 2, 0, 0, 0, 0, 0, 0, 58⟩ := by
  intro s message octets r short
  obtain ⟨-, hroom, hread, -, -⟩ := run_failures s octets rfl
  have hwhole : (run s ⟨octets, none⟩ {}).output =
      (message ++ "\n" ++ message ++ "\n").toUTF8.data.toList := by decide +kernel
  have hcut : (run s ⟨untilLastBreak octets, none⟩ {}).output =
      (message ++ "\n").toUTF8.data.toList := by decide +kernel
  have houtcome : (run s ⟨octets, none⟩ {}).outcome = .ok ⟨2, 2, 0, 0, 0, 0, 0, 0, 58⟩ := by
    decide +kernel
  obtain ⟨herror, houtput, -⟩ := hread "timed out"
  have hshort := hroom 28
  have hlong := hroom 58
  rw [hwhole] at hshort hlong
  rw [houtcome] at hlong
  exact ⟨hwhole, herror, houtput.trans hcut, hshort.2.trans (if_pos (by decide +kernel)),
    hshort.1.trans (by decide +kernel), hlong.2.trans (if_neg (by decide +kernel))⟩

end VehiclePrivacy.Feed
