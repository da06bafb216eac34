import VehiclePrivacy.Proofs.Json.Printing
import VehiclePrivacy.Proofs.Sanitizer.Refusal

/-!
# Where a sanitizer stands after any calls

A sanitizer may be called in any order: messages are received, texts are asked for, capabilities are
turned on and off. Where it stands is decided by the last message alone, and by whether its text was
asked for since (`standing_afterAll`).

A message leaves a sanitizer in one of three ways (`Received`). Every other call keeps it there but
for the text (`Follows`), so the calls after the last message are of no further account.
-/

namespace VehiclePrivacy

namespace Sanitizer

variable {s r : Sanitizer} {message : String}

/-! ## Calls -/

/-- A call of a sanitizer. -/
inductive Call where
  | receive (message : String)
  | emit
  | emittedSize
  | activate (c : Capability)
  | deactivate (c : Capability)

/-- The sanitizer after a call. -/
def after (s : Sanitizer) : Call → Sanitizer
  | .receive message => (s.receive message).2
  | .emit => s.emit.2
  | .emittedSize => s.emittedSize.2
  | .activate c => s.activate c
  | .deactivate c => s.deactivate c

/-- The sanitizer after some calls. -/
def afterAll (s : Sanitizer) (calls : List Call) : Sanitizer := calls.foldl after s

/-- The message of a call, with the sanitizer that receives it. -/
def Call.received? (s : Sanitizer) : Call → Option (Sanitizer × String)
  | .receive message => some (s, message)
  | _ => none

/-- The last message of some calls, with the sanitizer that has received it. -/
def lastReceived? (s : Sanitizer) : List Call → Option (Sanitizer × String)
  | [] => none
  | call :: rest => (lastReceived? (s.after call) rest).or (call.received? s)

/-- No message is among the calls. -/
def Silent (calls : List Call) : Prop := ∀ message, .receive message ∉ calls

theorem Silent.tail {call : Call} {rest : List Call} (h : Silent (call :: rest)) : Silent rest :=
  fun message hm => h message (List.mem_cons_of_mem _ hm)

theorem Silent.head {call : Call} {rest : List Call} (h : Silent (call :: rest)) :
    call.received? s = none := by
  cases call with
  | receive message => exact absurd List.mem_cons_self (h message)
  | _ => rfl

theorem lastReceived?_of_silent {calls : List Call} (h : Silent calls) :
    s.lastReceived? calls = none := by
  induction calls generalizing s with
  | nil => rfl
  | cons call rest ih => rw [lastReceived?, ih h.tail, h.head, Option.or_none]

theorem lastReceived?_append (s : Sanitizer) (calls more : List Call) :
    s.lastReceived? (calls ++ more) =
      ((s.afterAll calls).lastReceived? more).or (s.lastReceived? calls) := by
  induction calls generalizing s with
  | nil => exact Option.or_none.symm
  | cons call rest ih =>
    rw [List.cons_append, lastReceived?, lastReceived?, ih (s.after call), Option.or_assoc]
    rfl

/-- The last message is the one that no other follows. -/
theorem lastReceived?_eq (s : Sanitizer) (calls : List Call) (message : String) {later : List Call}
    (h : Silent later) :
    s.lastReceived? (calls ++ .receive message :: later) = some (s.afterAll calls, message) := by
  rw [lastReceived?_append, lastReceived?, lastReceived?_of_silent h]
  rfl

theorem lastReceived?_eq_none_iff {calls : List Call} :
    s.lastReceived? calls = none ↔ Silent calls := by
  refine ⟨?_, lastReceived?_of_silent⟩
  intro h message hm
  obtain ⟨before, later, rfl⟩ := List.append_of_mem hm
  rw [lastReceived?_append, Option.or_eq_none_iff, lastReceived?, Option.or_eq_none_iff] at h
  cases h.1.2

/-- A sanitizer with the same settings that had no message yet. -/
def fresh (s : Sanitizer) : Sanitizer :=
  { s with
    phase := .idle, verdict := .success, record := {}, asked := none, tree := none,
    output := none }

/-! ## What a message leaves -/

/-- The verdicts of messages that are held back. -/
def rejections : List Verdict := [.speed, .geoposition, .missing, .other]

/-- The answer to a message, and the sanitizer it leaves. -/
inductive Received (r : Bool × Sanitizer) : Prop where
  | unreadable (answer : r.1 = false) (phase : r.2.phase = .unreadable)
    (verdict : r.2.verdict = .parse) (record : r.2.record = {}) (tree : r.2.tree = none)
    (output : r.2.output = none)
  | rejected (answer : r.1 = true) (phase : r.2.phase = .rejected r.2.verdict)
    (verdict : r.2.verdict ∈ rejections) (tree : r.2.tree = none) (output : r.2.output = none)
  | retained (answer : r.1 = true) (phase : r.2.phase = .redacted)
    (verdict : r.2.verdict = .success) (tree : r.2.tree.isSome = true)
    (output : r.2.output = none)

theorem reject_of_success (hs : s.verdict = .success) (v : Verdict) :
    s.reject v = { s with verdict := v, phase := .rejected v } := by
  rw [reject, hs]
  rfl

theorem Received.of_reject {v : Verdict} (hs : s.verdict = .success) (htree : s.tree = none)
    (houtput : s.output = none) (hv : v ∈ rejections) : Received (true, s.reject v) := by
  rw [reject_of_success hs]
  exact .rejected rfl rfl hv htree houtput

theorem Received.of_redact {tree : Json} (hs : s.verdict = .success) (htree : s.tree = none)
    (houtput : s.output = none) : Received (true, s.redact tree) := by
  unfold redact
  dsimp only
  split
  · exact .retained rfl rfl hs rfl houtput
  · exact .of_reject hs htree houtput (by decide)

theorem finish_cases {found : Screening} (f : Filters) (h : found.verdict = .success) :
    (found.finish f).verdict = .success ∨ (found.finish f).verdict = .missing := by
  have hretains : (!found.verdict.retains) = false := by
    rw [h]
    rfl
  rw [Screening.finish, hretains, if_neg Bool.false_ne_true]
  split
  · exact .inr rfl
  · split
    · exact .inr rfl
    · exact .inl h

/-- A message is unreadable, or held back, or retained and redacted. -/
theorem received (s : Sanitizer) (message : String) : Received (s.receive message) := by
  cases hline : hasLineBreak message with
  | true =>
    rw [s.receive_lineBreak hline]
    exact .unreadable rfl rfl rfl rfl rfl rfl
  | false =>
    obtain ⟨found, hread, hagree⟩ := Screening.read_met s.filters message
    have hverdict := hagree.verdict
    rw [receive_eq s hline, hread]
    -- a reason stops the reading, and without one it goes on to the end or breaks off
    cases hreason : (Review.walk s.filters {} (Screening.met message)).2 with
    | some reason =>
      rw [hreason] at hverdict
      have hrejected : found.verdict ∈ rejections := by
        have hreasons : ∀ v ∈ Review.reasons, v ∈ rejections := by decide
        rw [hverdict]
        exact hreasons reason (Review.reason_of_walk hreason)
      exact .of_reject rfl rfl rfl hrejected
    | none =>
      rw [hreason] at hverdict
      rcases outcome_scribed message with ⟨tree, -, htree⟩ | ⟨-, f, hf⟩
      · rw [htree]
        show Received (s.reset.conclude (found, .value tree))
        rw [conclude_value]
        rcases finish_cases s.filters hverdict with h | h
        · rw [h]
          exact .of_redact rfl rfl rfl
        · rw [h]
          exact .of_reject rfl rfl rfl (by decide)
      · rw [hf]
        exact .unreadable rfl rfl rfl rfl rfl rfl

/-! ## What other calls leave -/

/-- A sanitizer has still the message that another one had; its text may have been asked for. -/
structure Follows (s r : Sanitizer) : Prop where
  verdict : s.verdict = r.verdict
  record : s.record = r.record
  tree : s.tree = r.tree
  text : s.phase = r.phase ∧ s.output = r.output ∨
    s.phase = r.emit.2.phase ∧ s.output = some r.emit.1

theorem emit_verdict (s : Sanitizer) : s.emit.2.verdict = s.verdict := by
  unfold Sanitizer.emit
  split
  · rfl
  · split
    · split <;> rfl
    · rfl

theorem emit_again (h : s.output = some r.emit.1) : s.emit = (r.emit.1, s) := by
  rw [emit, h]

theorem Follows.emit_eq (h : s.Follows r) (houtput : r.output = none) : s.emit.1 = r.emit.1 := by
  rcases h.text with ⟨-, ho⟩ | ⟨-, ho⟩
  · rw [emit, emit, ho, houtput, h.tree, h.verdict]
    cases r.tree with
    | none => rfl
    | some t => cases r.verdict.retains <;> rfl
  · rw [emit_again ho]

theorem Follows.emit (h : s.Follows r) (houtput : r.output = none) : s.emit.2.Follows r := by
  -- either the text is asked for now, or it was before and stays
  rcases h.text with ⟨hp, ho⟩ | ⟨-, ho⟩
  · have hemit : s.emit.2 = { s with output := some r.emit.1, phase := r.emit.2.phase } := by
      obtain ⟨hverdict, -, htree, -⟩ := h
      rw [Sanitizer.emit, Sanitizer.emit, ho, houtput, htree, hverdict]
      cases r.tree with
      | none => rw [← hp]
      | some t =>
        cases r.verdict.retains with
        | true => rfl
        | false => rw [← hp]; rfl
    rw [hemit]
    exact ⟨h.verdict, h.record, h.tree, .inr ⟨rfl, rfl⟩⟩
  · rw [emit_again ho]
    exact h

/-- Nothing but a message makes a sanitizer forget a message. -/
theorem Follows.after (h : s.Follows r) (houtput : r.output = none) {call : Call}
    (hcall : call.received? s = none) : (s.after call).Follows r := by
  cases call with
  | receive message => cases hcall
  | emit => exact h.emit houtput
  | emittedSize => exact h.emit houtput
  | activate c => exact ⟨h.verdict, h.record, h.tree, h.text⟩
  | deactivate c => exact ⟨h.verdict, h.record, h.tree, h.text⟩

theorem Follows.afterAll (houtput : r.output = none) {calls : List Call} (hcalls : Silent calls)
    (h : s.Follows r) : (s.afterAll calls).Follows r := by
  induction calls generalizing s with
  | nil => exact h
  | cons call rest ih =>
    exact ih hcalls.tail (h.after houtput hcalls.head)

/-! ## Any calls -/

/-- A sanitizer stands where the last message has left it, or has none as another one. -/
def Stands (start s : Sanitizer) : Option (Sanitizer × String) → Prop
  | none => s.Follows start
  | some (before, message) => s.Follows (before.receive message).2

theorem received_output (s : Sanitizer) (message : String) :
    (s.receive message).2.output = none := by
  cases s.received message <;> assumption

theorem Stands.after {start : Sanitizer} {last : Option (Sanitizer × String)}
    (houtput : start.output = none) (h : start.Stands s last) (call : Call) :
    start.Stands (s.after call) ((call.received? s).or last) := by
  cases hcall : call.received? s with
  | some received =>
    cases call with
    | receive message =>
      obtain rfl : (s, message) = received := Option.some.inj hcall
      -- from now on this message is the last one
      exact ⟨rfl, rfl, rfl, .inl ⟨rfl, rfl⟩⟩
    | _ => cases hcall
  | none =>
    cases last with
    | none => exact Follows.after h houtput hcall
    | some last => exact Follows.after h (received_output last.1 last.2) hcall

theorem Stands.afterAll {start : Sanitizer} {last : Option (Sanitizer × String)}
    (houtput : start.output = none) (calls : List Call) (h : start.Stands s last) :
    start.Stands (s.afterAll calls) ((s.lastReceived? calls).or last) := by
  induction calls generalizing s last with
  | nil => exact h
  | cons call rest ih =>
    have hrest := ih (h.after houtput call)
    rw [← Option.or_assoc] at hrest
    exact hrest

/-! ## Texts -/

theorem emit_of_no_tree (houtput : r.output = none) (htree : r.tree = none) :
    r.emit = ("", { r with output := some "" }) := by
  rw [emit, houtput, htree]

theorem emit_of_tree {tree : Json} (houtput : r.output = none) (hverdict : r.verdict = .success)
    (htree : r.tree = some tree) :
    r.emit = (tree.render, { r with output := some tree.render, phase := .emitted }) := by
  have hretains : r.verdict.retains = true := by
    rw [hverdict]
    rfl
  rw [emit, houtput, htree]
  dsimp only
  rw [hretains, if_pos rfl]

/-- Without a redacted message, nothing is given out and nothing changes. -/
theorem Follows.of_no_tree (h : s.Follows r) (houtput : r.output = none) (htree : r.tree = none) :
    s.phase = r.phase ∧ s.emit.1 = "" ∧ s.emit.2.phase = s.phase := by
  have hemit := emit_of_no_tree houtput htree
  have hphase : ∀ {t : Sanitizer}, t.Follows r → t.phase = r.phase := by
    intro t ht
    rcases ht.text with ⟨hp, -⟩ | ⟨hp, -⟩
    · exact hp
    · rw [hp, hemit]
  refine ⟨hphase h, ?_, ?_⟩
  · rw [h.emit_eq houtput, hemit]
  · rw [hphase h, hphase (h.emit houtput)]

/-- A redacted message is given out, and it is known that it was. -/
theorem Follows.of_tree {tree : Json} (h : s.Follows r) (houtput : r.output = none)
    (hverdict : r.verdict = .success) (hphase : r.phase = .redacted) (htree : r.tree = some tree) :
    (s.phase = .redacted ∨ s.phase = .emitted) ∧ s.emit.1 = tree.render ∧
      s.emit.2.phase = .emitted := by
  have hemit := emit_of_tree houtput hverdict htree
  have htext := h.emit_eq houtput
  rw [hemit] at htext
  rcases h.text with ⟨hp, ho⟩ | ⟨hp, ho⟩
  · have hown := emit_of_tree (ho.trans houtput) (h.verdict.trans hverdict) (h.tree.trans htree)
    refine ⟨.inl (hp.trans hphase), htext, ?_⟩
    rw [hown]
  · rw [hemit] at hp
    refine ⟨.inr hp, htext, ?_⟩
    rw [emit_again ho]
    exact hp

/-- Where a sanitizer stands that has received some messages, and which the last one was. -/
structure Standing (s : Sanitizer) (last : Option (Sanitizer × String)) : Prop where
  finished : s.phase ≠ .reading
  idle : s.phase = .idle ↔ last = none
  retained : s.phase = .redacted ∨ s.phase = .emitted ↔
    ∃ before message, last = some (before, message) ∧
      (before.receive message).2.verdict = .success
  redacted : s.phase = .redacted ∨ s.phase = .emitted →
    ∃ before message tree, last = some (before, message) ∧ Json.parse message = .ok tree ∧
      s.tree = some (before.redacted tree)
  rejected : ∀ v, s.phase = .rejected v → v = s.verdict ∧ v ∈ rejections
  unreadable : s.phase = .unreadable ↔ s.verdict = .parse
  refused : s.phase = .unreadable ↔
    ∃ before message, last = some (before, message) ∧ (before.receive message).1 = false
  forgotten : s.phase = .unreadable → s.record = {}
  nothing : s.phase ≠ .redacted → s.phase ≠ .emitted →
    s.emit.1 = "" ∧ s.emit.2.verdict = s.verdict ∧ s.emit.2.record = s.record ∧
      s.emit.2.phase = s.phase
  something : s.phase = .redacted ∨ s.phase = .emitted →
    s.emit.1 ≠ "" ∧ s.emit.2.phase = .emitted
  steady : ∀ later, Silent later →
    (s.afterAll later).emit.1 = s.emit.1 ∧
      (s.afterAll later).emittedSize.1 = s.emit.1.utf8ByteSize

theorem Follows.steady (h : s.Follows r) (houtput : r.output = none) {later : List Call}
    (hlater : Silent later) :
    (s.afterAll later).emit.1 = s.emit.1 ∧
      (s.afterAll later).emittedSize.1 = s.emit.1.utf8ByteSize := by
  have htext : (s.afterAll later).emit.1 = s.emit.1 := by
    rw [(h.afterAll houtput hlater).emit_eq houtput, h.emit_eq houtput]
  exact ⟨htext, congrArg String.utf8ByteSize htext⟩

/-- Before its first message, a sanitizer has nothing to give out. -/
theorem standing_of_fresh (h : s.Follows r.fresh) : s.Standing none := by
  obtain ⟨hphase, hemit, hafter⟩ := h.of_no_tree rfl rfl
  have hidle : s.phase = .idle := hphase
  have hverdict : s.verdict = .success := h.verdict
  have hfollows := h.emit rfl
  constructor
  case nothing =>
    exact fun _ _ => ⟨hemit, hfollows.verdict.trans h.verdict.symm,
      hfollows.record.trans h.record.symm, hafter⟩
  case steady => exact fun later hlater => h.steady rfl hlater
  all_goals simp [hidle, hverdict]

/-- A sanitizer stands where its last message has left it. -/
theorem standing_of_received {before : Sanitizer} (h : s.Follows (before.receive message).2) :
    s.Standing (some (before, message)) := by
  have houtput := received_output before message
  have hsteady := fun (later : List Call) (hlater : Silent later) => h.steady houtput hlater
  have hfollows := h.emit houtput
  have hverdict' := hfollows.verdict.trans h.verdict.symm
  have hrecord' := hfollows.record.trans h.record.symm
  -- the first two ways leave no tree, so nothing is given out and the phase stays
  cases before.received message with
  | unreadable answer phase verdict record tree _ =>
    obtain ⟨hphase, hemit, hafter⟩ := h.of_no_tree houtput tree
    have hv : s.verdict = .parse := h.verdict.trans verdict
    have hp : s.phase = .unreadable := hphase.trans phase
    constructor
    case forgotten => exact fun _ => h.record.trans record
    case nothing => exact fun _ _ => ⟨hemit, hverdict', hrecord', hafter⟩
    case steady => exact hsteady
    all_goals simp [hp, hv, answer, verdict]
  | rejected answer phase verdict tree _ =>
    obtain ⟨hphase, hemit, hafter⟩ := h.of_no_tree houtput tree
    rw [← h.verdict] at phase verdict
    have hp : s.phase = .rejected s.verdict := hphase.trans phase
    have hsuccess : s.verdict ≠ .success := by
      intro he
      rw [he] at verdict
      exact absurd verdict (by decide)
    have hparse : s.verdict ≠ .parse := by
      intro he
      rw [he] at verdict
      exact absurd verdict (by decide)
    constructor
    case rejected =>
      intro v hv
      obtain rfl : s.verdict = v := Phase.rejected.inj (hp.symm.trans hv)
      exact ⟨rfl, verdict⟩
    case nothing => exact fun _ _ => ⟨hemit, hverdict', hrecord', hafter⟩
    case steady => exact hsteady
    all_goals simp [hp, answer, ← h.verdict, hsuccess, hparse]
  | retained answer phase verdict _ _ =>
    obtain ⟨tree, d, hparse, -, hd, htree, -⟩ := retained_cases verdict
    obtain ⟨hp, hemit, hafter⟩ := h.of_tree houtput verdict phase htree
    have hv : s.verdict = .success := h.verdict.trans verdict
    have hkept : s.tree = some (before.redacted tree) := by
      rw [h.tree, htree, hd.edited, redacted]
    constructor
    case redacted => exact fun _ => ⟨before, message, tree, rfl, hparse, hkept⟩
    case something => exact fun _ => ⟨hemit ▸ Json.render_ne_empty _, hafter⟩
    case steady => exact hsteady
    all_goals rcases hp with hp | hp <;> simp [hp, hv, answer, verdict]

/--
**A sanitizer stands where the last message has left it.** After any calls, it is never found
reading. It is idle until the first message, holds the redacted message if the last one is retained,
knows the reason if that is held back, and has forgotten everything if it is unreadable. A text is
given out for retained messages only, always the same one until the next message, whatever is turned
on and off in between.
-/
theorem standing_afterAll (s : Sanitizer) (calls : List Call) :
    let last := s.fresh.lastReceived? calls
    (s.fresh.afterAll calls).Standing last ∧
      (last = none ↔ ∀ message, .receive message ∉ calls) ∧
      ∀ earlier message later, calls = earlier ++ .receive message :: later → Silent later →
        last = some (s.fresh.afterAll earlier, message) := by
  have hstart : s.fresh.Stands s.fresh none := ⟨rfl, rfl, rfl, .inl ⟨rfl, rfl⟩⟩
  have hstands := hstart.afterAll rfl calls
  rw [Option.or_none] at hstands
  refine ⟨?_, lastReceived?_eq_none_iff, ?_⟩
  · cases hlast : s.fresh.lastReceived? calls with
    | none =>
      rw [hlast] at hstands
      exact standing_of_fresh hstands
    | some last =>
      rw [hlast] at hstands
      exact standing_of_received hstands
  · intro earlier message later hcalls hlater
    subst hcalls
    exact lastReceived?_eq s.fresh earlier message hlater

end Sanitizer

end VehiclePrivacy
