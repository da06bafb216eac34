import VehiclePrivacy.Proofs.Sanitizer.Calls

/-!
# What a sanitizer knows of earlier messages

Two sanitizers with the same settings may have been through different messages. What they make of the
next one is the same (`receive_forgets`), so nothing of an earlier message can show in a later one.

Of all that a sanitizer holds, it begins a message only with its settings, its buffer distance, and
its source of random pseudonyms. With a fixed pseudonym the last two are never looked at: a sanitizer
with others goes through the same states (`receive_drawing`).
-/

namespace VehiclePrivacy

/-! ## Redaction without randomness -/

namespace Draft

/-- The draft with another source of randomness. -/
def drawing (d : Draft) (entropy : StdGen) : Draft := { d with entropy }

variable {d : Draft} {g : StdGen}

@[simp] theorem drawing_tree : (d.drawing g).tree = d.tree := rfl

@[simp] theorem drawing_record : (d.drawing g).record = d.record := rfl

@[simp] theorem drawing_entropy : (d.drawing g).entropy = g := rfl

/-- A step of a redaction makes no use of randomness. -/
def Indifferent (step : Draft → Result) : Prop :=
  ∀ d g, step (d.drawing g) = ((step d).1.drawing g, (step d).2)

theorem Indifferent.keep : Indifferent fun d => (d, none) := fun _ _ => rfl

theorem Indifferent.andThen {step next : Draft → Result} (hstep : Indifferent step)
    (hnext : Indifferent next) : Indifferent fun d => (step d).andThen next := by
  intro d g
  have hd := hstep d g
  dsimp only
  generalize step (d.drawing g) = drawn at hd
  generalize step d = result at hd
  obtain ⟨d', error⟩ := result
  subst hd
  cases error with
  | none => exact hnext d' g
  | some e => rfl

theorem Indifferent.ite {b : Bool} {step next : Draft → Result} (hstep : Indifferent step)
    (hnext : Indifferent next) : Indifferent fun d => if b then step d else next d := by
  intro d g
  cases b with
  | true => exact hstep d g
  | false => exact hnext d g

theorem indifferent_put (p : Json.Path) (v : Json) (note : Record → Record) :
    Indifferent (put · p v note) := by
  intro d g
  simp only [put, drawing_tree]
  cases d.tree.set? p v <;> rfl

theorem indifferent_redactId {r : IdRule} {text : String} (h : r.pseudonym = .fixed text) :
    Indifferent (redactId r) := by
  have hdraw : ∀ id g, r.redact? id g = (if r.applies id then some text else none, g) := by
    intro id g
    rw [IdRule.redact?, h]
    cases r.applies id <;> rfl
  intro d g
  simp only [redactId, drawing_record, drawing_entropy, hdraw]
  cases d.record.id with
  | none => rfl
  | some id =>
    cases d.record.idAt with
    | none => rfl
    | some p =>
      dsimp only
      cases r.applies id with
      | false => rfl
      | true => exact indifferent_put p _ _ d g

/-- A step at a place that the record may know. -/
theorem Indifferent.placed {f : Record → Option Json.Path} {step : Json.Path → Draft → Result}
    (h : ∀ p, Indifferent (step p)) : Indifferent fun d =>
      match f d.record with
      | some p => step p d
      | none => (d, none) := by
  intro d g
  simp only [drawing_record]
  cases f d.record with
  | none => rfl
  | some p => exact h p d g

theorem indifferent_redactWidth (r : SizeRule) : Indifferent (redactWidth r) :=
  Indifferent.placed (f := Record.widthAt) fun p => indifferent_put p r.value _

theorem indifferent_redactLength (r : SizeRule) : Indifferent (redactLength r) :=
  Indifferent.placed (f := Record.lengthAt) fun p => indifferent_put p r.value _

theorem indifferent_redactPartII (l : MemberList) : Indifferent (redactPartII l) := by
  intro d g
  simp only [redactPartII, drawing_record, drawing_tree]
  cases d.record.partIIAt with
  | none => rfl
  | some p =>
    cases hblock : d.tree.get? p with
    | none => simp only [hblock]
    | some block =>
      simp only [hblock]
      cases l.redact? block with
      | none => rfl
      | some result => exact indifferent_put p _ _ d g

end Draft

open Draft in
/-- With a fixed pseudonym, a redaction makes no use of randomness. -/
theorem Rules.indifferent_redact {r : Rules} {text : String} (h : r.id.pseudonym = .fixed text)
    (ids sizes partII : Bool) : Indifferent (r.redact ids sizes partII) :=
  have hid := (indifferent_redactId h).ite (b := ids) .keep
  have hsize := ((indifferent_redactWidth r.size).andThen
    (indifferent_redactLength r.size)).ite (b := sizes) .keep
  have hpartII := (indifferent_redactPartII r.partII).ite (b := partII) .keep
  (hid.andThen hsize).andThen hpartII

namespace Sanitizer

variable {s r : Sanitizer} {message text : String}

/-! ## A message without randomness -/

/-- The sanitizer with another buffer distance and source of randomness. -/
def drawing (s : Sanitizer) (buffer : Float) (entropy : StdGen) : Sanitizer :=
  { s with buffer, entropy }

theorem redact_drawing (h : s.rules.id.pseudonym = .fixed text) (b : Float) (g : StdGen)
    (tree : Json) : (s.drawing b g).redact tree = (s.redact tree).drawing b g := by
  have hredact := Rules.indifferent_redact h (s.isActive .idRedaction) (s.isActive .sizeRedaction)
    (s.isActive .partIIRedaction) ⟨tree, s.record, s.entropy⟩ g
  rw [redact, redact]
  generalize hresult : s.rules.redact (s.isActive .idRedaction) (s.isActive .sizeRedaction)
    (s.isActive .partIIRedaction) ⟨tree, s.record, s.entropy⟩ = result at hredact ⊢
  obtain ⟨d, error⟩ := result
  -- both sides redact the same draft but for its randomness
  have hdrawn : (s.drawing b g).rules.redact ((s.drawing b g).isActive .idRedaction)
      ((s.drawing b g).isActive .sizeRedaction) ((s.drawing b g).isActive .partIIRedaction)
      ⟨tree, (s.drawing b g).record, (s.drawing b g).entropy⟩ = (d.drawing g, error) := hredact
  rw [hdrawn]
  cases error <;> rfl

theorem conclude_drawing (h : s.rules.id.pseudonym = .fixed text) (b : Float) (g : StdGen)
    (screened : Screening × Json.Outcome) :
    (s.drawing b g).reset.conclude screened =
      ((s.reset.conclude screened).1, (s.reset.conclude screened).2.drawing b g) := by
  obtain ⟨found, outcome⟩ := screened
  cases outcome with
  | fault f => rfl
  | stopped => rfl
  | value tree =>
    have hfilters : (s.drawing b g).filters = s.filters := rfl
    rw [conclude_value, conclude_value, hfilters]
    -- the filters are read from fields that are the same on both sides
    cases (found.finish s.filters).verdict.retains with
    | true => exact congrArg (Prod.mk true) (redact_drawing (s := s.taking found) h b g tree)
    | false => rfl

/-- With a fixed pseudonym, buffer distance and randomness have no part in what a message leads to. -/
theorem receive_drawing (h : s.rules.id.pseudonym = .fixed text) (b : Float) (g : StdGen)
    (message : String) :
    (s.drawing b g).receive message =
      ((s.receive message).1, (s.receive message).2.drawing b g) := by
  cases hline : hasLineBreak message with
  | true =>
    rw [receive_lineBreak _ hline, receive_lineBreak _ hline]
    rfl
  | false =>
    rw [receive_eq _ hline, receive_eq _ hline]
    exact conclude_drawing h b g _

/-! ## What stays from message to message -/

/-- Two sanitizers treat messages by the same rules. -/
structure Agrees (s r : Sanitizer) : Prop where
  active : s.active = r.active
  rules : s.rules = r.rules
  speeds : s.speeds = r.speeds
  within : s.within = r.within

theorem Agrees.refl (s : Sanitizer) : s.Agrees s := ⟨rfl, rfl, rfl, rfl⟩

theorem Agrees.symm (h : s.Agrees r) : r.Agrees s :=
  ⟨h.active.symm, h.rules.symm, h.speeds.symm, h.within.symm⟩

theorem Agrees.trans {t : Sanitizer} (h : s.Agrees r) (h' : r.Agrees t) : s.Agrees t :=
  ⟨h.active.trans h'.active, h.rules.trans h'.rules, h.speeds.trans h'.speeds,
    h.within.trans h'.within⟩

theorem agrees_redact (s : Sanitizer) (tree : Json) : (s.redact tree).Agrees s := by
  unfold redact
  dsimp only
  split <;> exact ⟨rfl, rfl, rfl, rfl⟩

/-- A message changes nothing of how messages are treated. -/
theorem agrees_receive (s : Sanitizer) (message : String) : (s.receive message).2.Agrees s := by
  unfold receive conclude
  dsimp only
  split
  · exact ⟨rfl, rfl, rfl, rfl⟩
  · split
    · exact ⟨rfl, rfl, rfl, rfl⟩
    · exact ⟨rfl, rfl, rfl, rfl⟩
    · split
      · obtain ⟨hactive, hrules, hspeeds, hwithin⟩ := agrees_redact _ _
        exact ⟨hactive, hrules, hspeeds, hwithin⟩
      · exact ⟨rfl, rfl, rfl, rfl⟩

theorem agrees_emit (s : Sanitizer) : s.emit.2.Agrees s := by
  unfold emit
  split
  · exact ⟨rfl, rfl, rfl, rfl⟩
  · split
    · split <;> exact ⟨rfl, rfl, rfl, rfl⟩
    · exact ⟨rfl, rfl, rfl, rfl⟩

/-- Calls turn capabilities on and off, and change nothing else of how messages are treated. -/
theorem afterAll_settings (s : Sanitizer) (calls : List Call) :
    (s.afterAll calls).rules = s.rules ∧ (s.afterAll calls).speeds = s.speeds ∧
      (s.afterAll calls).within = s.within := by
  have hcall : ∀ (s : Sanitizer) call, (s.after call).rules = s.rules ∧
      (s.after call).speeds = s.speeds ∧ (s.after call).within = s.within := by
    intro s call
    cases call with
    | receive message =>
      have h := agrees_receive s message
      exact ⟨h.rules, h.speeds, h.within⟩
    | emit =>
      have h := agrees_emit s
      exact ⟨h.rules, h.speeds, h.within⟩
    | emittedSize =>
      have h := agrees_emit s
      exact ⟨h.rules, h.speeds, h.within⟩
    | activate c => exact ⟨rfl, rfl, rfl⟩
    | deactivate c => exact ⟨rfl, rfl, rfl⟩
  induction calls generalizing s with
  | nil => exact ⟨rfl, rfl, rfl⟩
  | cons call rest ih =>
    obtain ⟨hrules, hspeeds, hwithin⟩ := ih (s.after call)
    obtain ⟨hrules', hspeeds', hwithin'⟩ := hcall s call
    exact ⟨hrules.trans hrules', hspeeds.trans hspeeds', hwithin.trans hwithin'⟩

/-! ## What a message finds -/

/-- Two sanitizers show the same of the message at hand. -/
structure Alike (s r : Sanitizer) : Prop where
  phase : s.phase = r.phase
  verdict : s.verdict = r.verdict
  record : s.record = r.record
  asked : s.asked = r.asked
  tree : s.tree = r.tree
  output : s.output = r.output
  block : ∀ block, s.redactBlock block = r.redactBlock block

theorem alike_drawing (s : Sanitizer) (b : Float) (g : StdGen) : s.Alike (s.drawing b g) :=
  ⟨rfl, rfl, rfl, rfl, rfl, rfl, fun _ => rfl⟩

theorem emit_drawing (s : Sanitizer) (b : Float) (g : StdGen) :
    (s.drawing b g).emit = (s.emit.1, s.emit.2.drawing b g) := by
  have houtput : (s.drawing b g).output = s.output := rfl
  have htree : (s.drawing b g).tree = s.tree := rfl
  have hverdict : (s.drawing b g).verdict = s.verdict := rfl
  rw [emit, emit, houtput, htree, hverdict]
  cases s.output with
  | some text => rfl
  | none =>
    cases s.tree with
    | none => rfl
    | some tree => cases s.verdict.retains <;> rfl

/-- What a message leads to depends on nothing but how messages are treated. -/
theorem receive_of_agrees (h : s.Agrees r) (hfixed : s.rules.id.pseudonym = .fixed text)
    (message : String) :
    r.receive message =
      ((s.receive message).1, (s.receive message).2.drawing r.buffer r.entropy) := by
  have hreset : r.reset = s.reset.drawing r.buffer r.entropy := by
    obtain ⟨hactive, hrules, hspeeds, hwithin⟩ := h
    rw [reset, reset, drawing, hactive, hrules, hspeeds, hwithin]
  calc r.receive message
    _ = r.reset.receive message := rfl
    _ = (s.reset.drawing r.buffer r.entropy).receive message := by rw [hreset]
    _ = ((s.reset.receive message).1, (s.reset.receive message).2.drawing r.buffer r.entropy) :=
      receive_drawing hfixed r.buffer r.entropy message

/--
**Nothing is known of earlier messages.** Two sanitizers may be of any past and may have been called
in any way since. If they have the same rules, with a fixed pseudonym, the same filters, and by now
the same active capabilities, then they answer the next message alike, show the same of it, and give
out the same text.
-/
theorem receive_forgets {pseudonym : String} (s r : Sanitizer) (calls calls' : List Call)
    (message : String) (hfixed : s.rules.id.pseudonym = .fixed pseudonym) (hrules : s.rules = r.rules)
    (hspeeds : s.speeds = r.speeds) (hwithin : s.within = r.within)
    (hactive : (s.afterAll calls).active = (r.afterAll calls').active) :
    let result := (s.afterAll calls).receive message
    let result' := (r.afterAll calls').receive message
    result.1 = result'.1 ∧ result.2.Alike result'.2 ∧
      result.2.emit.1 = result'.2.emit.1 ∧ result.2.emit.2.Alike result'.2.emit.2 := by
  intro result result'
  obtain ⟨hrules₁, hspeeds₁, hwithin₁⟩ := s.afterAll_settings calls
  obtain ⟨hrules₂, hspeeds₂, hwithin₂⟩ := r.afterAll_settings calls'
  have hagrees : (s.afterAll calls).Agrees (r.afterAll calls') :=
    ⟨hactive, by rw [hrules₁, hrules₂, hrules], by rw [hspeeds₁, hspeeds₂, hspeeds],
      by rw [hwithin₁, hwithin₂, hwithin]⟩
  have hresult := receive_of_agrees hagrees (by rw [hrules₁, hfixed]) message
  have hemit := emit_drawing result.2 (r.afterAll calls').buffer (r.afterAll calls').entropy
  rw [show result' = _ from hresult, hemit]
  exact ⟨rfl, alike_drawing _ _ _, rfl, alike_drawing _ _ _⟩

/-- So it is for a sanitizer that has given out a message and one that could not read its only one. -/
theorem receive_forgets_of_pasts :
    let s := ofSettings {} (fun _ => true) (mkStdGen 7)
    let r := ofSettings {} (fun _ => true) (mkStdGen 8)
    let calls := [.receive "\x7b\"id\":\"A1\",\"speed\":20,\"lat\":1,\"lon\":2\x7d", .emit]
    let calls' := [.activate .sizeRedaction, .receive "[", .deactivate .sizeRedaction]
    let message := "\x7b\"speed\":5,\"lat\":3,\"lon\":4\x7d"
    let result := (s.afterAll calls).receive message
    let result' := (r.afterAll calls').receive message
    (s.afterAll calls).verdict = .success ∧ (r.afterAll calls').verdict = .parse ∧
      (s.afterAll calls).active = (r.afterAll calls').active ∧
      result.2.verdict = .success ∧ result.2.Alike result'.2 ∧
      result.2.emit.1 = result'.2.emit.1 := by
  intro s r calls calls' message result result'
  have hactive : (s.afterAll calls).active = (r.afterAll calls').active := by decide +kernel
  obtain ⟨-, halike, htext, -⟩ :=
    receive_forgets s r calls calls' message rfl rfl rfl rfl hactive
  have hretained : result.2.verdict = .success := by decide +kernel
  exact ⟨by decide +kernel, by decide +kernel, hactive, hretained, halike, htext⟩

end Sanitizer

end VehiclePrivacy
