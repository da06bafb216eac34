import VehiclePrivacy.Proofs.Feed.Lines
import VehiclePrivacy.Proofs.Sanitizer.Forgetting

/-!
# What a feed comes to

One sanitizer takes all messages of a feed, and one tally counts them. Still each line fares as if it
came alone: with a fixed pseudonym, what is written and counted is said by the lines one by one
(`run_accounts`). `Accounts` is what a run has settled behind some lines, `Accounts.line` goes on by
one line, and the end of the feed is reached by induction.
-/

namespace VehiclePrivacy

/-! ## Counting -/

namespace Tally

variable {t : Tally} {v w : Verdict}

@[simp] theorem record_processed : (t.record v).processed = t.processed + 1 := by cases v <;> rfl

@[simp] theorem record_octetsOut : (t.record v).octetsOut = t.octetsOut := by cases v <;> rfl

theorem record_count : (t.record v).count w = t.count w + if v = w then 1 else 0 := by
  cases v <;> cases w <;> rfl

/-- The counts of a tally add up. -/
structure Balanced (t : Tally) : Prop where
  processed : t.processed = t.retained + t.suppressed
  suppressed : t.suppressed = t.speed + t.geoposition + t.parse + t.missing + t.other

theorem Balanced.record (h : t.Balanced) (v : Verdict) : (t.record v).Balanced := by
  obtain ⟨hprocessed, hsuppressed⟩ := h
  cases v <;> constructor <;> simp only [Tally.record] <;> omega

end Tally

namespace Feed

open Sanitizer

variable {s : Sanitizer} {l : Line} {ls : List Line} {r : Run} {text : String}

/-! ## A line on its own -/

/-- What becomes of a line, if it is the first one of a sanitizer. -/
def Line.verdict? (s : Sanitizer) : Line → Option Verdict
  | .unreadable => some .parse
  | .blank => none
  | .message m => some (s.fresh.receive m).2.verdict

/-- The text that is written for a line, if it is the first one of a sanitizer. -/
def Line.text? (s : Sanitizer) : Line → Option String
  | .message m =>
    if (s.fresh.receive m).2.verdict = .success then some (s.fresh.receive m).2.emit.1 else none
  | _ => none

/-- A text with a line feed, in octets. -/
def written (text : String) : List UInt8 := text.toUTF8.data.toList ++ [lineFeed]

/-- What is written for a line, in octets. -/
def Line.octets (s : Sanitizer) (l : Line) : List UInt8 := (l.text? s).toList.flatMap written

/-- A tally after a line. -/
def Line.settle (s : Sanitizer) (l : Line) (t : Tally) : Tally :=
  match l.verdict? s with
  | none => t
  | some v => { t with octetsOut := t.octetsOut + (l.octets s).length }.record v

section Line

variable {m : String} {t : Tally}

theorem text?_isSome : (l.text? s).isSome = true ↔ l.verdict? s = some .success := by
  cases l with
  | unreadable => simp [Line.text?, Line.verdict?]
  | blank => simp [Line.text?, Line.verdict?]
  | message m => simp [Line.text?, Line.verdict?]

theorem octets_of_retained (h : (s.fresh.receive m).2.verdict = .success) :
    (Line.message m).octets s = written (s.fresh.receive m).2.emit.1 := by
  rw [Line.octets, Line.text?, if_pos h]
  exact List.flatMap_singleton ..

theorem octets_of_suppressed (h : (s.fresh.receive m).2.verdict ≠ .success) :
    (Line.message m).octets s = [] := by
  rw [Line.octets, Line.text?, if_neg h]
  rfl

/-- What is written for a line is one line. -/
theorem plain_of_text? (h : l.text? s = some text) : Text.Plain text.toList := by
  cases l with
  | unreadable => cases h
  | blank => cases h
  | message m =>
    rw [Line.text?] at h
    split at h
    · rename_i hretained
      obtain ⟨tree, -, hemit, -⟩ := emit_receive s.fresh hretained
      obtain rfl := Option.some.inj h
      rw [hemit]
      exact Json.plain_render _
    · cases h

theorem settle_octetsOut : (l.settle s t).octetsOut = t.octetsOut + (l.octets s).length := by
  cases l with
  | blank => rfl
  | unreadable => exact Tally.record_octetsOut
  | message m => exact Tally.record_octetsOut

theorem settle_processed :
    (l.settle s t).processed = t.processed + if l ≠ .blank then 1 else 0 := by
  cases l with
  | blank => rfl
  | unreadable => exact Tally.record_processed
  | message m => exact Tally.record_processed

theorem settle_count {v : Verdict} :
    (l.settle s t).count v = t.count v + if l.verdict? s = some v then 1 else 0 := by
  have hcount : ∀ n, ({ t with octetsOut := n } : Tally).count v = t.count v := by
    intro n
    cases v <;> rfl
  rw [Line.settle]
  cases l.verdict? s with
  | none => rfl
  | some w =>
    dsimp only
    rw [Tally.record_count, hcount]
    simp only [Option.some.injEq]

theorem settle_balanced (h : t.Balanced) : (l.settle s t).Balanced := by
  rw [Line.settle]
  cases l.verdict? s with
  | none => exact h
  | some v =>
    have hoctets : ∀ n, ({ t with octetsOut := n } : Tally).Balanced :=
      fun n => ⟨h.processed, h.suppressed⟩
    exact (hoctets _).record v

end Line

/-! ## A run -/

/-- What a run has settled behind some lines. -/
structure Accounts (s : Sanitizer) (ls : List Line) (r : Run) : Prop where
  agrees : s.fresh.Agrees r.sanitizer
  unfailing : r.error = none
  output : r.output = (ls.filterMap (Line.text? s)).flatMap written
  octetsOut : r.tally.octetsOut = r.output.length
  processed : r.tally.processed = ls.countP (· ≠ .blank)
  count : ∀ v, r.tally.count v = ls.countP fun l => l.verdict? s = some v
  balanced : r.tally.Balanced

theorem accounts_start (s : Sanitizer) : Accounts s [] { sanitizer := s } where
  agrees := ⟨rfl, rfl, rfl, rfl⟩
  unfailing := rfl
  output := rfl
  octetsOut := rfl
  processed := rfl
  count v := by cases v <;> rfl
  balanced := ⟨rfl, rfl⟩

/-- A run that takes a line as if it came alone keeps its accounts. -/
theorem Accounts.next (h : Accounts s ls r) {r' : Run} (hagrees : s.fresh.Agrees r'.sanitizer)
    (hunfailing : r'.error = none) (houtput : r'.output = r.output ++ l.octets s)
    (htally : r'.tally = l.settle s r.tally) : Accounts s (ls ++ [l]) r' where
  agrees := hagrees
  unfailing := hunfailing
  output := by
    have hlast : [l].filterMap (Line.text? s) = (l.text? s).toList := by
      cases htext : l.text? s <;> simp [htext]
    rw [houtput, h.output, List.filterMap_append, List.flatMap_append, hlast, Line.octets]
  octetsOut := by rw [htally, settle_octetsOut, houtput, List.length_append, h.octetsOut]
  processed := by simp [htally, settle_processed, h.processed, List.countP_append,
    List.countP_singleton]
  count v := by simp [htally, settle_count, h.count v, List.countP_append,
    List.countP_singleton]
  balanced := htally ▸ settle_balanced h.balanced

/-- A message fares as if it came alone, whatever was received before. -/
theorem Accounts.receive (h : Accounts s ls r) (hfixed : s.rules.id.pseudonym = .fixed text)
    (m : String) :
    (r.sanitizer.receive m).2.verdict = (s.fresh.receive m).2.verdict ∧
      (r.sanitizer.receive m).2.emit.1 = (s.fresh.receive m).2.emit.1 := by
  rw [receive_of_agrees h.agrees hfixed m, emit_drawing]
  exact ⟨rfl, rfl⟩

theorem message_retained {after : Sanitizer} {m : String} (hr : r.error = none)
    (hafter : (r.sanitizer.receive m).2 = after) (h : after.verdict = .success) :
    (r.message {} m).sanitizer = after.emit.2 ∧ (r.message {} m).error = none ∧
      (r.message {} m).output = r.output ++ written after.emit.1 ∧
      (r.message {} m).tally = Tally.record { r.tally with
        octetsOut := r.tally.octetsOut + (written after.emit.1).length } .success := by
  have hretains : after.verdict.retains = true := decide_eq_true h
  have hverdict : after.emit.2.verdict = .success := by rw [emit_verdict, h]
  have houtput : (written after.emit.1 :: r.written).reverse.flatten =
      r.output ++ written after.emit.1 := by
    simp [Run.output]
  rw [Run.message]
  dsimp only
  rw [hafter, if_pos hretains]
  simp only [Run.write, hr, Run.countMessage, hverdict]
  exact ⟨trivial, trivial, houtput, rfl⟩

theorem message_suppressed {sink : Sink} {m : String}
    (h : (r.sanitizer.receive m).2.verdict ≠ .success) :
    r.message sink m = Run.countMessage { r with sanitizer := (r.sanitizer.receive m).2 } := by
  have hretains : (r.sanitizer.receive m).2.verdict.retains = false := decide_eq_false h
  rw [Run.message]
  dsimp only
  rw [hretains]
  rfl

theorem Accounts.message (h : Accounts s ls r) (hfixed : s.rules.id.pseudonym = .fixed text)
    (m : String) : Accounts s (ls ++ [.message m]) (r.message {} m) := by
  obtain ⟨hverdict, hemit⟩ := h.receive hfixed m
  have hagrees : s.fresh.Agrees (r.sanitizer.receive m).2 :=
    h.agrees.trans (agrees_receive r.sanitizer m).symm
  -- the verdict is the one of a fresh sanitizer, so the run and the line take the same branch
  by_cases hretained : (r.sanitizer.receive m).2.verdict = .success
  · obtain ⟨hsanitizer, hunfailing, houtput, htally⟩ := message_retained h.unfailing rfl hretained
    rw [hverdict] at hretained
    have hoctets := octets_of_retained hretained
    rw [← hemit] at hoctets
    refine h.next ?_ hunfailing ?_ ?_
    · rw [hsanitizer]
      exact hagrees.trans (agrees_emit _).symm
    · rw [houtput, hoctets]
    · rw [htally, Line.settle, hoctets, Line.verdict?, hretained]
  · rw [message_suppressed hretained]
    rw [hverdict] at hretained
    have hoctets := octets_of_suppressed hretained
    refine h.next hagrees h.unfailing ?_ ?_
    · rw [hoctets, List.append_nil]
      rfl
    · rw [Line.settle, hoctets, Line.verdict?, ← hverdict]
      rfl

theorem Accounts.line (h : Accounts s ls r) (hfixed : s.rules.id.pseudonym = .fixed text)
    (octets : List UInt8) : Accounts s (ls ++ [Line.of octets]) (Run.line {} r octets) := by
  rw [Run.line, h.unfailing, Line.of]
  cases String.fromUTF8? octets.toByteArray with
  | none => exact h.next h.agrees rfl (List.append_nil _).symm rfl
  | some text =>
    dsimp only
    rw [message?_eq]
    split
    · exact h.next h.agrees h.unfailing (List.append_nil _).symm rfl
    · exact h.message hfixed _

theorem Accounts.lines (hfixed : s.rules.id.pseudonym = .fixed text)
    (octets : List (List UInt8)) (h : Accounts s ls r) :
    Accounts s (ls ++ octets.map Line.of) (octets.foldl (Run.line {}) r) := by
  induction octets generalizing ls r with
  | nil =>
    rw [List.map_nil, List.append_nil]
    exact h
  | cons first rest ih =>
    -- the line just taken joins those behind
    have hrest := ih (h.line hfixed first)
    rw [List.append_assoc] at hrest
    exact hrest

theorem count_written {texts : List String}
    (h : ∀ text ∈ texts, Text.Plain text.toList) :
    (texts.flatMap written).count lineFeed = texts.length := by
  induction texts with
  | nil => rfl
  | cons text rest ih =>
    rw [List.forall_mem_cons] at h
    have hnone : lineFeed ∉ text.toUTF8.data.toList := Text.lineFeed_notMem_octets h.1
    rw [List.flatMap_cons, List.count_append, ih h.2, written, List.count_append,
      List.count_eq_zero_of_not_mem hnone, List.length_cons]
    simp
    omega

/--
**A feed comes to what its lines come to.** A run that cannot fail to read or write ends with a
tally, and so it is: the octets are cut behind each line feed. What is written are the texts of the
retained messages in their order, one a line, as each would be given out by a sanitizer without a
past; no text has a control character below the space, so there are as many line feeds as retained
messages. All lines are counted but blank ones, every one by its own verdict, and the counts add up.
-/
theorem run_accounts {pseudonym : String} (s : Sanitizer) (octets : List UInt8)
    (hfixed : s.rules.id.pseudonym = .fixed pseudonym) :
    let ls := (lines octets).map Line.of
    let texts := ls.filterMap (Line.text? s)
    let r := run s ⟨octets, none⟩ {}
    (∀ cut, Cut cut octets ↔ cut = lines octets) ∧
      (∀ text ∈ texts, ∀ c ∈ text.toList, 0x20 ≤ c.toNat) ∧
      ∃ t, r.outcome = .ok t ∧
        r.output = texts.flatMap (fun text => text.toUTF8.data.toList ++ [lineFeed]) ∧
        r.output.count lineFeed = t.retained ∧
        t.octetsOut = r.output.length ∧
        t.processed = ls.countP (· ≠ .blank) ∧
        t.processed = t.retained + t.suppressed ∧
        t.suppressed = t.speed + t.geoposition + t.parse + t.missing + t.other ∧
        ∀ v, t.count v = ls.countP fun l => l.verdict? s = some v := by
  intro ls texts r
  have hlines : Accounts s ls ((lines octets).foldl (Run.line {}) { sanitizer := s }) :=
    (accounts_start s).lines hfixed (lines octets)
  have hend : r = (lines octets).foldl (Run.line {}) { sanitizer := s } := by
    have hcomplete : (⟨octets, none⟩ : Source).completeLines = lines octets := rfl
    show Run.finish _ _ _ = _
    rw [Run.finish, hcomplete, hlines.unfailing]
  have h : Accounts s ls r := hend ▸ hlines
  have hplain : ∀ text ∈ texts, Text.Plain text.toList := by
    intro text htext
    obtain ⟨l, -, hl⟩ := List.mem_filterMap.mp htext
    exact plain_of_text? hl
  have houtcome : r.outcome = .ok r.tally := by
    rw [Run.outcome, h.unfailing]
  have hretained : texts.length = r.tally.retained := by
    have hcount := h.count .success
    simp only [← text?_isSome, Bool.decide_eq_true] at hcount
    rw [List.length_filterMap_eq_countP]
    exact hcount.symm
  refine ⟨fun cut => cut_iff, hplain, r.tally, houtcome, h.output, ?_, h.octetsOut, h.processed,
    h.balanced.processed, h.balanced.suppressed, h.count⟩
  rw [h.output, count_written hplain, hretained]

/-- So it is for a feed of a message with both line breaks, a blank line, a line that is no text, and
a message that breaks off with the feed. -/
theorem run_accounts_of_mixed :
    let s := ofSettings {} (fun _ => true) (mkStdGen 7)
    let message := "\x7b\"speed\":20,\"lat\":1,\"lon\":2\x7d"
    let octets := (message ++ "\r\n \n").toUTF8.data.toList ++ [0xFF, lineFeed, 0x5B]
    let r := run s ⟨octets, none⟩ {}
    s.rules.id.pseudonym = .fixed "FFFFFFFF" ∧
      r.outcome = .ok ⟨3, 1, 2, 0, 0, 2, 0, 0, 29⟩ ∧ r.output.count lineFeed = 1 := by
  intro s message octets r
  obtain ⟨-, -, t, houtcome, -, hcount, -⟩ := run_accounts s octets rfl
  have htally : r.tally = ⟨3, 1, 2, 0, 0, 2, 0, 0, 29⟩ := by decide +kernel
  have ht : r.tally = t := by
    unfold Run.outcome at houtcome
    split at houtcome
    · cases houtcome
    · exact Except.ok.inj houtcome
  rw [← ht, htally] at houtcome hcount
  exact ⟨rfl, houtcome, hcount⟩

end Feed

end VehiclePrivacy
