import Mathlib.Data.List.Induction
import VehiclePrivacy.Json.Printer
import VehiclePrivacy.Proofs.Json.Reading

/-!
# What is decided by the beginning of a text

A scanner takes back no token, so the tokens that are complete in the beginning of a text stand
first among the tokens of the whole text (`exists_tokens`). A reader that has been stopped reads no
more, so a reading that is stopped within the beginning ends there, whatever follows
(`StopsAt.read_eq`).

Only a value stops a reading, and a text is scanned one character at a time. So there is a character
at which a reading is stopped, namely where that value ends: at its closing quote, its last letter
or its opening bracket, or, of a number, at the character behind it (`stopsAt_of_read`). Only a
number at the very end of the text has no such character.
-/

namespace VehiclePrivacy.Json

/-- The tokens that are complete in the beginning of a text. -/
def complete (q : List Char) : List Token := (Scanner.start.run q).emitted.reverse

namespace Token

/-- Whether a value may begin with the token. -/
def IsValue (t : Token) : Prop := (∃ b, t = .opening b) ∨ ∃ v, t.scalar = .ok v

/-! Neither punctuation nor what breaks off begins a value. -/

@[simp] theorem not_isValue_closing (b : Bracket) : ¬ (closing b).IsValue := by
  simp [IsValue, scalar]

@[simp] theorem not_isValue_comma : ¬ comma.IsValue := by
  simp [IsValue, scalar]

@[simp] theorem not_isValue_colon : ¬ colon.IsValue := by
  simp [IsValue, scalar]

@[simp] theorem not_isValue_brokenNumber (f : Fault) : ¬ (brokenNumber f).IsValue := by
  simp [IsValue, scalar]

@[simp] theorem not_isValue_brokenText (f : Fault) (paired : Bool) :
    ¬ (brokenText f paired).IsValue := by
  simp [IsValue, scalar]

@[simp] theorem not_isValue_broken (f : Fault) : ¬ (broken f).IsValue := by
  simp [IsValue, scalar]

/-- Whether a value that begins with the token ends, or opens, at the character `c` behind `q`. A
number ends at the character behind it. -/
def EndsAt (t : Token) (q : List Char) (c : Char) : Prop :=
  match t with
  | .opening .array => c = '['
  | .opening .object => c = '\x7b'
  | .text _ => c = '"'
  | .word v => scalarChars v <:+ q ++ [c]
  | .number lexeme => lexeme <:+ q
  | _ => False

end Token

/-! ## One character -/

namespace Scanner

variable {q : List Char} {c : Char} {s : Scanner}

/-- The token under way is what the text so far ends in. -/
def Mode.Under (q : List Char) : Mode → Prop
  | .word owed v => owed ≠ [] ∧ ∃ seen, seen <:+ q ∧ scalarChars v = seen ++ owed
  | .number _ seen => seen.reverse <:+ q
  | _ => True

/-- A scanner after the character `c` behind `q`. It may have emitted one more token; a value that
begins with that token ends, or opens, at the character. -/
structure After (q : List Char) (c : Char) (emitted : List Token) (s : Scanner) : Prop where
  under : s.mode.Under (q ++ [c])
  adds : s.emitted = emitted ∨
    ∃ t : Token, (t.IsValue → t.EndsAt q c) ∧ s.emitted = t :: emitted

theorem After.enter {m : Mode} (h : m.Under (q ++ [c])) : After q c s.emitted (s.enter m) :=
  ⟨h, .inl rfl⟩

theorem After.emit {t : Token} (h : t.IsValue → t.EndsAt q c) : After q c s.emitted (s.emit t) :=
  ⟨trivial, .inr ⟨t, h, rfl⟩⟩

theorem After.fail {t : Token} (h : ¬ t.IsValue) : After q c s.emitted (s.fail t) :=
  ⟨trivial, .inr ⟨t, fun ht => absurd ht h, rfl⟩⟩

theorem After.failText (f : Fault) (paired : Bool) :
    After q c s.emitted (s.fail (.brokenText f paired)) :=
  .fail (Token.not_isValue_brokenText f paired)

theorem After.ite {emitted : List Token} {p : Prop} [Decidable p] {s s' : Scanner}
    (h : p → After q c emitted s) (h' : ¬ p → After q c emitted s') :
    After q c emitted (if p then s else s') := by
  by_cases hp : p
  · rw [if_pos hp]
    exact h hp
  · rw [if_neg hp]
    exact h' hp

/-- Between two tokens, a character begins a token or is one itself. -/
theorem after_begin (q : List Char) (s : Scanner) (c : Char) : After q c s.emitted (s.begin c) := by
  have hlast : [c] <:+ q ++ [c] := List.suffix_append q [c]
  have hother : ∀ t : Token, ¬ t.IsValue → After q c s.emitted (s.emit t) := fun t h =>
    .emit fun ht => absurd ht h
  -- one case for each kind of character, in the order in which the scanner looks for them
  refine .ite (fun _ => .enter trivial) fun _ => ?_
  refine .ite (fun _ => .enter trivial) fun _ => ?_
  refine .ite (fun _ => .enter hlast) fun _ => ?_
  refine .ite (fun _ => .enter hlast) fun _ => ?_
  refine .ite (fun _ => .enter hlast) fun _ => ?_
  refine .ite (fun hc => .emit fun _ => hc) fun _ => ?_
  refine .ite (fun _ => hother _ (Token.not_isValue_closing _)) fun _ => ?_
  refine .ite (fun hc => .emit fun _ => hc) fun _ => ?_
  refine .ite (fun _ => hother _ (Token.not_isValue_closing _)) fun _ => ?_
  refine .ite (fun _ => hother _ Token.not_isValue_comma) fun _ => ?_
  refine .ite (fun _ => hother _ Token.not_isValue_colon) fun _ => ?_
  refine .ite (fun hc => .enter ⟨by simp, ['n'], hc ▸ hlast, rfl⟩) fun _ => ?_
  refine .ite (fun hc => .enter ⟨by simp, ['t'], hc ▸ hlast, rfl⟩) fun _ => ?_
  refine .ite (fun hc => .enter ⟨by simp, ['f'], hc ▸ hlast, rfl⟩) fun _ => ?_
  exact .fail (Token.not_isValue_broken _)

/-! ### In a string -/

theorem after_plain (content : List Char) (paired : Bool) :
    After q c s.emitted (s.stepPlain content paired c) := by
  unfold stepPlain
  split_ifs with hquote
  · exact .emit fun _ => hquote
  · exact .emit fun _ => hquote
  · exact .enter trivial
  · exact .failText _ _
  · exact .enter trivial

theorem after_escape (content : List Char) (paired : Bool) :
    After q c s.emitted (s.stepEscape content paired c) := by
  unfold stepEscape
  split
  · exact .enter trivial
  · split
    · exact .enter trivial
    · exact .failText _ _

theorem after_endHex (value : Nat) (lead : Option Nat) (content : List Char) (paired : Bool) :
    After q c s.emitted (s.endHex value lead content paired) := by
  unfold endHex
  split <;> split_ifs <;> exact .enter trivial

theorem after_failHex (owed : Nat) (paired : Bool) :
    After q c s.emitted (s.failHex owed paired c) := by
  unfold failHex
  split
  · exact .failText _ _
  · exact .enter trivial

theorem after_hex (owed value : Nat) (lead : Option Nat) (content : List Char) (paired : Bool) :
    After q c s.emitted (s.stepHex owed value lead content paired c) := by
  unfold stepHex
  split
  · exact after_failHex _ _
  · split
    · exact after_endHex _ _ _ _
    · exact .enter trivial

theorem after_text (part : TextPart) (content : List Char) (paired : Bool) :
    After q c s.emitted (s.stepText part content paired c) := by
  unfold stepText
  split
  · exact after_plain _ _
  · exact after_escape _ _
  · exact after_hex _ _ _ _ _
  · split
    · exact .enter trivial
    · exact after_plain _ _
  · split
    · exact .enter trivial
    · exact after_escape _ _

/-! ### In a word or a number -/

/-- In a word, which ends at its last letter. -/
theorem after_word {letter : Char} {more seen : List Char} {v : Scalar} (hseen : seen <:+ q)
    (hv : scalarChars v = seen ++ letter :: more) (hmode : s.mode = .word (letter :: more) v) :
    After q c s.emitted (s.step c) := by
  have hbroken := Token.not_isValue_broken .malformed
  have hletters : seen ++ [c] <:+ q ++ [c] := by
    obtain ⟨before, rfl⟩ := hseen
    exact ⟨before, by rw [List.append_assoc]⟩
  rw [step, hmode]
  cases more with
  | nil =>
    dsimp only
    split
    · rename_i hc
      subst hc
      refine .emit fun _ => ?_
      show scalarChars v <:+ _
      rw [hv]
      exact hletters
    · exact .fail hbroken
  | cons next more =>
    dsimp only
    split
    · rename_i hc
      subst hc
      refine .enter ⟨by simp, seen ++ [c], hletters, ?_⟩
      rw [hv, List.append_assoc, List.singleton_append]
    · exact .fail hbroken

/-- One character: it belongs to the token under way, or it shows that a number has ended. -/
theorem after_step (hunder : s.mode.Under q) (c : Char) :
    After q c s.emitted (s.step c) ∨
      ∃ lexeme, lexeme <:+ q ∧ After q c (.number lexeme :: s.emitted) (s.step c) := by
  cases hmode : s.mode with
  | idle =>
    refine .inl ?_
    rw [step, hmode]
    exact after_begin q s c
  | word owed v =>
    rw [hmode] at hunder
    obtain ⟨howed, seen, hseen, hv⟩ := hunder
    obtain ⟨letter, more, rfl⟩ := List.exists_cons_of_ne_nil howed
    exact .inl (after_word hseen hv hmode)
  | number part seen =>
    rw [hmode] at hunder
    rw [step, hmode]
    dsimp only
    unfold stepNumber
    split
    · refine .inl (.enter ?_)
      obtain ⟨before, rfl⟩ := hunder
      exact ⟨before, by simp⟩
    · split
      · exact .inr ⟨seen.reverse, hunder, after_begin q (s.emit (.number seen.reverse)) c⟩
      · exact .inl (.fail (Token.not_isValue_brokenNumber _))
  | text part content paired =>
    refine .inl ?_
    rw [step, hmode]
    exact after_text _ _ _
  | badHex owed paired =>
    refine .inl ?_
    rw [step, hmode]
    exact after_failHex _ _
  | stopped =>
    refine .inl ?_
    rw [step, hmode]
    exact ⟨by rw [hmode]; trivial, .inl rfl⟩

theorem under_run (q : List Char) : (start.run q).mode.Under q := by
  induction q using List.reverseRecOn with
  | nil => trivial
  | append_singleton q c ih =>
    rw [run_append]
    rcases after_step ih c with h | ⟨lexeme, -, h⟩
    · exact h.under
    · exact h.under

end Scanner

/-! ## Complete tokens -/

section Complete

open Scanner

/-- One character adds a token, or a number and perhaps a token behind it. -/
theorem complete_snoc (q : List Char) (c : Char) :
    complete (q ++ [c]) = complete q ∨
      ∃ (t : Token) (more : List Token), (t.IsValue → t.EndsAt q c) ∧
        complete (q ++ [c]) = complete q ++ t :: more ∧
        (more = [] ∨ ∃ (lexeme : List Char) (u : Token), t = .number lexeme ∧ more = [u]) := by
  have hsnoc : complete (q ++ [c]) = ((start.run q).step c).emitted.reverse := by
    rw [complete, run_append]
    rfl
  rw [hsnoc]
  rcases after_step (under_run q) c with h | ⟨lexeme, hlexeme, h⟩
  · rcases h.adds with h | ⟨t, ht, h⟩
    · exact .inl (by rw [h, complete])
    · exact .inr ⟨t, [], ht, by rw [h, complete, List.reverse_cons], .inl rfl⟩
  · rcases h.adds with h | ⟨u, -, h⟩
    · exact .inr ⟨.number lexeme, [], fun _ => hlexeme, by rw [h, complete, List.reverse_cons],
        .inl rfl⟩
    · refine .inr ⟨.number lexeme, [u], fun _ => hlexeme, ?_, .inr ⟨lexeme, u, rfl, rfl⟩⟩
      rw [h, complete, List.reverse_cons, List.reverse_cons, List.append_assoc]
      rfl

/-- A token that is complete stays as it is, whatever follows. -/
theorem exists_complete (q rest : List Char) :
    ∃ more, complete (q ++ rest) = complete q ++ more := by
  induction rest generalizing q with
  | nil => exact ⟨[], by simp⟩
  | cons c rest ih =>
    obtain ⟨more, hmore⟩ := ih (q ++ [c])
    rw [List.append_assoc, List.singleton_append] at hmore
    rcases complete_snoc q c with h | ⟨t, ts, -, h, -⟩
    · exact ⟨more, by rw [hmore, h]⟩
    · exact ⟨t :: ts ++ more, by rw [hmore, h, List.append_assoc]⟩

/-- Behind the complete tokens of a text comes a number that it ends with, or what breaks off. -/
theorem tokens_cases (q : List Char) :
    tokens (String.ofList q) = complete q ∨
      ∃ t : Token, tokens (String.ofList q) = complete q ++ [t] ∧
        (t.IsValue → ∃ lexeme, lexeme <:+ q ∧ t = .number lexeme) := by
  have htokens : tokens (String.ofList q) = (start.run q).finish := by
    rw [tokens, String.toList_ofList]
  have hunder := under_run q
  rw [htokens, finish, ← complete]
  cases hmode : (start.run q).mode with
  | idle => exact .inl (List.append_nil _)
  | stopped => exact .inl (List.append_nil _)
  | word owed v => exact .inr ⟨_, rfl, fun h => absurd h (by simp)⟩
  | text part content paired =>
    exact .inr ⟨_, rfl, fun h => absurd h (by simp)⟩
  | badHex owed paired => exact .inr ⟨_, rfl, fun h => absurd h (by simp)⟩
  | number part seen =>
    rw [hmode] at hunder
    dsimp only
    split
    · exact .inr ⟨_, rfl, fun _ => ⟨seen.reverse, hunder, rfl⟩⟩
    · exact .inr ⟨_, rfl, fun h => absurd h (by simp)⟩

/-- The tokens that are complete in the beginning of a text are its first tokens. -/
theorem exists_tokens (q rest : List Char) :
    ∃ more, tokens (String.ofList (q ++ rest)) = complete q ++ more := by
  obtain ⟨more, hmore⟩ := exists_complete q rest
  rcases tokens_cases (q ++ rest) with h | ⟨t, h, -⟩
  · exact ⟨more, by rw [h, hmore]⟩
  · exact ⟨more ++ [t], by rw [h, hmore, List.append_assoc]⟩

end Complete

/-! ## Where a reading is stopped -/

section Stopping

variable {σ : Type} {d : Demands} {l : Listener σ} {s : σ}

namespace Reader

variable {r : Reader σ} {t : Token}

/-- Whether the next token may begin a value. -/
def Awaits (r : Reader σ) : Prop := r.phase = .value ∨ ∃ before, r.phase = .items 0 before

theorem fill_phase (r : Reader σ) (v : Json) :
    (r.fill v).phase ≠ .stopped ∧ ¬ (r.fill v).Awaits := by
  unfold fill Awaits
  split <;> simp [enter]

theorem memberName_phase (r : Reader σ) (before : List (String × Json)) (t : Token) :
    (r.memberName d before t).phase ≠ .stopped ∧ ¬ (r.memberName d before t).Awaits := by
  unfold memberName Awaits
  split
  · split <;> simp [fail, enter]
  all_goals simp [fail, enter]

/-- A reading that was stopped stays where it is. -/
theorem run_stopped (h : r.phase = .stopped) (ts : List Token) : r.run d l ts = r := by
  induction ts with
  | nil => rfl
  | cons t ts ih =>
    have hstep : r.step d l t = r := by
      unfold step
      rw [h]
    rw [run, List.foldl_cons, hstep]
    exact ih

theorem isValue_of_value_stopped (h : (r.value d l t).phase = .stopped) : t.IsValue := by
  unfold Reader.value at h
  split at h
  · exact .inl ⟨_, rfl⟩
  · split at h
    · rename_i v hv
      exact .inr ⟨v, hv⟩
    · cases h

/-- Only a value stops a reading, and only where a value may begin. -/
theorem stopped_of_step (hr : r.phase ≠ .stopped) (h : (r.step d l t).phase = .stopped) :
    t.IsValue ∧ r.Awaits := by
  unfold step at h
  split at h
  · rename_i hphase
    exact ⟨isValue_of_value_stopped h, .inl hphase⟩
  · rename_i count before hphase
    split at h
    · exact absurd h (fill_phase _ _).1
    · split at h
      · rename_i hcount
        subst hcount
        exact ⟨isValue_of_value_stopped h, .inr ⟨before, hphase⟩⟩
      · split at h <;> cases h
  · split at h
    · exact absurd h (fill_phase _ _).1
    · split at h
      · exact absurd h (memberName_phase _ _ _).1
      · split at h <;> cases h
  · exact absurd h (memberName_phase _ _ _).1
  · split at h <;> cases h
  · cases h
  · rename_i hphase
    rw [hphase] at h
    cases h
  · exact absurd h hr

theorem value_number (r : Reader σ) (lexeme : List Char) :
    ¬ (r.value d l (.number lexeme)).Awaits := by
  unfold Reader.value
  dsimp only
  split
  · unfold Reader.scalar
    split
    · simp [fail, enter, Awaits]
    · unfold tell
      dsimp only
      split
      · simp [enter, Awaits]
      · exact (fill_phase _ _).2
  · simp [fail, enter, Awaits]

/-- Behind a number, no value may begin at once. -/
theorem step_number (r : Reader σ) (lexeme : List Char) :
    ¬ (r.step d l (.number lexeme)).Awaits := by
  unfold step
  split
  · exact value_number _ _
  · rw [if_neg (by simp)]
    split
    · exact value_number _ _
    · simp [fail, enter, Awaits]
  · rw [if_neg (by simp)]
    split
    · exact (memberName_phase _ _ _).2
    · simp [fail, enter, Awaits]
  · exact (memberName_phase _ _ _).2
  · simp [fail, enter, Awaits]
  · simp [fail, enter, Awaits]
  · rename_i hphase
    simp [Awaits, hphase]
  · rename_i hphase
    simp [Awaits, hphase]

end Reader

open Reader

/-- A reading is stopped at the character `c` behind `q`: not by what is complete before, but by a
value that ends, or opens, at that character. -/
structure StopsAt (d : Demands) (l : Listener σ) (s : σ) (q : List Char) (c : Char) : Prop where
  goes_on : ((Reader.start s).run d l (complete q)).phase ≠ .stopped
  ends : ∃ t : Token, t.EndsAt q c ∧ complete q ++ [t] <+: complete (q ++ [c]) ∧
    ((Reader.start s).run d l (complete q ++ [t])).phase = .stopped

/-- A reading that one more character stops is stopped at that character. -/
theorem stopsAt_of_complete {q : List Char} {c : Char}
    (h : ((Reader.start s).run d l (complete q)).phase ≠ .stopped)
    (h' : ((Reader.start s).run d l (complete (q ++ [c]))).phase = .stopped) :
    StopsAt d l s q c := by
  refine ⟨h, ?_⟩
  rcases complete_snoc q c with heq | ⟨t, more, ht, heq, hmore⟩
  · rw [heq] at h'
    exact absurd h' h
  · have hprefix : complete q ++ [t] <+: complete (q ++ [c]) := ⟨more, by simp [heq]⟩
    have hsnoc : (Reader.start s).run d l (complete q ++ [t]) =
        ((Reader.start s).run d l (complete q)).step d l t := run_append _ _ _ _ _
    have hstopped : ((Reader.start s).run d l (complete q ++ [t])).phase = .stopped := by
      rcases hmore with rfl | ⟨lexeme, u, rfl, rfl⟩
      · rwa [heq] at h'
      · -- the token behind a number stands where no value may begin, so it stops nothing
        rw [heq, List.append_cons, run_append] at h'
        by_contra hgoes
        have hawaits := (stopped_of_step hgoes h').2
        rw [hsnoc] at hawaits
        exact step_number _ _ hawaits
    refine ⟨t, ht ?_, hprefix, hstopped⟩
    rw [hsnoc] at hstopped
    exact (stopped_of_step h hstopped).1

/-- If a text ends up with a property that its empty beginning does not have, one character brings
it. -/
theorem exists_first {P : List Char → Prop} {text : List Char} (h : ¬ P []) (h' : P text) :
    ∃ q c rest, text = q ++ c :: rest ∧ ¬ P q ∧ P (q ++ [c]) := by
  induction text using List.reverseRecOn with
  | nil => exact absurd h' h
  | append_singleton q c ih =>
    by_cases hq : P q
    · obtain ⟨q', c', rest, rfl, hrest⟩ := ih hq
      exact ⟨q', c', rest ++ [c], by simp, hrest⟩
    · exact ⟨q, c, [], rfl, hq, h'⟩

theorem outcome_eq_stopped {p : Phase} : p.outcome = .stopped ↔ p = .stopped := by
  cases p <;> simp [Phase.outcome]

/-- A reading is stopped at some character of the text, or by a number that the text ends with. -/
theorem stopsAt_of_read {text : String} (h : (read d l s text).2 = .stopped) :
    (∃ q c rest, text.toList = q ++ c :: rest ∧ StopsAt d l s q c) ∨
      ∃ lexeme, lexeme <:+ text.toList ∧ tokens text = complete text.toList ++ [.number lexeme] ∧
        ((Reader.start s).run d l (complete text.toList)).phase ≠ .stopped := by
  have hstopped : ((Reader.start s).run d l (tokens text)).phase = .stopped :=
    outcome_eq_stopped.mp h
  by_cases hcomplete : ((Reader.start s).run d l (complete text.toList)).phase = .stopped
  · obtain ⟨q, c, rest, heq, hq, hc⟩ :=
      exists_first (P := fun q => ((Reader.start s).run d l (complete q)).phase = .stopped) nofun
        hcomplete
    exact .inl ⟨q, c, rest, heq, stopsAt_of_complete hq hc⟩
  · have hcases := tokens_cases text.toList
    rw [String.ofList_toList] at hcases
    rcases hcases with heq | ⟨t, heq, ht⟩
    · rw [heq] at hstopped
      exact absurd hstopped hcomplete
    · rw [heq, run_append] at hstopped
      obtain ⟨lexeme, hlexeme, rfl⟩ := ht (stopped_of_step hcomplete hstopped).1
      exact .inr ⟨lexeme, hlexeme, heq, hcomplete⟩

/-- A reading that is stopped at a character ends there, whatever follows. -/
theorem StopsAt.read_eq {q : List Char} {c : Char} (h : StopsAt d l s q c) (rest : List Char) :
    read d l s (String.ofList (q ++ c :: rest)) =
      (((Reader.start s).run d l (complete (q ++ [c]))).listening, .stopped) := by
  obtain ⟨t, -, ⟨more, hmore⟩, hstopped⟩ := h.ends
  have hstopped : ((Reader.start s).run d l (complete (q ++ [c]))).phase = .stopped := by
    rw [← hmore, run_append, run_stopped hstopped]
    exact hstopped
  obtain ⟨later, hlater⟩ := exists_tokens (q ++ [c]) rest
  rw [List.append_assoc, List.singleton_append] at hlater
  rw [read, hlater, run_append, run_stopped hstopped, hstopped]
  rfl

end Stopping

end VehiclePrivacy.Json
