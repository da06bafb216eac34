import VehiclePrivacy.Proofs.Json.Scanning

/-!
# Numbers in a text

A number ends where the text cannot go on with it (`Whole`). There a scanner takes its characters for
one token, and it takes them for one token as well if they stand between quotes, and the tokens
around are the same (`finish_number`, `finish_quoted`). So a text with a number as the value of a
member, and the text with that number between quotes, differ in one token (`tokens_awaits`).
-/

namespace VehiclePrivacy.Json

open Scanner NumberPart

/-- The characters are a complete number, and what stands behind does not go on with it. -/
def Whole (s rest : List Char) : Prop :=
  ∃ q, sign.after? (unsigned s) = some q ∧ q.complete = true ∧
    ∀ c ∈ rest.head?, q.next? c = none ∧ (q = .zero → c.isDigit = false)

variable {s rest : List Char} {p q : NumberPart} {c : Char}

/-! ## The characters of a number -/

theorem after?_cons (p : NumberPart) (c : Char) (s : List Char) :
    p.after? (c :: s) = (p.next? c).bind (·.after? s) := List.foldlM_cons

/-- Characters that may stand in a number. -/
def IsNumberChar (c : Char) : Prop := c.isDigit = true ∨ c ∈ ['.', 'e', 'E', '+', '-']

theorem isNumberChar_of_next? (h : p.next? c = some q) : IsNumberChar c := by
  cases hdigit : c.isDigit with
  | true => exact .inl hdigit
  | false =>
    have hzero : c ≠ '0' := by
      rintro rfl
      cases hdigit
    refine .inr ?_
    cases p <;> simp only [next?, hdigit, hzero] at h <;> grind

theorem isNumberChar_of_after? (h : p.after? s = some q) : ∀ c ∈ s, IsNumberChar c := by
  induction s generalizing p with
  | nil => exact nofun
  | cons c s ih =>
    rw [after?_cons] at h
    obtain ⟨r, hr, hrest⟩ := Option.bind_eq_some_iff.mp h
    exact List.forall_mem_cons.mpr ⟨isNumberChar_of_next? hr, ih hrest⟩

/-- All characters of a number may stand in one. -/
theorem Whole.isNumberChar (h : Whole s rest) : ∀ c ∈ s, IsNumberChar c := by
  obtain ⟨q, hafter, -⟩ := h
  have hall := isNumberChar_of_after? hafter
  intro c hc
  unfold unsigned at hall
  split at hall
  · rcases List.mem_cons.mp hc with rfl | hc
    · exact .inr (by decide)
    · exact hall c hc
  · exact hall c hc

theorem Whole.ne_nil (h : Whole s rest) : s ≠ [] := by
  rintro rfl
  obtain ⟨q, hafter, hq, -⟩ := h
  obtain rfl := Option.some.inj hafter
  cases hq

theorem isNumberChar_plain (h : IsNumberChar c) : c ≠ '"' ∧ c ≠ '\\' ∧ 0x20 ≤ c.toNat := by
  rcases h with h | h
  · rw [Char.isDigit, Bool.and_eq_true, decide_eq_true_eq, decide_eq_true_eq] at h
    have hlow : 48 ≤ c.toNat := h.1
    have hhigh : c.toNat ≤ 57 := h.2
    refine ⟨?_, ?_, by omega⟩
    · rintro rfl
      exact absurd hlow (by decide)
    · rintro rfl
      exact absurd hhigh (by decide)
  · simp only [List.mem_cons, List.not_mem_nil, or_false] at h
    rcases h with rfl | rfl | rfl | rfl | rfl <;> exact ⟨by decide, by decide, by decide⟩

/-- A number has neither quotes nor anything else that a string would have to escape. -/
theorem Whole.plain (h : Whole s rest) : ∀ c ∈ s, c ≠ '"' ∧ c ≠ '\\' ∧ 0x20 ≤ c.toNat :=
  fun c hc => isNumberChar_plain (h.isNumberChar c hc)

/-! ## Tokens behind others -/

namespace Scanner

variable {ts : List Token}

/-- A scanner that has emitted some tokens before all others. -/
def behind (s : Scanner) (ts : List Token) : Scanner := ⟨s.emitted ++ ts, s.mode⟩

theorem ite_behind {p : Prop} [Decidable p] (s s' : Scanner) :
    (if p then s else s').behind ts = if p then s.behind ts else s'.behind ts :=
  apply_ite (fun s : Scanner => s.behind ts) p s s'

theorem begin_behind (s : Scanner) (c : Char) : (s.behind ts).begin c = (s.begin c).behind ts := by
  simp only [begin, ite_behind]
  rfl

theorem stepPlain_behind (s : Scanner) (content : List Char) (paired : Bool) (c : Char) :
    (s.behind ts).stepPlain content paired c = (s.stepPlain content paired c).behind ts := by
  simp only [stepPlain, ite_behind]
  rfl

theorem stepEscape_behind (s : Scanner) (content : List Char) (paired : Bool) (c : Char) :
    (s.behind ts).stepEscape content paired c = (s.stepEscape content paired c).behind ts := by
  rw [stepEscape, stepEscape, ite_behind]
  cases escaped? c <;> rfl

theorem failHex_behind (s : Scanner) (owed : Nat) (paired : Bool) (c : Char) :
    (s.behind ts).failHex owed paired c = (s.failHex owed paired c).behind ts := by
  rw [failHex, failHex, ite_behind]
  rfl

theorem stepHex_behind (s : Scanner) (owed value : Nat) (lead : Option Nat) (content : List Char)
    (paired : Bool) (c : Char) :
    (s.behind ts).stepHex owed value lead content paired c =
      (s.stepHex owed value lead content paired c).behind ts := by
  rw [stepHex, stepHex]
  cases hexValue? c with
  | none => exact failHex_behind s owed paired c
  | some d => cases lead <;> simp only [endHex, ite_behind] <;> rfl

theorem stepText_behind (s : Scanner) (part : TextPart) (content : List Char) (paired : Bool)
    (c : Char) :
    (s.behind ts).stepText part content paired c = (s.stepText part content paired c).behind ts := by
  cases part with
  | plain => exact stepPlain_behind s content paired c
  | escape => exact stepEscape_behind s content paired c
  | hex owed value lead => exact stepHex_behind s owed value lead content paired c
  | afterLead lead =>
    simp only [stepText, ite_behind, ← stepPlain_behind]
    rfl
  | afterLeadEscape lead =>
    simp only [stepText, ite_behind, ← stepEscape_behind]
    rfl

theorem stepNumber_behind (s : Scanner) (part : NumberPart) (seen : List Char) (c : Char) :
    (s.behind ts).stepNumber part seen c = (s.stepNumber part seen c).behind ts := by
  rw [stepNumber, stepNumber]
  cases part.next? c with
  | some next => rfl
  | none =>
    dsimp only
    rw [ite_behind, ← begin_behind]
    rfl

/-- A scanner does not look at what it has emitted. -/
theorem step_behind (s : Scanner) (c : Char) : (s.behind ts).step c = (s.step c).behind ts := by
  obtain ⟨emitted, mode⟩ := s
  cases mode with
  | idle => exact begin_behind _ c
  | word owed value =>
    match owed with
    | [] => exact begin_behind (Scanner.emit ⟨emitted, _⟩ (.word value)) c
    | [l] =>
      show _ = behind (if c = l then _ else _) ts
      rw [ite_behind]
      rfl
    | l :: m :: more =>
      show _ = behind (if c = l then _ else _) ts
      rw [ite_behind]
      rfl
  | number part seen => exact stepNumber_behind _ part seen c
  | text part content paired => exact stepText_behind _ part content paired c
  | badHex owed paired => exact failHex_behind _ owed paired c
  | stopped => rfl

theorem run_behind (s : Scanner) (cs : List Char) : (s.behind ts).run cs = (s.run cs).behind ts := by
  induction cs generalizing s with
  | nil => rfl
  | cons c cs ih =>
    show ((s.behind ts).step c).run cs = _
    rw [step_behind]
    exact ih (s.step c)

theorem finish_behind (s : Scanner) : (s.behind ts).finish = ts.reverse ++ s.finish := by
  unfold finish behind
  rw [List.reverse_append, List.append_assoc]

end Scanner

/-! ## One token, in two forms -/

variable {emitted : List Token}

/-- **A number is one token**, and the rest is scanned as it is for itself. -/
theorem finish_number (h : Whole s rest) :
    ((between emitted).run (s ++ rest)).finish =
      emitted.reverse ++ .number s :: ((between []).run rest).finish := by
  obtain ⟨q, hafter, hq, hend⟩ := h
  rw [run_append, run_complete hafter hq]
  cases rest with
  | nil =>
    show emitted.reverse ++ (if q.complete then _ else _) = _
    rw [if_pos hq, List.reverse_reverse]
    rfl
  | cons c rest =>
    obtain ⟨hnext, hzero⟩ := hend c rfl
    have hstep : (Scanner.mk emitted (.number q s.reverse)).step c =
        ((between []).behind (.number s :: emitted)).step c := by
      have hleads : (q.complete && !(decide (q = .zero) && c.isDigit)) = true := by
        rw [hq, Bool.true_and, Bool.not_eq_true', Bool.and_eq_false_iff, decide_eq_false_iff_not]
        exact (Decidable.em (q = .zero)).symm.imp_right hzero
      show (Scanner.mk emitted _).stepNumber q s.reverse c = _
      rw [stepNumber, hnext]
      dsimp only
      rw [if_pos hleads, List.reverse_reverse]
      rfl
    show (((Scanner.mk emitted (.number q s.reverse)).step c).run rest).finish = _
    rw [hstep]
    show (((between []).behind (.number s :: emitted)).run (c :: rest)).finish = _
    rw [run_behind, finish_behind, List.reverse_cons, List.append_assoc]
    rfl

/-- A string that escapes nothing is scanned as it stands. -/
theorem run_plain (hs : ∀ c ∈ s, c ≠ '"' ∧ c ≠ '\\' ∧ 0x20 ≤ c.toNat) (content : List Char) :
    (Scanner.mk emitted (.text .plain content true)).run s =
      ⟨emitted, .text .plain (s.reverse ++ content) true⟩ := by
  induction s generalizing content with
  | nil => rfl
  | cons c s ih =>
    rw [List.forall_mem_cons] at hs
    obtain ⟨⟨hquote, hbackslash, hcontrol⟩, hs⟩ := hs
    have hstep : (Scanner.mk emitted (.text .plain content true)).step c =
        ⟨emitted, .text .plain (c :: content) true⟩ := by
      show (Scanner.mk emitted _).stepPlain content true c = _
      rw [stepPlain, if_neg hquote, if_neg hbackslash, if_neg (by omega)]
      rfl
    show ((Scanner.mk emitted _).step c).run s = _
    rw [hstep, ih hs, List.reverse_cons, List.append_assoc]
    rfl

/-- **A number between quotes is one token**, too. -/
theorem finish_quoted (h : Whole s rest) (back : List Char) :
    ((between emitted).run ('"' :: s ++ '"' :: back)).finish =
      emitted.reverse ++ .text (some (String.ofList s)) :: ((between []).run back).finish := by
  have hquote : (between emitted).run ('"' :: s ++ '"' :: back) =
      ((between []).behind (.text (some (String.ofList s)) :: emitted)).run back := by
    rw [List.append_cons, run_append, List.cons_append]
    show (((Scanner.mk emitted (.text .plain [] true)).run (s ++ ['"'])).run back) = _
    rw [run_append, run_plain h.plain, List.append_nil]
    show ((Scanner.mk emitted _).stepPlain s.reverse true '"').run back = _
    rw [stepPlain, if_pos rfl, if_pos rfl, List.reverse_reverse]
    rfl
  rw [hquote, run_behind, finish_behind, List.reverse_cons, List.append_assoc]
  rfl

/-! ## Values of members -/

/-- Behind the characters the value of a member of that name is due. -/
def Awaits (front : List Char) (n : String) : Prop :=
  ∃ ts, start.run front = between (.colon :: .text (some n) :: ts)

/-- The tokens of a text in which a member is a number, or that number between quotes. -/
theorem tokens_awaits {front back : List Char} {n : String} (hfront : Awaits front n)
    (h : Whole s back) :
    ∃ ts us, tokens (String.ofList (front ++ (s ++ back))) =
        ts ++ .text (some n) :: .colon :: .number s :: us ∧
      tokens (String.ofList (front ++ ('"' :: s ++ '"' :: back))) =
        ts ++ .text (some n) :: .colon :: .text (some (String.ofList s)) :: us := by
  obtain ⟨ts, hrun⟩ := hfront
  refine ⟨ts.reverse, ((between []).run back).finish, ?_, ?_⟩
  · rw [tokens, String.toList_ofList, run_append, hrun, finish_number h]
    simp only [List.reverse_cons, List.append_assoc, List.cons_append, List.nil_append]
  · rw [tokens, String.toList_ofList, run_append, hrun, finish_quoted h back]
    simp only [List.reverse_cons, List.append_assoc, List.cons_append, List.nil_append]

end VehiclePrivacy.Json
