import VehiclePrivacy.Json.Scanner

/-!
# How numbers are written

A number is written part by part: a sign, digits, a point with digits, and an exponent with its
sign. If every part that is there has digits, and no zero leads others (`WellFormed`), a scanner
takes the characters for one complete number (`after?_magnitudeChars`), and the same parts are found
in them again (`ofChars_chars`).
-/

namespace VehiclePrivacy.Json

/-- Decimal digits, at least one. -/
def DigitRun (ds : List Char) : Prop := ds ≠ [] ∧ ∀ c ∈ ds, c.isDigit = true

theorem digitRun_toDigits (n : Nat) : DigitRun (Nat.toDigits 10 n) :=
  ⟨Nat.toDigits_ne_nil, fun _ hc => Nat.isDigit_of_mem_toDigits (by decide) (by decide) hc⟩

theorem DigitRun.append {ds es : List Char} (h : DigitRun ds) (h' : ∀ c ∈ es, c.isDigit = true) :
    DigitRun (ds ++ es) :=
  ⟨List.append_ne_nil_of_left_ne_nil h.1 es, List.forall_mem_append.mpr ⟨h.2, h'⟩⟩

/-- What follows is no digit. -/
def NoDigit (s : List Char) : Prop := ∀ c t, s = c :: t → c.isDigit = false

theorem noDigit_nil : NoDigit [] := nofun

theorem noDigit_cons {c : Char} {s : List Char} (h : c.isDigit = false) : NoDigit (c :: s) := by
  intro d t heq
  rw [← (List.cons.inj heq).1]
  exact h

section Span

variable {ds rest : List Char}

theorem takeWhile_digits (h : ∀ c ∈ ds, c.isDigit = true) (hrest : NoDigit rest) :
    (ds ++ rest).takeWhile Char.isDigit = ds := by
  rw [List.takeWhile_append_of_pos h]
  cases rest with
  | nil => exact List.append_nil ds
  | cons c t =>
    rw [List.takeWhile_cons_of_neg (by rw [hrest c t rfl]; exact Bool.false_ne_true),
      List.append_nil]

theorem dropWhile_digits (h : ∀ c ∈ ds, c.isDigit = true) (hrest : NoDigit rest) :
    (ds ++ rest).dropWhile Char.isDigit = rest := by
  rw [List.dropWhile_append_of_pos h]
  cases rest with
  | nil => rfl
  | cons c t =>
    exact List.dropWhile_cons_of_neg (by rw [hrest c t rfl]; exact Bool.false_ne_true)

end Span

namespace Numeral

/-- The characters of the fraction. -/
def fractionChars (n : Numeral) : List Char :=
  match n.fraction with
  | none => []
  | some ds => '.' :: ds

/-- The characters of the exponent. -/
def exponentChars (n : Numeral) : List Char :=
  match n.exponent with
  | none => []
  | some (negative, ds) => 'e' :: (if negative then '-' else '+') :: ds

/-- The characters of the number without its sign. -/
def magnitudeChars (n : Numeral) : List Char := n.whole ++ (n.fractionChars ++ n.exponentChars)

/-- The characters of the number. -/
def chars (n : Numeral) : List Char := (if n.negative then ['-'] else []) ++ n.magnitudeChars

/-- The parts are those of a number. -/
structure WellFormed (n : Numeral) : Prop where
  whole : DigitRun n.whole
  /-- A zero in front stands alone. -/
  leading : ∀ ds, n.whole = '0' :: ds → ds = []
  fraction : ∀ ds, n.fraction = some ds → DigitRun ds
  exponent : ∀ negative ds, n.exponent = some (negative, ds) → DigitRun ds

variable {n : Numeral}

theorem noDigit_exponentChars (n : Numeral) : NoDigit n.exponentChars := by
  unfold exponentChars
  split
  · exact noDigit_nil
  · exact noDigit_cons rfl

theorem noDigit_fractionChars (n : Numeral) : NoDigit (n.fractionChars ++ n.exponentChars) := by
  unfold fractionChars
  split
  · exact n.noDigit_exponentChars
  · exact noDigit_cons rfl

theorem magnitudeChars_ne_minus (h : n.WellFormed) (s : List Char) :
    n.magnitudeChars ≠ '-' :: s := by
  intro heq
  obtain ⟨hne, hall⟩ := h.whole
  obtain ⟨d, ds, hwhole⟩ := List.exists_cons_of_ne_nil hne
  rw [magnitudeChars, hwhole, List.cons_append] at heq
  have hdigit := hall d (hwhole ▸ List.mem_cons_self)
  rw [(List.cons.inj heq).1] at hdigit
  cases hdigit

/-- What stands behind the fraction is read as the exponent. -/
theorem exponent_of_chars (n : Numeral) :
    (match n.exponentChars with
      | [] => none
      | _ :: '-' :: ds => some (true, ds)
      | _ :: '+' :: ds => some (false, ds)
      | _ :: ds => some (false, ds)) = n.exponent := by
  obtain ⟨negative, whole, fraction, exponent⟩ := n
  cases exponent with
  | none => rfl
  | some e =>
    obtain ⟨minus, ds⟩ := e
    cases minus <;> rfl

theorem ofChars_magnitudeChars (h : n.WellFormed) :
    ofChars n.magnitudeChars = { n with negative := false } := by
  have hminus := magnitudeChars_ne_minus h
  have hwhole : n.magnitudeChars.takeWhile Char.isDigit = n.whole :=
    takeWhile_digits h.whole.2 n.noDigit_fractionChars
  have hrest : n.magnitudeChars.dropWhile Char.isDigit = n.fractionChars ++ n.exponentChars :=
    dropWhile_digits h.whole.2 n.noDigit_fractionChars
  have hexponent := n.exponent_of_chars
  cases hfraction : n.fraction with
  | none =>
    rw [fractionChars, hfraction, List.nil_append] at hrest
    have hpoint : ∀ s, n.exponentChars ≠ '.' :: s := by
      intro s heq
      unfold exponentChars at heq
      split at heq <;> cases heq
    simp only [ofChars, hwhole, hrest]
    exact congrArg (Numeral.mk false n.whole none) hexponent
  | some ds =>
    have hds := (h.fraction ds hfraction).2
    rw [fractionChars, hfraction, List.cons_append] at hrest
    simp only [ofChars, hwhole, hrest, takeWhile_digits hds n.noDigit_exponentChars,
      dropWhile_digits hds n.noDigit_exponentChars]
    exact congrArg (Numeral.mk false n.whole (some ds)) hexponent

theorem ofChars_minus {s : List Char} (hs : ∀ t, s ≠ '-' :: t) :
    ofChars ('-' :: s) = { ofChars s with negative := true } := by
  unfold ofChars
  simp only

/-- **The parts of a number are found again in its characters.** -/
theorem ofChars_chars (h : n.WellFormed) : ofChars n.chars = n := by
  have hminus := magnitudeChars_ne_minus h
  have hmagnitude := ofChars_magnitudeChars h
  obtain ⟨negative, whole, fraction, exponent⟩ := n
  cases negative with
  | false => exact hmagnitude
  | true =>
    rw [chars, if_pos rfl, List.singleton_append, ofChars_minus hminus, hmagnitude]

end Numeral

/-! ## Scanning -/

namespace Scanner

namespace NumberPart

/-- The part of a number after more of its characters. -/
def after? (p : NumberPart) (s : List Char) : Option NumberPart := s.foldlM next? p

theorem after?_append {p q : NumberPart} {s t : List Char} (h : p.after? s = some q) :
    p.after? (s ++ t) = q.after? t := by
  rw [after?, List.foldlM_append, ← after?, h]
  rfl

/-- Digits leave a number in a part in which digits are going on. -/
theorem after?_digits {p : NumberPart} (hp : ∀ c, c.isDigit = true → p.next? c = some p)
    {ds : List Char} (hds : ∀ c ∈ ds, c.isDigit = true) : p.after? ds = some p := by
  induction ds with
  | nil => rfl
  | cons d ds ih =>
    rw [List.forall_mem_cons] at hds
    rw [after?, List.foldlM_cons, hp d hds.1]
    exact ih hds.2

/-- The first of some digits leads from one part to the next, and the others stay there. -/
theorem after?_first {p q : NumberPart} (hp : ∀ c, c.isDigit = true → p.next? c = some q)
    (hq : ∀ c, c.isDigit = true → q.next? c = some q) {ds : List Char} (hds : DigitRun ds) :
    p.after? ds = some q := by
  obtain ⟨hne, hall⟩ := hds
  cases ds with
  | nil => exact absurd rfl hne
  | cons d ds =>
    rw [List.forall_mem_cons] at hall
    rw [after?, List.foldlM_cons, hp d hall.1]
    exact after?_digits hq hall.2

end NumberPart

open NumberPart

variable {n : Numeral}

/-- The digits before the point. -/
theorem after?_whole (h : n.WellFormed) :
    ∃ p, sign.after? n.whole = some p ∧ (p = .zero ∨ p = .whole) := by
  obtain ⟨hne, hall⟩ := h.whole
  obtain ⟨d, ds, hwhole⟩ := List.exists_cons_of_ne_nil hne
  by_cases hd : d = '0'
  · subst hd
    rw [hwhole, h.leading ds hwhole]
    exact ⟨.zero, rfl, .inl rfl⟩
  · rw [hwhole, List.forall_mem_cons] at hall
    refine ⟨.whole, ?_, .inr rfl⟩
    have hfirst : sign.next? d = some .whole := by simp [next?, hd, hall.1]
    rw [hwhole, after?, List.foldlM_cons, hfirst]
    exact after?_digits (fun c hc => by simp [next?, hc]) hall.2

/-- The point with its digits. -/
theorem after?_fraction (h : n.WellFormed) {p : NumberPart} (hp : p = .zero ∨ p = .whole) :
    ∃ q, p.after? n.fractionChars = some q ∧ (q = .zero ∨ q = .whole ∨ q = .fraction) := by
  unfold Numeral.fractionChars
  split
  · exact ⟨p, rfl, hp.imp_right .inl⟩
  · rename_i ds hds
    refine ⟨.fraction, ?_, .inr (.inr rfl)⟩
    have hpoint : p.next? '.' = some .point := by rcases hp with rfl | rfl <;> rfl
    rw [after?, List.foldlM_cons, hpoint]
    exact after?_first (fun c hc => by simp [next?, hc]) (fun c hc => by simp [next?, hc])
      (h.fraction ds hds)

/-- The exponent, with which the number is complete. -/
theorem after?_exponent (h : n.WellFormed) {p : NumberPart}
    (hp : p = .zero ∨ p = .whole ∨ p = .fraction) :
    ∃ q, p.after? n.exponentChars = some q ∧ q.complete = true := by
  unfold Numeral.exponentChars
  split
  · exact ⟨p, rfl, by rcases hp with rfl | rfl | rfl <;> rfl⟩
  · rename_i negative ds hds
    refine ⟨.exponent, ?_, rfl⟩
    have hmark : p.next? 'e' = some .mark := by rcases hp with rfl | rfl | rfl <;> rfl
    have hsign : NumberPart.mark.next? (if negative then '-' else '+') = some .markSign := by
      cases negative <;> rfl
    rw [after?, List.foldlM_cons, hmark]
    show (NumberPart.mark.next? (if negative then '-' else '+')).bind _ = _
    rw [hsign]
    exact after?_first (fun c hc => by simp [next?, hc]) (fun c hc => by simp [next?, hc])
      (h.exponent negative ds hds)

/-- The characters behind the sign make a complete number. -/
theorem after?_magnitudeChars (h : n.WellFormed) :
    ∃ q, sign.after? n.magnitudeChars = some q ∧ q.complete = true := by
  obtain ⟨p, hwhole, hp⟩ := after?_whole h
  obtain ⟨q, hfraction, hq⟩ := after?_fraction h hp
  obtain ⟨r, hexponent, hr⟩ := after?_exponent h hq
  refine ⟨r, ?_, hr⟩
  rw [Numeral.magnitudeChars, after?_append hwhole, after?_append hfraction, hexponent]

end Scanner

end VehiclePrivacy.Json
