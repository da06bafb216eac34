import Mathlib.Data.List.TakeWhile
import VehiclePrivacy.Proofs.Json.Drift
import VehiclePrivacy.Proofs.Json.Literals

/-!
# Numbers as decimals

The characters of a number can also be read as a decimal, as the values of settings and numeric
strings are. That reader finds the same parts in them: digits, a point with digits, and an exponent.
So it reads the decimal that the parts write, rounded once (`Numeral.nearest`, `readChars?_eq`),
whatever the reader of numbers makes of the same parts.
-/

namespace VehiclePrivacy.Json

open Scanner Decimal
open Scanner.NumberPart hiding mark

variable {s : List Char} {p q : NumberPart} {c : Char}

namespace Numeral

/-- The number that the parts write without their sign, rounded once. -/
def nearestMagnitude (n : Numeral) : Float :=
  nearestFloat (natOfDigits n.allDigits) (n.writtenExponent - (n.fraction.getD []).length)

/-- The number that the parts write, rounded once. -/
def nearest (n : Numeral) : Float :=
  if n.negative then -n.nearestMagnitude else n.nearestMagnitude

end Numeral

/-! ## Digits and exponent -/

/-- Where digits go on, all of them are taken. -/
theorem after?_span (hp : ∀ c, c.isDigit = true → p.next? c = some p) (s : List Char) :
    p.after? s = p.after? (s.dropWhile Char.isDigit) := by
  conv => lhs; rw [← List.takeWhile_append_dropWhile (p := Char.isDigit) (l := s)]
  exact after?_append (after?_digits hp fun c hc => List.mem_takeWhile_imp hc)

/-- What is left behind digits begins with none. -/
theorem dropWhile_digits_head {t : List Char} (h : s.dropWhile Char.isDigit = c :: t) :
    c.isDigit = false := by
  have hhead := List.head?_dropWhile_not Char.isDigit s
  rw [h] at hhead
  simpa using hhead

/-- The digits of an exponent go on to the end. -/
theorem digits_of_exponent (h : exponent.after? s = some q) : ∀ c ∈ s, c.isDigit = true := by
  rw [after?_span fun c hc => by simp [next?, hc]] at h
  cases hrest : s.dropWhile Char.isDigit with
  | nil => exact List.dropWhile_eq_nil_iff.mp hrest
  | cons c t =>
    rw [hrest, after?_cons] at h
    simp [next?, dropWhile_digits_head hrest] at h

/-- Behind its sign an exponent has nothing but digits. -/
theorem digits_of_markSign (h : markSign.after? s = some q) (hq : q.complete = true) :
    DigitRun s := by
  cases s with
  | nil =>
    obtain rfl := Option.some.inj h
    cases hq
  | cons c s =>
    rw [after?_cons] at h
    cases hc : c.isDigit with
    | false => simp [next?, hc] at h
    | true =>
      simp only [next?, hc, if_true] at h
      exact ⟨List.cons_ne_nil _ _, List.forall_mem_cons.mpr ⟨hc, digits_of_exponent h⟩⟩

/-- The sign and the digits of an exponent, behind its mark. -/
def splitExponent (s : List Char) : Bool × List Char :=
  match s with
  | '-' :: ds => (true, ds)
  | '+' :: ds => (false, ds)
  | ds => (false, ds)

theorem splitExponent_digits (h : NumberPart.mark.after? s = some q) (hq : q.complete = true) :
    DigitRun (splitExponent s).2 := by
  cases s with
  | nil =>
    obtain rfl := Option.some.inj h
    cases hq
  | cons c s =>
    rw [after?_cons] at h
    unfold splitExponent
    split
    · rename_i heq
      obtain ⟨rfl, rfl⟩ := List.cons.inj heq
      exact digits_of_markSign h hq
    · rename_i heq
      obtain ⟨rfl, rfl⟩ := List.cons.inj heq
      exact digits_of_markSign h hq
    · rename_i hminus hplus
      have hc : c ≠ '+' ∧ c ≠ '-' :=
        ⟨fun he => hplus s (he ▸ rfl), fun he => hminus s (he ▸ rfl)⟩
      cases hdigit : c.isDigit with
      | false => simp [next?, hc, hdigit] at h
      | true =>
        simp only [next?, hc, hdigit, decide_false, Bool.or_false, if_true] at h
        exact ⟨List.cons_ne_nil _ _, List.forall_mem_cons.mpr ⟨hdigit, digits_of_exponent h⟩⟩

theorem readExponent?_eq (h : DigitRun (splitExponent s).2) :
    readExponent? s = some (if (splitExponent s).1 then -(natOfDigits (splitExponent s).2 : Int)
      else natOfDigits (splitExponent s).2) := by
  have hread : readExponent? s =
      if (splitExponent s).2.isEmpty || !(splitExponent s).2.all Char.isDigit then none
      else some (if (splitExponent s).1 then -(natOfDigits (splitExponent s).2 : Int)
        else natOfDigits (splitExponent s).2) := rfl
  rw [hread, if_neg]
  simpa using ⟨h.1, h.2⟩

/-- The characters behind the digits of a number are none, or an exponent. -/
def ExponentAt (s : List Char) : Prop :=
  s = [] ∨ ∃ m t, s = m :: t ∧ (m = 'e' ∨ m = 'E') ∧ DigitRun (splitExponent t).2

/-- Where no digit can go on and no point can follow, there is an exponent or nothing. -/
theorem exponentAt_of_after? (hp : p = .zero ∨ p = .whole ∨ p = .fraction)
    (h : p.after? s = some q) (hq : q.complete = true)
    (hs : ∀ c t, s = c :: t → c.isDigit = false ∧ (c = '.' → p = .fraction)) : ExponentAt s := by
  cases s with
  | nil => exact .inl rfl
  | cons c t =>
    obtain ⟨hdigit, hpoint⟩ := hs c t rfl
    rw [after?_cons] at h
    have hmark : p.next? c = if c = 'e' || c = 'E' then some .mark else none := by
      rcases hp with rfl | rfl | rfl
      · have hpoint : c ≠ '.' := by
          intro hc
          cases hpoint hc
        simp [next?, hpoint]
      · have hpoint : c ≠ '.' := by
          intro hc
          cases hpoint hc
        simp [next?, hdigit, hpoint]
      · simp [next?, hdigit]
    rw [hmark] at h
    split at h
    · rename_i hmark
      exact .inr ⟨c, t, rfl, by simpa using hmark, splitExponent_digits h hq⟩
    · cases h

/-- The digits before the point. -/
theorem whole_of_after? (h : sign.after? s = some q) (hq : q.complete = true) :
    s.takeWhile Char.isDigit ≠ [] ∧
      ∃ p : NumberPart, (p = .zero ∨ p = .whole) ∧ p.after? (s.dropWhile Char.isDigit) = some q := by
  cases s with
  | nil =>
    obtain rfl := Option.some.inj h
    cases hq
  | cons c s =>
    rw [after?_cons] at h
    cases hdigit : c.isDigit with
    | false =>
      have hzero : c ≠ '0' := by
        rintro rfl
        cases hdigit
      simp [next?, hdigit, hzero] at h
    | true =>
      rw [List.takeWhile_cons_of_pos hdigit, List.dropWhile_cons_of_pos hdigit]
      refine ⟨List.cons_ne_nil _ _, ?_⟩
      by_cases hzero : c = '0'
      · subst hzero
        have h : NumberPart.zero.after? s = some q := h
        have hrest : s.dropWhile Char.isDigit = s := by
          cases s with
          | nil => rfl
          | cons d s =>
            rw [after?_cons] at h
            cases hd : d.isDigit with
            | false => exact List.dropWhile_cons_of_neg (by simp [hd])
            | true =>
              have hpoint : d ≠ '.' ∧ d ≠ 'e' ∧ d ≠ 'E' := by
                refine ⟨?_, ?_, ?_⟩ <;> rintro rfl <;> cases hd
              simp [next?, hpoint] at h
        exact ⟨.zero, .inl rfl, hrest.symm ▸ h⟩
      · simp only [next?, hzero, hdigit, if_true, if_false, Option.bind_some] at h
        rw [after?_span fun c hc => by simp [next?, hc]] at h
        exact ⟨.whole, .inr rfl, h⟩

/-- The digits behind the point. -/
theorem fraction_of_after? (h : point.after? s = some q) (hq : q.complete = true) :
    s.takeWhile Char.isDigit ≠ [] ∧ ExponentAt (s.dropWhile Char.isDigit) := by
  cases s with
  | nil =>
    obtain rfl := Option.some.inj h
    cases hq
  | cons c s =>
    rw [after?_cons] at h
    cases hdigit : c.isDigit with
    | false => simp [next?, hdigit] at h
    | true =>
      rw [List.takeWhile_cons_of_pos hdigit, List.dropWhile_cons_of_pos hdigit]
      refine ⟨List.cons_ne_nil _ _, ?_⟩
      simp only [next?, hdigit, if_true, Option.bind_some] at h
      rw [after?_span fun c hc => by simp [next?, hc]] at h
      exact exponentAt_of_after? (.inr (.inr rfl)) h hq fun c t heq =>
        ⟨dropWhile_digits_head heq, fun _ => rfl⟩

/-! ## The parts -/

/-- The exponent that is found in the characters behind the digits. -/
def exponentOf (s : List Char) : Option (Bool × List Char) :=
  match s with
  | [] => none
  | _ :: '-' :: ds => some (true, ds)
  | _ :: '+' :: ds => some (false, ds)
  | _ :: ds => some (false, ds)

theorem exponentOf_cons (m : Char) (s : List Char) :
    exponentOf (m :: s) = some (splitExponent s) := by
  unfold exponentOf splitExponent
  split <;> simp_all

/-- The exponent of ten that such characters write. -/
def powerOf (s : List Char) : ℤ :=
  match exponentOf s with
  | none => 0
  | some (negative, ds) => if negative then -(natOfDigits ds : ℤ) else natOfDigits ds

/-! ## The decimal -/

/-- Both readers take the same exponent from the characters behind the digits. -/
theorem readPower?_eq (value : ℤ → Float) : ExponentAt s →
    (match s with
      | [] => some (value 0)
      | mark :: r => if mark = 'e' || mark = 'E' then (readExponent? r).map value else none) =
      some (value (powerOf s)) := by
  rintro (rfl | ⟨m, t, rfl, hm, ht⟩)
  · rfl
  · dsimp only
    rw [if_pos (by simpa using hm), readExponent?_eq ht, powerOf, exponentOf_cons]
    rfl

theorem exponentAt_unpointed (h : sign.after? s = some q) (hq : q.complete = true)
    (hpoint : ∀ t, s.dropWhile Char.isDigit ≠ '.' :: t) : ExponentAt (s.dropWhile Char.isDigit) := by
  obtain ⟨-, p, hp, hafter⟩ := whole_of_after? h hq
  refine exponentAt_of_after? (hp.imp_right .inl) hafter hq fun c t heq => ?_
  exact ⟨dropWhile_digits_head heq, fun hc => absurd (hc ▸ heq) (hpoint t)⟩

theorem exponentAt_pointed {t : List Char} (h : sign.after? s = some q) (hq : q.complete = true)
    (hpoint : s.dropWhile Char.isDigit = '.' :: t) :
    ExponentAt (t.dropWhile Char.isDigit) := by
  obtain ⟨-, p, hp, hafter⟩ := whole_of_after? h hq
  rw [hpoint, after?_cons] at hafter
  have hnext : p.next? '.' = some .point := by rcases hp with rfl | rfl <;> rfl
  rw [hnext] at hafter
  exact (fraction_of_after? hafter hq).2

theorem ofChars_negative (hs : ∀ t, s ≠ '-' :: t) : (Numeral.ofChars s).negative = false := by
  simp only [Numeral.ofChars]

theorem ofChars_pointed {t : List Char} (hs : ∀ t, s ≠ '-' :: t)
    (hpoint : s.dropWhile Char.isDigit = '.' :: t) :
    Numeral.ofChars s = ⟨false, s.takeWhile Char.isDigit, some (t.takeWhile Char.isDigit),
      exponentOf (t.dropWhile Char.isDigit)⟩ := by
  simp only [Numeral.ofChars, hpoint]
  rfl

theorem ofChars_unpointed (hs : ∀ t, s ≠ '-' :: t)
    (hpoint : ∀ t, s.dropWhile Char.isDigit ≠ '.' :: t) :
    Numeral.ofChars s = ⟨false, s.takeWhile Char.isDigit, none,
      exponentOf (s.dropWhile Char.isDigit)⟩ := by
  simp only [Numeral.ofChars]
  rfl

/-- **Unsigned characters of a number** are read as the number that their parts write. -/
theorem readDecimal?_eq (h : sign.after? s = some q) (hq : q.complete = true) :
    readDecimal? s = some (Numeral.ofChars s).nearestMagnitude := by
  obtain ⟨hwhole, -⟩ := whole_of_after? h hq
  have hwhole : (s.takeWhile Char.isDigit).isEmpty = false := by simpa using hwhole
  have hsign : ∀ t, s ≠ '-' :: t := by
    rintro t rfl
    rw [after?_cons] at h
    cases h
  by_cases hpoint : ∃ t, s.dropWhile Char.isDigit = '.' :: t
  · obtain ⟨t, hpoint⟩ := hpoint
    rw [ofChars_pointed hsign hpoint, readDecimal?]
    simp only [hpoint, hwhole, Bool.false_and, Bool.false_eq_true, if_false]
    exact readPower?_eq (fun e => nearestFloat
      (natOfDigits (s.takeWhile Char.isDigit ++ t.takeWhile Char.isDigit))
      (e - (t.takeWhile Char.isDigit).length)) (exponentAt_pointed h hq hpoint)
  · have hpoint : ∀ t, s.dropWhile Char.isDigit ≠ '.' :: t := fun t heq => hpoint ⟨t, heq⟩
    rw [ofChars_unpointed hsign hpoint, readDecimal?]
    simp only [hwhole, Bool.false_and, Bool.false_eq_true, if_false]
    exact readPower?_eq (fun e => nearestFloat
      (natOfDigits (s.takeWhile Char.isDigit ++ [])) (e - ([] : List Char).length))
      (exponentAt_unpointed h hq hpoint)

theorem toLower_digit (h : c.isDigit = true) : c.toLower = c := by
  simp only [Char.isDigit, Char.toLower] at *
  grind

/-- What begins with a digit is no word. -/
theorem readWord?_digit (h : c.isDigit = true) (t : List Char) : readWord? (c :: t) = none := by
  have hword : ∀ d w, d.isDigit = false → (c :: t).map Char.toLower ≠ d :: w := by
    intro d w hd heq
    rw [List.map_cons, toLower_digit h] at heq
    obtain ⟨rfl, -⟩ := List.cons.inj heq
    exact Bool.false_ne_true (hd.symm.trans h)
  have hinf : (c :: t).map Char.toLower ≠ "inf".toList := hword 'i' _ rfl
  have hinfinity : (c :: t).map Char.toLower ≠ "infinity".toList := hword 'i' _ rfl
  have hnan : (c :: t).map Char.toLower ≠ "nan".toList := hword 'n' _ rfl
  rw [readWord?]
  simp only [hinf, hinfinity, hnan, decide_false, Bool.or_false, if_false, Bool.false_eq_true]

theorem head_of_after? (h : sign.after? s = some q) (hq : q.complete = true) :
    ∃ c t, s = c :: t ∧ c.isDigit = true := by
  cases s with
  | nil =>
    obtain rfl := Option.some.inj h
    cases hq
  | cons c t =>
    refine ⟨c, t, rfl, ?_⟩
    obtain ⟨hne, -⟩ := whole_of_after? h hq
    by_contra hdigit
    exact hne (List.takeWhile_cons_of_neg hdigit)

/-- **A number's characters** are read as the number that its parts write. -/
theorem readChars?_eq (h : sign.after? (unsigned s) = some q) (hq : q.complete = true) :
    readChars? s = some (Numeral.ofChars s).nearest := by
  obtain ⟨c, t, hs, hdigit⟩ := head_of_after? h hq
  have hword := readWord?_digit hdigit t
  have hread := readDecimal?_eq h hq
  have hminus : c ≠ '-' := by
    rintro rfl
    cases hdigit
  have hplus : c ≠ '+' := by
    rintro rfl
    cases hdigit
  have hunsigned : ∀ u, c :: t ≠ '-' :: u := fun u heq => hminus (List.cons.inj heq).1
  rw [hs] at hread
  have hvalue : (readWord? (c :: t)).or (readDecimal? (c :: t)) =
      some (Numeral.ofChars (c :: t)).nearestMagnitude := by
    rw [hword, hread]
    rfl
  unfold unsigned at hs
  split at hs
  · subst hs
    show ((readWord? (c :: t)).or (readDecimal? (c :: t))).map _ = _
    rw [hvalue, Numeral.ofChars_minus hunsigned]
    rfl
  · subst hs
    have hsigned : readChars? (c :: t) =
        ((readWord? (c :: t)).or (readDecimal? (c :: t))).map fun x => x := by
      unfold readChars?
      split
      rename_i heq
      split at heq
      · rename_i heq'
        exact absurd (List.cons.inj heq').1 hminus
      · rename_i heq'
        exact absurd (List.cons.inj heq').1 hplus
      · obtain ⟨rfl, rfl⟩ := Prod.mk.inj heq
        rfl
    rw [hsigned, hvalue, Numeral.nearest, ofChars_negative hunsigned]
    rfl

/-! ## Blanks -/

theorem isBlank_of_isNumberChar (h : IsNumberChar c) : Text.isBlank c = false := by
  have hmarks : ['.', 'e', 'E', '+', '-'].all (!Text.isBlank ·) = true := rfl
  rcases h with h | h
  · rw [Char.isDigit, Bool.and_eq_true, decide_eq_true_eq, decide_eq_true_eq] at h
    have hlow : 48 ≤ c.toNat := h.1
    have hhigh : c.toNat ≤ 57 := h.2
    simp [Text.isBlank]
    omega
  · exact (Bool.not_eq_true' _).mp (List.all_eq_true.mp hmarks c h)

/-- Around a number's characters there is nothing to trim. -/
theorem trim_number (h : ∀ c ∈ s, IsNumberChar c) :
    Text.trim (String.ofList s) = String.ofList s := by
  have hkept : ∀ t : List Char, (∀ c ∈ t, IsNumberChar c) → t.dropWhile Text.isBlank = t := by
    intro t ht
    rw [List.dropWhile_eq_self_iff]
    intro hl
    rw [isBlank_of_isNumberChar (ht _ (List.getElem_mem hl))]
    exact Bool.false_ne_true
  rw [Text.trim, String.toList_ofList, Text.trimChars, hkept s h, Text.dropEndWhile,
    hkept _ fun c hc => h c (List.mem_reverse.mp hc), List.reverse_reverse]

/-- **A number between quotes** is read as the decimal that its parts write. -/
theorem Whole.read? {rest : List Char} (h : Whole s rest) :
    Decimal.read? (Text.trim (String.ofList s)) = some (Numeral.ofChars s).nearest := by
  rw [trim_number h.isNumberChar, Decimal.read?, String.toList_ofList]
  obtain ⟨q, hafter, hq, -⟩ := h
  exact readChars?_eq hafter hq

end VehiclePrivacy.Json
