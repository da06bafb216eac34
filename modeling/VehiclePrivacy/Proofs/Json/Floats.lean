import VehiclePrivacy.Json.Printer
import VehiclePrivacy.Proofs.Binary64.Conversion
import VehiclePrivacy.Proofs.Decimal.Shortest
import VehiclePrivacy.Proofs.Json.Numerals

/-!
# The text of a float

Up to seventeen digits with a point, an exponent, or both. Whichever way they are written, the text
is that of a number, and a reader is left with the digits and an exponent of ten
(`reads_digitsText`). All the digits fit the significand, so none is dropped. The only difference is
that a whole number is written with a digit after the point, which the reader takes for one more
digit (`written`).
-/

namespace VehiclePrivacy.Json

open Decimal Numeral Binary64

variable {ds : List Char} {s n k : ℕ}

/-! ## Digits -/

theorem natOfDigits_toDigits (n : ℕ) : natOfDigits (Nat.toDigits 10 n) = n :=
  Nat.ofDigitChars_ten_toDigits

/-- No zero leads the digits of a positive number. -/
theorem toDigits_head (hn : 0 < n) : ∀ c t, Nat.toDigits 10 n = c :: t → c ≠ '0' := by
  induction n using Nat.strongRecOn with
  | ind n ih =>
    intro c t heq
    rcases Nat.lt_or_ge n 10 with hlt | hle
    · have hdigit : ∀ n < 10, 0 < n → Nat.digitChar n ≠ '0' := by decide
      rw [Nat.toDigits_of_lt_base hlt] at heq
      rw [← (List.cons.inj heq).1]
      exact hdigit n hlt hn
    · rw [Nat.toDigits_of_base_le (by decide) hle] at heq
      obtain ⟨c', t', hfront⟩ := List.exists_cons_of_ne_nil (Nat.toDigits_ne_nil (n := n / 10)
        (b := 10))
      rw [hfront, List.cons_append] at heq
      rw [← (List.cons.inj heq).1]
      exact ih (n / 10) (by omega) (by omega) c' t' hfront

theorem le_ofDigitChars (ds : List Char) (s : ℕ) : s ≤ Nat.ofDigitChars 10 ds s := by
  induction ds generalizing s with
  | nil => exact le_rfl
  | cons d ds ih =>
    rw [Nat.ofDigitChars_cons]
    exact le_trans (by omega) (ih _)

/-- Digits that fit are all taken into the significand. -/
theorem absorb_eq (h : Nat.ofDigitChars 10 ds s < significandLimit) :
    absorb s ds = (Nat.ofDigitChars 10 ds s, []) := by
  induction ds generalizing s with
  | nil => rfl
  | cons d ds ih =>
    rw [Nat.ofDigitChars_cons] at h ⊢
    have hnext : 10 * s + digitValue d < significandLimit :=
      (le_ofDigitChars ds _).trans_lt h
    rw [absorb, if_pos hnext]
    exact ih h

/-- All digits of the number, without the point. -/
def Numeral.allDigits (n : Numeral) : List Char := n.whole ++ n.fraction.getD []

/-- The exponent of ten that is written. -/
def Numeral.writtenExponent (n : Numeral) : ℤ :=
  match n.exponent with
  | none => 0
  | some (negative, ds) => if negative then -(natOfDigits ds : ℤ) else natOfDigits ds

/-- The magnitude is the significand that was taken, scaled by the exponent, the digits before the
point that were left over, and those behind it that were taken. -/
theorem magnitude?_of_absorb {n : Numeral} {head significand : ℕ} {unread dropped : List Char}
    (hhead : absorb 0 n.whole = (head, unread))
    (hsignificand : absorb head (n.fraction.getD []) = (significand, dropped))
    (hexponent : n.writtenExponent.natAbs < exponentLimit) :
    n.magnitude? = scale? significand (n.writtenExponent +
      (unread.length - ((n.fraction.getD []).length - dropped.length : ℕ))) := by
  rw [magnitude?]
  simp only [hhead, hsignificand]
  cases hn : n.exponent with
  | none => rw [writtenExponent, hn, zero_add]
  | some e =>
    obtain ⟨negative, ds⟩ := e
    rw [writtenExponent, hn] at hexponent
    rw [writtenExponent, hn]
    dsimp only at hexponent ⊢
    have hds : natOfDigits ds < exponentLimit := by
      cases negative <;> simpa using hexponent
    rw [if_pos hds]
    congr 1
    cases negative <;> simp <;> ring

/-- **Without dropped digits** the magnitude is that of the digits as a whole number, scaled by the
exponent and the count of places. -/
theorem magnitude?_eq {n : Numeral} (h : natOfDigits n.allDigits < significandLimit)
    (hexponent : n.writtenExponent.natAbs < exponentLimit) :
    n.magnitude? = scale? (natOfDigits n.allDigits)
      (n.writtenExponent - (n.fraction.getD []).length) := by
  have hall : natOfDigits n.allDigits = Nat.ofDigitChars 10 (n.fraction.getD [])
      (Nat.ofDigitChars 10 n.whole 0) := Nat.ofDigitChars_append 0
  rw [hall] at h ⊢
  have hwhole : Nat.ofDigitChars 10 n.whole 0 < significandLimit :=
    (le_ofDigitChars _ _).trans_lt h
  rw [magnitude?_of_absorb (absorb_eq hwhole) (absorb_eq h) hexponent]
  congr 1
  simp
  ring

/-! ## Texts of positive decimals -/

/-- The characters are those of a number with a point or an exponent, of which a reader is left with
the decimal. -/
def Reads (s : List Char) (d : Digits) : Prop :=
  ∃ n : Numeral, n.WellFormed ∧ n.magnitudeChars = s ∧ ¬ (n.fraction = none ∧ n.exponent = none) ∧
    n.magnitude? = scale? d.digits d.exponent

theorem Numeral.WellFormed.reads {n : Numeral} {d : Digits} (h : n.WellFormed)
    (hreal : ¬ (n.fraction = none ∧ n.exponent = none))
    (hdigits : natOfDigits n.allDigits = d.digits) (hlt : d.digits < significandLimit)
    (hexponent : n.writtenExponent.natAbs < exponentLimit)
    (hplaces : n.writtenExponent - (n.fraction.getD []).length = d.exponent) :
    Reads n.magnitudeChars d := by
  refine ⟨n, h, rfl, hreal, ?_⟩
  rw [magnitude?_eq (by rwa [hdigits]) hexponent, hdigits, hplaces]

section Shapes

variable {D places : ℕ}

theorem isDigit_of_mem_toDigits : ∀ c ∈ Nat.toDigits 10 D, c.isDigit = true :=
  (digitRun_toDigits D).2

theorem isDigit_of_mem_zeros : ∀ c ∈ List.replicate k '0', c.isDigit = true := by
  intro c hc
  rw [List.eq_of_mem_replicate hc]
  rfl

theorem digitRun_zero : DigitRun ['0'] :=
  ⟨List.cons_ne_nil _ _, List.forall_mem_singleton.mpr rfl⟩

/-- What stands before the point begins like the digits of a positive number. -/
theorem not_leading_zero (hD : 0 < D) {front rest : List Char}
    (hfront : front ++ rest = Nat.toDigits 10 D) : ∀ t, front = '0' :: t → t = [] := by
  rintro t rfl
  exact absurd rfl (toDigits_head hD '0' (t ++ rest) hfront.symm)

/-- A whole number is written with a zero after the point. -/
theorem reads_whole (hD : 0 < D) (z : ℕ) (hlt : D * 10 ^ (z + 1) < significandLimit) :
    Reads (Nat.toDigits 10 D ++ List.replicate z '0' ++ ['.', '0']) ⟨D * 10 ^ (z + 1), -1⟩ := by
  obtain ⟨c, t, hdigits⟩ := List.exists_cons_of_ne_nil (digitRun_toDigits D).1
  let n : Numeral := ⟨false, Nat.toDigits 10 D ++ List.replicate z '0', some ['0'], none⟩
  have hwf : n.WellFormed := by
    refine ⟨(digitRun_toDigits D).append isDigit_of_mem_zeros, fun ds heq => ?_,
      fun ds heq => ?_, nofun⟩
    · have heq : Nat.toDigits 10 D ++ List.replicate z '0' = '0' :: ds := heq
      rw [hdigits, List.cons_append] at heq
      exact absurd (List.cons.inj heq).1 (toDigits_head hD c t hdigits)
    · obtain rfl := Option.some.inj heq
      exact digitRun_zero
  have hvalue : natOfDigits n.allDigits = D * 10 ^ (z + 1) := by
    show Nat.ofDigitChars 10 (Nat.toDigits 10 D ++ List.replicate z '0' ++ ['0']) 0 = _
    rw [Nat.ofDigitChars_append, Nat.ofDigitChars_append, Nat.ofDigitChars_ten_toDigits,
      Nat.ofDigitChars_replicate_zero]
    show 10 * (10 ^ z * D) + 0 = _
    ring
  exact hwf.reads (fun h => nomatch h.1) hvalue hlt (show (0 : ℤ).natAbs < _ by decide) rfl

/-- A number with digits on either side of the point. -/
theorem reads_point (hD : 0 < D) (hlt : D < significandLimit) (hplaces : 0 < places)
    (hlen : places < (Nat.toDigits 10 D).length) :
    Reads ((Nat.toDigits 10 D).take ((Nat.toDigits 10 D).length - places) ++
      '.' :: (Nat.toDigits 10 D).drop ((Nat.toDigits 10 D).length - places)) ⟨D, -places⟩ := by
  set cut := (Nat.toDigits 10 D).length - places with hcut
  let n : Numeral :=
    ⟨false, (Nat.toDigits 10 D).take cut, some ((Nat.toDigits 10 D).drop cut), none⟩
  have hwf : n.WellFormed := by
    refine ⟨⟨?_, fun c hc => isDigit_of_mem_toDigits c (List.mem_of_mem_take hc)⟩,
      not_leading_zero hD (List.take_append_drop _ _), fun ds heq => ?_, nofun⟩
    · exact List.ne_nil_of_length_pos (by rw [List.length_take]; omega)
    · obtain rfl := Option.some.inj heq
      refine ⟨List.ne_nil_of_length_pos (by rw [List.length_drop]; omega), fun c hc => ?_⟩
      exact isDigit_of_mem_toDigits c (List.mem_of_mem_drop hc)
  have hvalue : natOfDigits n.allDigits = D := by
    show natOfDigits ((Nat.toDigits 10 D).take cut ++ (Nat.toDigits 10 D).drop cut) = D
    rw [List.take_append_drop, natOfDigits_toDigits]
  have hlength : ((Nat.toDigits 10 D).drop cut).length = places := by
    rw [List.length_drop]
    omega
  have hchars : n.magnitudeChars = (Nat.toDigits 10 D).take cut ++
      '.' :: (Nat.toDigits 10 D).drop cut := by
    show _ ++ ('.' :: _ ++ []) = _
    rw [List.append_nil]
  rw [← hchars]
  refine hwf.reads (fun h => nomatch h.1) hvalue hlt (show (0 : ℤ).natAbs < _ by decide) ?_
  show (0 : ℤ) - ((Nat.toDigits 10 D).drop cut).length = -places
  rw [hlength, zero_sub]

/-- A number below one. -/
theorem reads_below_one (hlt : D < significandLimit)
    (hlen : (Nat.toDigits 10 D).length ≤ places) :
    Reads ('0' :: '.' :: List.replicate (places - (Nat.toDigits 10 D).length) '0' ++
      Nat.toDigits 10 D) ⟨D, -places⟩ := by
  set zeros := List.replicate (places - (Nat.toDigits 10 D).length) '0' with hzeros
  let n : Numeral := ⟨false, ['0'], some (zeros ++ Nat.toDigits 10 D), none⟩
  have hwf : n.WellFormed := by
    refine ⟨digitRun_zero, fun ds heq => (List.cons.inj heq).2.symm,
      fun ds heq => ?_, nofun⟩
    obtain rfl := Option.some.inj heq
    refine ⟨List.append_ne_nil_of_right_ne_nil _ (digitRun_toDigits D).1, ?_⟩
    exact List.forall_mem_append.mpr ⟨isDigit_of_mem_zeros, isDigit_of_mem_toDigits⟩
  have hvalue : natOfDigits n.allDigits = D := by
    show Nat.ofDigitChars 10 (['0'] ++ (zeros ++ Nat.toDigits 10 D)) 0 = D
    rw [Nat.ofDigitChars_append, Nat.ofDigitChars_append, hzeros, Nat.ofDigitChars_replicate_zero]
    show Nat.ofDigitChars 10 _ (10 ^ _ * 0) = D
    rw [mul_zero, Nat.ofDigitChars_ten_toDigits]
  have hlength : (zeros ++ Nat.toDigits 10 D).length = places := by
    rw [List.length_append, hzeros, List.length_replicate]
    omega
  have hchars : n.magnitudeChars = '0' :: '.' :: zeros ++ Nat.toDigits 10 D := by
    show ['0'] ++ ('.' :: (zeros ++ Nat.toDigits 10 D) ++ []) = _
    rw [List.append_nil]
    rfl
  rw [← hchars]
  refine hwf.reads (fun h => nomatch h.1) hvalue hlt (show (0 : ℤ).natAbs < _ by decide) ?_
  show (0 : ℤ) - (zeros ++ Nat.toDigits 10 D).length = -places
  rw [hlength, zero_sub]

/-- A number with its exponent of ten. -/
theorem reads_exponent (hlt : D < significandLimit) {first : ℤ}
    (hfirst : first.natAbs < exponentLimit) :
    Reads (Notation.json.exponentText (Nat.toDigits 10 D) first)
      ⟨D, first - ((Nat.toDigits 10 D).length - 1)⟩ := by
  obtain ⟨c, t, hdigits⟩ := List.exists_cons_of_ne_nil (digitRun_toDigits D).1
  have hrun := isDigit_of_mem_toDigits (D := D)
  rw [hdigits, List.forall_mem_cons] at hrun
  let n : Numeral := ⟨false, [c], if t.isEmpty then none else some t,
    some (decide (first < 0), Nat.toDigits 10 first.natAbs)⟩
  have hfraction : n.fraction.getD [] = t := by
    cases t <;> rfl
  have hwf : n.WellFormed := by
    refine ⟨⟨List.cons_ne_nil _ _, ?_⟩, fun ds heq => (List.cons.inj heq).2.symm,
      fun ds heq => ?_, fun negative ds heq => ?_⟩
    · exact List.forall_mem_cons.mpr ⟨hrun.1, nofun⟩
    · cases t with
      | nil => cases heq
      | cons e t =>
        obtain rfl := Option.some.inj heq
        exact ⟨List.cons_ne_nil e t, hrun.2⟩
    · have heq := Option.some.inj heq
      rw [← (Prod.mk.inj heq).2]
      exact digitRun_toDigits _
  have hexponent : n.writtenExponent = first := by
    show (if decide (first < 0) = true then -(natOfDigits _ : ℤ) else natOfDigits _) = first
    rw [natOfDigits_toDigits]
    simp only [decide_eq_true_eq]
    split <;> omega
  have hvalue : natOfDigits n.allDigits = D := by
    show natOfDigits ([c] ++ n.fraction.getD []) = D
    rw [hfraction, List.singleton_append, ← hdigits, natOfDigits_toDigits]
  have hchars : n.magnitudeChars = Notation.json.exponentText (Nat.toDigits 10 D) first := by
    have hsign : (if first < 0 then ['-'] else if Notation.json.plusSign then ['+'] else []) =
        [if decide (first < 0) then '-' else '+'] := by
      simp only [decide_eq_true_eq]
      split <;> rfl
    unfold Notation.exponentText
    rw [hsign, hdigits]
    cases t with
    | nil => rfl
    | cons e t => exact (List.append_assoc (c :: '.' :: e :: t) ['e', _] _).symm
  rw [← hchars]
  refine hwf.reads (fun h => nomatch h.2) hvalue hlt (by rwa [hexponent]) ?_
  rw [hexponent, hfraction, hdigits, List.length_cons]
  push_cast
  ring

end Shapes

/-- The decimal that a reader is left with: a whole number without an exponent has one more digit,
the zero after its point. -/
def written (d : Digits) : Digits :=
  if 0 ≤ d.exponent ∧
      Notation.json.positional (d.exponent + ((Nat.toDigits 10 d.digits).length - 1)) = true then
    ⟨d.digits * 10 ^ (d.exponent.toNat + 1), -1⟩
  else d

/-- At most sixteen digits stand before the point, so seventeen are enough again. -/
theorem written_digits_lt {d : Digits} (hlt : d.digits < 10 ^ 17) :
    (written d).digits < 10 ^ 17 := by
  rw [written]
  split
  · rename_i h
    have hle := of_decide_eq_true (Bool.and_eq_true _ _ ▸ h.2).2
    have hdigits : d.digits < 10 ^ (Nat.toDigits 10 d.digits).length :=
      (Nat.length_toDigits_le_iff (by decide) Nat.length_toDigits_pos).mp le_rfl
    calc d.digits * 10 ^ (d.exponent.toNat + 1)
        < 10 ^ (Nat.toDigits 10 d.digits).length * 10 ^ (d.exponent.toNat + 1) := by gcongr
      _ = 10 ^ ((Nat.toDigits 10 d.digits).length + (d.exponent.toNat + 1)) :=
          (pow_add 10 _ _).symm
      _ ≤ 10 ^ 17 := Nat.pow_le_pow_right (by decide) (by omega)
  · exact hlt

/-- **The text of a positive decimal is read as that decimal.** -/
theorem reads_digitsText {d : Digits} (hpos : 0 < d.digits) (hlt : d.digits < 10 ^ 17)
    (hlow : -340 ≤ d.exponent) (hhigh : d.exponent ≤ 308) :
    Reads (Notation.json.digitsText d) (written d) := by
  have hwritten := written_digits_lt hlt
  obtain ⟨D, p⟩ := d
  dsimp only at hpos hlt hlow hhigh
  have hlength : (Nat.toDigits 10 D).length ≤ 17 :=
    (Nat.length_toDigits_le_iff (by decide) (by decide)).mpr hlt
  have hlimit : ∀ {n}, n < 10 ^ 17 → n < significandLimit := fun h => h.trans (by decide)
  rw [Notation.digitsText]
  rw [written] at hwritten ⊢
  dsimp only at hwritten ⊢
  by_cases hpositional : Notation.json.positional (p + ((Nat.toDigits 10 D).length - 1)) = true
  · rw [if_pos hpositional]
    rcases p with z | k
    · rw [if_pos ⟨Int.natCast_nonneg z, hpositional⟩] at hwritten ⊢
      exact reads_whole hpos z (hlimit hwritten)
    · rw [if_neg (fun h => absurd h.1 (by omega))]
      show Reads (if k + 1 < _ then _ else _) ⟨D, Int.negSucc k⟩
      rw [Int.negSucc_eq]
      split
      · rename_i hlen
        exact reads_point hpos (hlimit hlt) (Nat.succ_pos k) hlen
      · rename_i hlen
        exact reads_below_one (hlimit hlt) (not_lt.mp hlen)
  · rw [if_neg hpositional, if_neg (fun h => hpositional h.2)]
    have hfirst : (p + ((Nat.toDigits 10 D).length - 1) : ℤ).natAbs < exponentLimit := by
      show _ < 2 ^ 31
      omega
    have hreads := reads_exponent (hlimit hlt) hfirst
    rwa [add_sub_cancel_right] at hreads

/-! ## Texts of floats -/

variable {x : Float} {b : Binary}

/-- The decimal that a reader is left with of a float other than zero, sign apart. -/
def leftOf (b : Binary) : Digits := written (b.shortest .toEven)

/-- The sign is put before the text, and before the number that is read. -/
theorem Reads.signed {s : List Char} {d : Digits} (h : Reads s d) (negative : Bool) :
    ∃ n : Numeral, n.WellFormed ∧ n.chars = (if negative then ['-'] else []) ++ s ∧
      n.value? = (scale? d.digits d.exponent).map fun y =>
        Number.real (if negative then -y else y) := by
  obtain ⟨n, hwf, hchars, hreal, hmagnitude⟩ := h
  refine ⟨{ n with negative }, ⟨hwf.whole, hwf.leading, hwf.fraction, hwf.exponent⟩, ?_, ?_⟩
  · rw [← hchars]
    rfl
  · have hinteger : (n.fraction.isNone && n.exponent.isNone) = false := by
      rw [Bool.and_eq_false_iff]
      by_contra hnone
      rw [not_or, Bool.not_eq_false, Bool.not_eq_false, Option.isNone_iff_eq_none,
        Option.isNone_iff_eq_none] at hnone
      exact hreal hnone
    rw [Numeral.value?]
    dsimp only
    rw [hinteger, Bool.false_and, if_neg Bool.false_ne_true, toFloat?]
    show (n.magnitude?.map _).map _ = _
    rw [hmagnitude, Option.map_map]
    rfl

/-- **The text of a float** other than zero is that of a number, which is read as a real number. -/
theorem chars_real (h : Binary.ofFloat? x = some b) (hm : 0 < b.significand) :
    ∃ n : Numeral, n.WellFormed ∧ n.chars = Notation.json.chars x ∧
      n.value? = (scale? (leftOf b).digits (leftOf b).exponent).map fun y =>
        Number.real (if b.negative then -y else y) := by
  obtain ⟨⟨hcanonical, he⟩, -⟩ := ofFloat?_number h
  have hit := Binary.shortest_hit hm .toEven
  have hreads : Reads (Notation.json.digitsText (b.shortest .toEven)) (leftOf b) :=
    reads_digitsText (hit.digits_pos hm) (hit.digits_lt hm hcanonical.bits)
      (hit.le_exponent hm hcanonical) (hit.exponent_le hm hcanonical.bits he)
  have hchars : Notation.json.chars x = (if b.negative then ['-'] else []) ++
      Notation.json.digitsText (b.shortest .toEven) := by
    rw [Notation.chars, h]
    dsimp only
    rw [Notation.binaryText, if_neg hm.ne']
    rfl
  rw [hchars]
  exact hreads.signed b.negative

theorem unpack_of_zero (h : Binary.ofFloat? x = some b) (hm : b.significand = 0) :
    x.toModel.unpack = .zero (if b.negative then .negative else .positive) := by
  rw [ofFloat?_eq] at h
  cases hu : x.toModel.unpack with
  | notANumber =>
    rw [hu] at h
    cases h
  | infinity s =>
    rw [hu] at h
    cases h
  | zero s =>
    rw [hu] at h
    cases h
    cases s <;> rfl
  | finite s m e hpos =>
    rw [hu] at h
    cases h
    exact absurd hm hpos.ne'

/-- **The text of a zero** is read as the same zero. -/
theorem chars_zero (h : Binary.ofFloat? x = some b) (hm : b.significand = 0) :
    ∃ n : Numeral, n.WellFormed ∧ n.chars = Notation.json.chars x ∧
      n.value? = some (.real x) := by
  have hwf : ∀ negative, (Numeral.mk negative ['0'] (some ['0']) none).WellFormed := by
    intro negative
    refine ⟨digitRun_zero, fun ds heq => (List.cons.inj heq).2.symm, fun ds heq => ?_, nofun⟩
    obtain rfl := Option.some.inj heq
    exact digitRun_zero
  have hunpack := unpack_of_zero h hm
  refine ⟨⟨b.negative, ['0'], some ['0'], none⟩, hwf _, ?_, ?_⟩
  · rw [Notation.chars, h]
    dsimp only
    rw [Notation.binaryText, if_pos hm]
    rfl
  · cases hb : b.negative with
    | false =>
      rw [hb] at hunpack
      have hzero : x = scaleDown (floatOfNat 0) 1 :=
        ext_unpack (hunpack.trans (by with_unfolding_all rfl))
      rw [hzero]
      rfl
    | true =>
      rw [hb] at hunpack
      have hzero : x = -scaleDown (floatOfNat 0) 1 :=
        ext_unpack (hunpack.trans (by with_unfolding_all rfl))
      rw [hzero]
      rfl

end VehiclePrivacy.Json
