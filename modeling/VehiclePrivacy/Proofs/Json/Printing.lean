import VehiclePrivacy.Json.Printer

/-!
# A value is written on one line

What a value is written as has no control characters below the space, whatever is in its strings and
names (`plain_chars`), and it is never empty (`chars_ne_nil`). So among its octets there is no line
feed (`lineFeed_notMem_octets`), and a reader of lines finds each value again.
-/

namespace VehiclePrivacy

namespace Text

/-- No control character below the space is among the characters. -/
def Plain (s : List Char) : Prop := ∀ c ∈ s, 0x20 ≤ c.toNat

variable {s t : List Char} {c : Char}

@[simp] theorem plain_nil : Plain [] := nofun

@[simp] theorem plain_cons : Plain (c :: s) ↔ 0x20 ≤ c.toNat ∧ Plain s := List.forall_mem_cons

@[simp] theorem plain_append : Plain (s ++ t) ↔ Plain s ∧ Plain t := List.forall_mem_append

/-- What is written only at times, such as a sign. -/
theorem plain_optional (p : Prop) [Decidable p] (hs : Plain s) : Plain (if p then s else []) := by
  split
  · exact hs
  · exact plain_nil

theorem Plain.subset (h : Plain t) (hs : s ⊆ t) : Plain s := fun c hc => h c (hs hc)

theorem plain_replicate (n : Nat) (h : 0x20 ≤ c.toNat) : Plain (List.replicate n c) := by
  intro d hd
  rw [List.eq_of_mem_replicate hd]
  exact h

theorem plain_toDigits (n : Nat) : Plain (Nat.toDigits 10 n) := by
  intro c hc
  have hdigit := Nat.isDigit_of_mem_toDigits (by decide) (by decide) hc
  simp only [Char.isDigit, Bool.and_eq_true, decide_eq_true_eq] at hdigit
  have hlow : 48 ≤ c.val.toNat := hdigit.1
  have hval : c.toNat = c.val.toNat := rfl
  omega

theorem digitChar_ge (n : Nat) : 0x20 ≤ (Nat.digitChar n).toNat := by
  by_cases h : n < 16
  · have hdigits : ∀ k < 16, 0x20 ≤ (Nat.digitChar k).toNat := by decide
    exact hdigits n h
  · have hstar : Nat.digitChar n = '*' := by
      simp only [Nat.digitChar]
      repeat rw [if_neg (by omega)]
    rw [hstar]
    decide

/-! ## Octets -/

/-- All octets of a character that is no control character below the space are as high as that. -/
theorem octet_ge {b : UInt8} (hc : 0x20 ≤ c.toNat) (h : b ∈ String.utf8EncodeChar c) :
    0x20 ≤ b.toNat := by
  have hval : c.toNat = c.val.toNat := rfl
  have hoctet : ∀ n, (UInt8.ofNat n).toNat = n % 256 := fun n => UInt8.toNat_ofNat'
  unfold String.utf8EncodeChar at h
  dsimp only at h
  -- a short form is the character itself, and the octets of the longer forms have their high bit
  split at h
  · rw [List.mem_singleton] at h
    subst h
    rw [hoctet]
    omega
  · split at h
    · simp only [List.mem_cons, List.not_mem_nil, or_false] at h
      rcases h with h | h <;> subst h <;> rw [hoctet] <;> omega
    · split at h
      · simp only [List.mem_cons, List.not_mem_nil, or_false] at h
        rcases h with h | h | h <;> subst h <;> rw [hoctet] <;> omega
      · simp only [List.mem_cons, List.not_mem_nil, or_false] at h
        rcases h with h | h | h | h <;> subst h <;> rw [hoctet] <;> omega

/-- Plain text has no line feed among its octets. -/
theorem lineFeed_notMem_octets {text : String} (h : Plain text.toList) :
    10 ∉ text.toUTF8.data.toList := by
  intro hmem
  have hoctets : text.toUTF8.data.toList = text.toList.flatMap String.utf8EncodeChar := by
    conv => lhs; rw [← String.ofList_toList (s := text)]
    rw [String.toUTF8_eq_toByteArray, String.toByteArray_ofList, List.utf8Encode,
      List.data_toByteArray]
  rw [hoctets, List.mem_flatMap] at hmem
  obtain ⟨c, hc, hb⟩ := hmem
  have hge := octet_ge (h c hc) hb
  exact absurd hge (by decide)

end Text

open Text

/-! ## Numbers -/

namespace Decimal.Notation

variable (n : Notation)

theorem plain_positionalText {ds : List Char} (hds : Plain ds) (exponent : Int) :
    Plain (n.positionalText ds exponent) := by
  have hzeros : ∀ k, Plain (List.replicate k '0') := fun k => plain_replicate k (by decide)
  unfold positionalText
  split
  · have hpoint : Plain (if n.pointZero then ['.', '0'] else []) :=
      plain_optional _ (by simp)
    simp [hds, hzeros, hpoint]
  · dsimp only
    split
    · simp [hds.subset (List.take_subset _ _), hds.subset (List.drop_subset _ _)]
    · simp [hds, hzeros]

theorem plain_exponentText {ds : List Char} (hds : Plain ds) (first : Int) :
    Plain (n.exponentText ds first) := by
  have hsign : Plain (if first < 0 then ['-'] else if n.plusSign then ['+'] else []) := by
    split
    · simp
    · exact plain_optional _ (by simp)
  unfold exponentText
  simp only [plain_append, plain_cons, hsign, plain_toDigits, and_true]
  split
  · simpa using hds
  · exact ⟨hds, by decide⟩

theorem plain_binaryText (b : Binary) : Plain (n.binaryText b) := by
  have hsign : Plain (if b.negative then ['-'] else []) := plain_optional _ (by simp)
  have hdigits : ∀ d : Digits, Plain (n.digitsText d) := by
    intro d
    unfold digitsText
    dsimp only
    split
    · exact n.plain_positionalText (plain_toDigits _) _
    · exact n.plain_exponentText (plain_toDigits _) _
  unfold binaryText
  rw [plain_append]
  refine ⟨hsign, ?_⟩
  split
  · exact n.plain_positionalText (by simp) 0
  · exact hdigits _

theorem plain_chars (x : Float) : Plain (n.chars x) := by
  unfold chars
  split
  · exact n.plain_binaryText _
  · split
    · simp
    · split <;> simp

theorem positionalText_ne_nil {ds : List Char} (hds : ds ≠ []) (exponent : Int) :
    n.positionalText ds exponent ≠ [] := by
  unfold positionalText
  split
  · simp [hds]
  · dsimp only
    split <;> simp

theorem digitsText_ne_nil (d : Digits) : n.digitsText d ≠ [] := by
  unfold digitsText
  dsimp only
  split
  · exact n.positionalText_ne_nil Nat.toDigits_ne_nil _
  · simp [exponentText]

theorem chars_ne_nil (x : Float) : n.chars x ≠ [] := by
  have hzero : n.positionalText ['0'] 0 ≠ [] := n.positionalText_ne_nil (by simp) 0
  unfold chars
  split
  · unfold binaryText
    split
    · simp
    · split
      · simpa using hzero
      · simpa using n.digitsText_ne_nil _
  · split
    · simp
    · split <;> simp

end Decimal.Notation

/-! ## Values -/

namespace Json

theorem plain_escapeChar (c : Char) : Plain (escapeChar c) := by
  unfold escapeChar
  split
  case h_8 =>
    -- a character without an escape of its own
    split
    · simp [hexDigit, digitChar_ge]
    · simp
      omega
  all_goals simp

theorem plain_quote (s : String) : Plain (quote s) := by
  have hescaped : Plain (s.toList.flatMap escapeChar) := by
    intro c hc
    obtain ⟨d, -, hd⟩ := List.mem_flatMap.mp hc
    exact plain_escapeChar d c hd
  simp [quote, hescaped]

theorem plain_scalarChars (s : Scalar) : Plain (scalarChars s) := by
  unfold scalarChars
  split
  · simp
  · simp
  · simp
  · rename_i i
    have hsign : Plain (if i < 0 then ['-'] else []) := plain_optional _ (by simp)
    simp [integerChars, hsign, plain_toDigits]
  · exact Decimal.Notation.plain_chars _ _
  · exact plain_quote _

mutual

/-- No control character is written, also where the value has some in its strings. -/
theorem plain_chars : ∀ v : Json, Plain v.chars
  | .scalar s => by
    rw [chars]
    exact plain_scalarChars s
  | .array [] => by simp [chars]
  | .array (v :: rest) => by simp [chars, plain_chars v, plain_itemChars rest]
  | .object [] => by simp [chars]
  | .object ((n, v) :: rest) => by
    simp [chars, plain_quote n, plain_chars v, plain_memberChars rest]

theorem plain_itemChars : ∀ items : List Json, Plain (itemChars items)
  | [] => by simp [itemChars]
  | v :: rest => by simp [itemChars, plain_chars v, plain_itemChars rest]

theorem plain_memberChars : ∀ members : List (String × Json), Plain (memberChars members)
  | [] => by simp [memberChars]
  | (n, v) :: rest => by
    simp [memberChars, plain_quote n, plain_chars v, plain_memberChars rest]

end

theorem chars_ne_nil (v : Json) : v.chars ≠ [] := by
  unfold chars
  split
  · unfold scalarChars
    split
    case h_5 => exact Decimal.Notation.chars_ne_nil _ _
    all_goals simp [integerChars, quote, Nat.toDigits_ne_nil]
  all_goals simp

theorem plain_render (v : Json) : Plain v.render.toList := by
  rw [render, String.toList_ofList]
  exact v.plain_chars

theorem render_ne_empty (v : Json) : v.render ≠ "" := by
  rw [render, Ne, String.ofList_eq_empty_iff]
  exact v.chars_ne_nil

end Json

end VehiclePrivacy
