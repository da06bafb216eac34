import VehiclePrivacy.Json.Printer
import VehiclePrivacy.Proofs.Json.Numerals
import VehiclePrivacy.Proofs.Json.Structure

/-!
# Scanning what was printed

The text of a value is cut into the tokens that it was written with (`tokens_render`): words and
numbers as they stand, and strings with their escapes undone. Only numbers ask for care, since a
scanner ends them at the next character; but what stands behind a number is a comma or a closing
bracket.

Numbers are left open here. All that is asked of them is that they are written like numbers
(`Spelled`).
-/

namespace VehiclePrivacy.Json

/-! ## Values by their scalars -/

/-- All scalars in the value are of a kind. -/
inductive Every (P : Scalar → Prop) : Json → Prop where
  | scalar {s : Scalar} : P s → Every P (.scalar s)
  | array {items : List Json} : (∀ v ∈ items, Every P v) → Every P (.array items)
  | object {members : List (String × Json)} :
      (∀ m ∈ members, Every P m.2) → Every P (.object members)

theorem Every.imp {P Q : Scalar → Prop} {v : Json} (h : Every P v) (hPQ : ∀ s, P s → Q s) :
    Every Q v := by
  induction h with
  | scalar hs => exact .scalar (hPQ _ hs)
  | array _ ih => exact .array ih
  | object _ ih => exact .object ih

/-- A scalar is written like what it is; only numbers could be written otherwise. -/
def Spelled (s : Scalar) : Prop :=
  ∀ number, s = .number number → ∃ n : Numeral, n.WellFormed ∧ scalarChars s = n.chars

/-! ## The tokens of a value -/

/-- The token of a scalar. -/
def scalarToken (s : Scalar) : Token :=
  match s with
  | .null | .bool _ => .word s
  | .number _ => .number (scalarChars s)
  | .string t => .text (some t)

mutual

/-- The tokens that a value is written with. -/
def tokensOf : Json → List Token
  | .scalar s => [scalarToken s]
  | .array [] => [.opening .array, .closing .array]
  | .array (v :: rest) => .opening .array :: tokensOf v ++ itemTokens rest
  | .object [] => [.opening .object, .closing .object]
  | .object ((n, v) :: rest) =>
    .opening .object :: .text (some n) :: .colon :: tokensOf v ++ memberTokens rest

/-- The tokens of the items after the first one, and of the closing bracket. -/
def itemTokens : List Json → List Token
  | [] => [.closing .array]
  | v :: rest => .comma :: tokensOf v ++ itemTokens rest

/-- The tokens of the members after the first one, and of the closing brace. -/
def memberTokens : List (String × Json) → List Token
  | [] => [.closing .object]
  | (n, v) :: rest => .comma :: .text (some n) :: .colon :: tokensOf v ++ memberTokens rest

end

namespace Scanner

/-- A scanner that has emitted some tokens and is between two of them. -/
abbrev between (emitted : List Token) : Scanner := ⟨emitted, .idle⟩

/-! ## Numbers -/

open NumberPart

variable {emitted : List Token} {c : Char}

theorem run_number {p q : NumberPart} {s : List Char} (h : p.after? s = some q)
    (seen : List Char) :
    (Scanner.mk emitted (.number p seen)).run s = ⟨emitted, .number q (s.reverse ++ seen)⟩ := by
  induction s generalizing p seen with
  | nil =>
    obtain rfl := Option.some.inj h
    rfl
  | cons c s ih =>
    rw [after?, List.foldlM_cons] at h
    obtain ⟨r, hr, hrest⟩ := Option.bind_eq_some_iff.mp h
    have hstep : (Scanner.mk emitted (.number p seen)).step c =
        ⟨emitted, .number r (c :: seen)⟩ := by
      show (Scanner.mk emitted (.number p seen)).stepNumber p seen c = _
      rw [stepNumber, hr]
      rfl
    show ((Scanner.mk emitted (.number p seen)).step c).run s = _
    rw [hstep, ih hrest, List.reverse_cons, List.append_assoc]
    rfl

/-- A character that may stand behind a scalar: a comma or a closing bracket. -/
def Delimits (c : Char) : Prop := c = ',' ∨ c = ']' ∨ c = '\x7d'

/-- A number ends where it is delimited. -/
theorem step_delimited {q : NumberPart} (hq : q.complete = true) (hc : Delimits c)
    (seen : List Char) :
    (Scanner.mk emitted (.number q seen)).step c =
      (between (.number seen.reverse :: emitted)).step c := by
  rcases hc with rfl | rfl | rfl <;> cases q <;> first | rfl | cases hq

/-- The first character of a number without a sign. -/
theorem begin_digit {p : NumberPart} (h : sign.next? c = some p) :
    (between emitted).step c = ⟨emitted, .number p [c]⟩ := by
  have hdigit : c.isDigit = true := by
    cases hc : c.isDigit with
    | true => rfl
    | false =>
      have hzero : c ≠ '0' := by
        rintro rfl
        cases hc
      simp [next?, hzero, hc] at h
  have hbegin : ∀ d : Char, d.isDigit = false → c ≠ d := by
    rintro d hd rfl
    rw [hdigit] at hd
    cases hd
  show (between emitted).begin c = _
  by_cases hzero : c = '0'
  · subst hzero
    obtain rfl := Option.some.inj h
    rfl
  · simp only [next?, hzero, hdigit, if_false, if_true, Option.some_inj] at h
    subst h
    simp [begin, isSpace, enter, hzero, hdigit, hbegin ' ' rfl, hbegin '\t' rfl, hbegin '\n' rfl,
      hbegin '\r' rfl, hbegin '"' rfl, hbegin '-' rfl]

/-- The characters without a minus sign in front. -/
def unsigned (s : List Char) : List Char :=
  match s with
  | '-' :: r => r
  | r => r

/-- The characters of a complete number are taken for one. -/
theorem run_complete {q : NumberPart} {s : List Char} (h : sign.after? (unsigned s) = some q)
    (hq : q.complete = true) : (between emitted).run s = ⟨emitted, .number q s.reverse⟩ := by
  unfold unsigned at h
  split at h
  · rename_i s
    rw [List.reverse_cons]
    exact run_number h ['-']
  · cases s with
    | nil =>
      obtain rfl := Option.some.inj h
      cases hq
    | cons d ds =>
      rw [after?, List.foldlM_cons] at h
      obtain ⟨p, hp, hrest⟩ := Option.bind_eq_some_iff.mp h
      rw [List.reverse_cons]
      show ((between emitted).step d).run ds = _
      rw [begin_digit hp]
      exact run_number hrest [d]

theorem unsigned_chars {n : Numeral} (h : n.WellFormed) : unsigned n.chars = n.magnitudeChars := by
  rw [Numeral.chars]
  cases n.negative with
  | true => rfl
  | false =>
    rw [if_neg Bool.false_ne_true, List.nil_append, unsigned]
    exact Numeral.magnitudeChars_ne_minus h

/-- **A number is scanned as a whole**, and ends where it is delimited. -/
theorem run_numeral {n : Numeral} (h : n.WellFormed) (hc : Delimits c) :
    (between emitted).run (n.chars ++ [c]) = (between (.number n.chars :: emitted)).step c := by
  obtain ⟨q, hafter, hq⟩ := after?_magnitudeChars h
  rw [run_append, run_complete (unsigned_chars h ▸ hafter) hq]
  show (Scanner.mk emitted (.number q n.chars.reverse)).step c = _
  rw [step_delimited hq hc, List.reverse_reverse]

/-! ## Strings -/

theorem hexValue?_hexDigit (k : Nat) : hexValue? (hexDigit k) = some (k % 16) := by
  have hdigits : ∀ d < 16, hexValue? (Nat.digitChar d) = some d := by decide
  exact hdigits _ (Nat.mod_lt _ (by decide))

theorem step_hex {value : Nat} {lead : Option Nat} {content : List Char} {paired : Bool}
    {owed : Nat} (k : Nat) (howed : 1 < owed) :
    (Scanner.mk emitted (.text (.hex owed value lead) content paired)).step (hexDigit k) =
      ⟨emitted, .text (.hex (owed - 1) (16 * value + k % 16) lead) content paired⟩ := by
  show (Scanner.mk emitted _).stepHex owed value lead content paired (hexDigit k) = _
  rw [stepHex, hexValue?_hexDigit]
  dsimp only
  rw [if_neg (by omega)]
  rfl

/-- An escape is undone. -/
theorem run_escapeChar (content : List Char) (c : Char) :
    (Scanner.mk emitted (.text .plain content true)).run (escapeChar c) =
      ⟨emitted, .text .plain (c :: content) true⟩ := by
  unfold escapeChar
  split
  case h_8 hquote hbackslash _ _ _ _ _ =>
    split
    · -- four digits write a number below 32, which is no surrogate
      rename_i hlow
      have hstart : (Scanner.mk emitted (.text .plain content true)).run ['\\', 'u', '0', '0'] =
          ⟨emitted, .text (.hex 2 0 none) content true⟩ := rfl
      rw [show ∀ a b : Char, ['\\', 'u', '0', '0', a, b] = ['\\', 'u', '0', '0'] ++ [a, b] from
        fun _ _ => rfl, run_append, hstart]
      show ((Scanner.mk emitted _).step (hexDigit (c.toNat / 16))).step (hexDigit c.toNat) = _
      rw [step_hex _ (by decide)]
      show (Scanner.mk emitted _).stepHex 1 _ none content true (hexDigit c.toNat) = _
      rw [stepHex, hexValue?_hexDigit]
      dsimp only
      rw [if_pos (by decide)]
      have hvalue : 16 * (16 * 0 + c.toNat / 16 % 16) + c.toNat % 16 = c.toNat := by omega
      have hlead : isLead c.toNat = false := by simp [isLead]; omega
      have htrail : isTrail c.toNat = false := by simp [isTrail]; omega
      rw [hvalue, endHex, hlead, htrail, Char.ofNat_toNat]
      rfl
    · rename_i hhigh
      show (Scanner.mk emitted (.text .plain content true)).stepPlain content true c = _
      rw [stepPlain, if_neg hquote, if_neg hbackslash, if_neg hhigh]
      rfl
  all_goals rfl

theorem run_escaped (content s : List Char) :
    (Scanner.mk emitted (.text .plain content true)).run (s.flatMap escapeChar) =
      ⟨emitted, .text .plain (s.reverse ++ content) true⟩ := by
  induction s generalizing content with
  | nil => rfl
  | cons c s ih =>
    rw [List.flatMap_cons, run_append, run_escapeChar, ih, List.reverse_cons, List.append_assoc]
    rfl

/-- **A string is scanned as what it was written for.** -/
theorem run_quote (s : String) :
    (between emitted).run (quote s) = between (.text (some s) :: emitted) := by
  have hopen : (between emitted).step '"' = ⟨emitted, .text .plain [] true⟩ := rfl
  rw [quote]
  show ((between emitted).step '"').run (s.toList.flatMap escapeChar ++ ['"']) = _
  rw [hopen, run_append, run_escaped, List.append_nil]
  show (Scanner.mk emitted _).stepPlain s.toList.reverse true '"' = _
  rw [stepPlain, if_pos rfl, if_pos rfl, List.reverse_reverse, String.ofList_toList]
  rfl

/-- A name is scanned with the colon behind it. -/
theorem run_name (n : String) (s : List Char) :
    (between emitted).run (quote n ++ ':' :: s) =
      (between (.colon :: .text (some n) :: emitted)).run s := by
  rw [run_append, run_quote]
  rfl

/-! ## Values -/

theorem run_scalar {s : Scalar} (h : Spelled s) (hc : Delimits c) :
    (between emitted).run (scalarChars s ++ [c]) = (between (scalarToken s :: emitted)).step c := by
  cases s with
  | null => rfl
  | bool b => cases b <;> rfl
  | number number =>
    obtain ⟨n, hn, hchars⟩ := h number rfl
    rw [scalarToken, hchars]
    exact run_numeral hn hc
  | string t =>
    rw [scalarChars, run_append, run_quote]
    rfl

/-- The text begins with a character that delimits what is before it. -/
def Delimited (t : List Char) : Prop := ∃ c t', t = c :: t' ∧ Delimits c

theorem delimited_itemChars (items : List Json) : Delimited (itemChars items) := by
  cases items with
  | nil => exact ⟨']', [], rfl, .inr (.inl rfl)⟩
  | cons v rest => exact ⟨',', _, rfl, .inl rfl⟩

theorem delimited_memberChars (members : List (String × Json)) :
    Delimited (memberChars members) := by
  cases members with
  | nil => exact ⟨'\x7d', [], rfl, .inr (.inr rfl)⟩
  | cons m rest => exact ⟨',', _, rfl, .inl rfl⟩

mutual

/-- A value is scanned as its tokens. A scalar needs something behind it that delimits it. -/
theorem run_chars : ∀ v : Json, Every Spelled v → ∀ (emitted : List Token) (t : List Char),
    ((∃ s, v = .scalar s) → Delimited t) →
      (between emitted).run (v.chars ++ t) = (between ((tokensOf v).reverse ++ emitted)).run t
  | .scalar s, .scalar hs, emitted, t, ht => by
    obtain ⟨c, t', rfl, hc⟩ := ht ⟨s, rfl⟩
    rw [chars, List.append_cons, run_append, run_scalar hs hc]
    rfl
  | .array [], _, emitted, t, _ => rfl
  | .array (v :: rest), .array h, emitted, t, _ => by
    have hv := run_chars v (h v List.mem_cons_self) (.opening .array :: emitted)
      (itemChars rest) fun _ => delimited_itemChars rest
    have hrest := run_itemChars rest fun w hw => h w (List.mem_cons_of_mem _ hw)
    rw [chars, List.cons_append, run_append]
    show ((between (.opening .array :: emitted)).run (v.chars ++ itemChars rest)).run t = _
    rw [hv, hrest]
    simp [tokensOf]
  | .object [], _, emitted, t, _ => rfl
  | .object ((n, v) :: rest), .object h, emitted, t, _ => by
    have hv := run_chars v (h (n, v) List.mem_cons_self)
      (.colon :: .text (some n) :: .opening .object :: emitted) (memberChars rest)
      fun _ => delimited_memberChars rest
    have hrest := run_memberChars rest fun m hm => h m (List.mem_cons_of_mem _ hm)
    rw [chars, run_append, List.cons_append, List.cons_append, List.append_assoc]
    show ((between (.opening .object :: emitted)).run
      (quote n ++ ':' :: (v.chars ++ memberChars rest))).run t = _
    rw [run_name, hv, hrest]
    simp [tokensOf]

theorem run_itemChars : ∀ items : List Json, (∀ v ∈ items, Every Spelled v) →
    ∀ emitted : List Token,
      (between emitted).run (itemChars items) = between ((itemTokens items).reverse ++ emitted)
  | [], _, emitted => rfl
  | v :: rest, h, emitted => by
    have hv := run_chars v (h v List.mem_cons_self) (.comma :: emitted) (itemChars rest)
      fun _ => delimited_itemChars rest
    have hrest := run_itemChars rest fun w hw => h w (List.mem_cons_of_mem _ hw)
    rw [itemChars]
    show (between (.comma :: emitted)).run (v.chars ++ itemChars rest) = _
    rw [hv, hrest]
    simp [itemTokens]

theorem run_memberChars : ∀ members : List (String × Json), (∀ m ∈ members, Every Spelled m.2) →
    ∀ emitted : List Token,
      (between emitted).run (memberChars members) =
        between ((memberTokens members).reverse ++ emitted)
  | [], _, emitted => rfl
  | (n, v) :: rest, h, emitted => by
    have hv := run_chars v (h (n, v) List.mem_cons_self)
      (.colon :: .text (some n) :: .comma :: emitted) (memberChars rest)
      fun _ => delimited_memberChars rest
    have hrest := run_memberChars rest fun m hm => h m (List.mem_cons_of_mem _ hm)
    rw [memberChars, List.cons_append, List.cons_append, List.append_assoc]
    show (between (.comma :: emitted)).run (quote n ++ ':' :: (v.chars ++ memberChars rest)) = _
    rw [run_name, hv, hrest]
    simp [memberTokens]

end

end Scanner

/-- **What was printed is cut into the tokens it was written with.** A number alone would need
something behind it, but the text of an object or an array stands by itself. -/
theorem tokens_render {v : Json} (h : Every Spelled v) (hv : ∀ s, v ≠ .scalar s) :
    tokens v.render = tokensOf v := by
  have hrun := Scanner.run_chars v h [] [] fun hs => absurd hs.choose_spec (hv _)
  rw [List.append_nil, List.append_nil] at hrun
  rw [tokens, render, String.toList_ofList]
  show (Scanner.run (Scanner.between []) v.chars).finish = _
  rw [hrun]
  show (tokensOf v).reverse.reverse ++ [] = _
  rw [List.append_nil, List.reverse_reverse]

end VehiclePrivacy.Json
