import VehiclePrivacy.Proofs.Json.Readings
import VehiclePrivacy.Proofs.Sanitizer.Decision
import VehiclePrivacy.Proofs.Sanitizer.Opacity
import VehiclePrivacy.Proofs.Screening.Quoting

/-!
# Numbers written as strings

A number of a message may be put between quotes. The message is then decided alike, as long as the
number is read alike (`receive_replaced`, `receive_quoted`). But the two forms have two readers, of
which only the one for strings, that settings have as well, is correctly rounded. So a number that
is not short may be read as a neighbour of the double that the string and the settings stand for,
and may be rejected where it is spelled like a limit (`quoted_speed_differs`).
-/

namespace VehiclePrivacy

namespace Sanitizer

variable {s : Sanitizer} {message message' n text : String} {tree tree' : Json} {field : Field}
  {found : Screening} {ts us : List Json.Token} {lexeme : List Char} {number : Number}

/-! ## One value in two forms -/

/-- What a screening ends with, at the end of a message that can be read. -/
theorem found_of_read (h : Screening.read s.filters message = (found, .value tree)) :
    Json.read ⟨true, true⟩ .idle () message = ((), .value tree) ∧ s.found tree = found := by
  have hread : Json.read ⟨true, true⟩ .idle () message = ((), .value tree) :=
    Json.idle_of_read (l := Screening.listener s.filters) rfl h
  have hheard := Json.read_eq_heed (l := Screening.listener s.filters) (s := {}) rfl rfl hread
  rw [Screening.heed_listener s.filters rfl] at hheard
  exact ⟨hread, congrArg Prod.fst (hheard.symm.trans h)⟩

/-- **A number and a string that say the same decide alike.** -/
theorem receive_replaced (s : Sanitizer) (hfield : Field.named? n = some field)
    (hnumeric : field ≠ .id ∧ field ≠ .partII)
    (htokens : Json.tokens message = ts ++ .text (some n) :: .colon :: .number lexeme :: us)
    (htokens' : Json.tokens message' = ts ++ .text (some n) :: .colon :: .text (some text) :: us)
    (hline : hasLineBreak message = hasLineBreak message')
    (hnumber : Json.numberValue? lexeme = some number)
    (h : Screening.finite? (.number number) = Screening.finite? (.string text)) :
    (s.receive message).1 = (s.receive message').1 ∧
      (s.receive message).2.Reports (s.receive message').2 := by
  cases hbreak : hasLineBreak message with
  | true =>
    rw [receive_lineBreak s hbreak, receive_lineBreak s (hline ▸ hbreak)]
    exact ⟨rfl, rfl, rfl, rfl, rfl⟩
  | false =>
    have hbreak' : hasLineBreak message' = false := hline ▸ hbreak
    obtain ⟨hfound, houtline⟩ :=
      Screening.read_quoted s.filters hfield hnumeric htokens htokens' hnumber h
    rcases hread : Screening.read s.filters message with ⟨found, outcome⟩
    rcases hread' : Screening.read s.filters message' with ⟨found', outcome'⟩
    rw [hread, hread'] at hfound houtline
    obtain rfl : found = found' := hfound
    cases outcome with
    | fault f =>
      cases outcome' with
      | fault f' =>
        rw [receive_eq s hbreak, receive_eq s hbreak', hread, hread']
        exact ⟨rfl, rfl, rfl, rfl, rfl⟩
      | stopped => cases houtline
      | value tree' => cases houtline
    | stopped =>
      cases outcome' with
      | fault f' => cases houtline
      | stopped =>
        rw [receive_eq s hbreak, receive_eq s hbreak', hread, hread']
        exact ⟨rfl, rfl, rfl, rfl, rfl⟩
      | value tree' => cases houtline
    | value tree =>
      cases outcome' with
      | fault f' => cases houtline
      | stopped => cases houtline
      | value tree' =>
        -- the trees have one outline, so part II is a block in both or in neither
        have htree : tree.outline = tree'.outline := Json.Outcome.value.inj houtline
        obtain ⟨hidle, hkept⟩ := found_of_read hread
        obtain ⟨hidle', hkept'⟩ := found_of_read hread'
        refine ⟨?_, reports_of_found hbreak hidle hbreak' hidle' (hkept.trans hkept'.symm) ?_⟩
        · rw [receive_readable s hbreak hidle, receive_readable s hbreak' hidle']
        · intro _
          rw [← hasScalarPartII_outline, htree, hasScalarPartII_outline]

/-! ## One literal in two forms -/

section

variable {front L back : List Char} {x : Number}

/-- Quotes are no line breaks. -/
theorem hasLineBreak_quoted (front L back : List Char) :
    hasLineBreak (String.ofList (front ++ (L ++ back))) =
      hasLineBreak (String.ofList (front ++ ('"' :: L ++ '"' :: back))) := by
  simp [hasLineBreak]

/-- A number between quotes says what its decimal is rounded to. -/
theorem finite?_quoted (hL : Json.Whole L back)
    (hfinite : (Json.Numeral.ofChars L).nearest.isFinite = true) :
    Screening.finite? (.string (String.ofList L)) = some (Json.Numeral.ofChars L).nearest := by
  show (Decimal.read? (Text.trim (String.ofList L))).filter Float.isFinite = _
  rw [hL.read?]
  exact Option.filter_some_pos hfinite

/-- A setting that is spelled like a number says what its decimal is rounded to, too. -/
theorem number_spelled (hL : Json.Whole L back) {p : Properties} {k : Key}
    (h : p.get? k.text = some (String.ofList L)) (default : Float) :
    Settings.number p k default = .ok (Json.Numeral.ofChars L).nearest := by
  have htrim := Json.trim_number hL.isNumberChar
  have hread := hL.read?
  rw [htrim] at hread
  have hblank : (String.ofList L).isEmpty = false := by
    simpa using hL.ne_nil
  have hvalue : Settings.nonBlank? p k = some (String.ofList L) := by
    rw [Settings.nonBlank?, h, Option.map_some, htrim]
    exact Option.filter_some_pos (by rw [hblank]; rfl)
  rw [Settings.number, hvalue]
  dsimp only
  rw [hread]

/-- A limit of a range that is not empty is accepted. -/
theorem accepts_limit {r : SpeedRange} {x : Float} (horder : r.min ≤ r.max)
    (hx : x = r.min ∨ x = r.max) : r.accepts x = true := by
  obtain ⟨hmin, hmax⟩ := Binary64.isSome_value?_of_le horder
  rw [SpeedRange.accepts, Bool.and_eq_true, decide_eq_true_eq, decide_eq_true_eq]
  rcases hx with rfl | rfl
  · exact ⟨Binary64.le_refl_of_isSome hmin, horder⟩
  · exact ⟨horder, Binary64.le_refl_of_isSome hmax⟩

/-- A message with a speed at a limit is not rejected for it. -/
theorem limit_not_refused {r : Float} (horder : s.speeds.min ≤ s.speeds.max)
    (hlimit : r = s.speeds.min ∨ r = s.speeds.max)
    (hspeed : (s.receive message).2.record.speed = some r) :
    (s.receive message).2.verdict ≠ .speed := by
  intro hverdict
  obtain ⟨v, hv, hrefused⟩ := refused_speed hverdict
  obtain rfl : r = v := Option.some.inj (hspeed.symm.trans hv)
  rw [accepts_limit horder hlimit] at hrefused
  cases hrefused

/--
**A number and the same number between quotes decide alike where they are read alike.** The value of
a numeric field may be put between quotes. If both forms are read as the same double, a sanitizer
answers both messages alike and reports the same about them. They are read alike if the digits and
the power of ten are doubles, and else as doubles that are near each other, as long as the exponent
is one that the reader of numbers counts. The form between quotes is read like a setting of the same
spelling, so a speed between quotes that is spelled like one of the limits is not rejected.
-/
theorem receive_quoted (s : Sanitizer) (hfield : Field.named? n = some field)
    (hnumeric : field ≠ .id ∧ field ≠ .partII) (hfront : Json.Awaits front n)
    (hL : Json.Whole L back) (hnumber : Json.numberValue? L = some x)
    (hfinite : (Json.Numeral.ofChars L).nearest.isFinite = true) :
    let parts := Json.Numeral.ofChars L
    let left := s.receive (String.ofList (front ++ (L ++ back)))
    let left' := s.receive (String.ofList (front ++ ('"' :: L ++ '"' :: back)))
    (x.toFloat = parts.nearest → left.1 = left'.1 ∧ left.2.Reports left'.2) ∧
      (parts.exact = true → x.toFloat = parts.nearest) ∧
      (parts.writtenExponent.natAbs < Json.Numeral.exponentLimit →
        ∃ q r : ℚ, Binary64.value? parts.nearest = some (.number q) ∧
          Binary64.value? x.toFloat = some (.number r) ∧
          |r - q| ≤ 2 ^ (-49 : ℤ) * |q| + 2 ^ (-1073 : ℤ)) ∧
      (∀ p k default, Properties.get? p k.text = some (String.ofList L) →
        Settings.number p k default = .ok parts.nearest) ∧
      (s.speeds.min ≤ s.speeds.max →
        parts.nearest = s.speeds.min ∨ parts.nearest = s.speeds.max →
        left'.2.record.speed = some parts.nearest → left'.2.verdict ≠ .speed) := by
  intro parts left left'
  refine ⟨fun hsame => ?_, fun hexact => Json.toFloat_exact hexact hnumber hfinite,
    fun hexponent => Json.toFloat_near (Json.digital_ofChars L) hexponent hnumber hfinite,
    fun p k default h => number_spelled hL h default, limit_not_refused⟩
  obtain ⟨ts, us, htokens, htokens'⟩ := Json.tokens_awaits hfront hL
  have hequal : Screening.finite? (.number x) = Screening.finite? (.string (String.ofList L)) := by
    rw [finite?_quoted hL hfinite, ← hsame]
    exact Option.filter_some_pos (hsame ▸ hfinite)
  exact receive_replaced s hfield hnumeric htokens htokens' (hasLineBreak_quoted front L back)
    hnumber hequal

end

/-- So it is for a speed at the upper limit, which is accepted in both forms. -/
theorem receive_quoted_of_limit :
    let s := { ofSettings {} (fun _ => true) (mkStdGen 7) with
      active := Activation.none.insert .speedFilter }
    let front := "\x7b\"speed\":".toList
    let L := "35.763".toList
    Field.named? "speed" = some .speed ∧ Json.Awaits front "speed" ∧ Json.Whole L ['\x7d'] ∧
      Json.numberValue? L = some (.real 35.763) ∧
      (Json.Numeral.ofChars L).nearest.isFinite = true ∧ (Json.Numeral.ofChars L).exact = true ∧
      (s.receive "\x7b\"speed\":35.763\x7d").2.verdict = .success ∧
      (s.receive "\x7b\"speed\":35.763\x7d").2.Reports
        (s.receive "\x7b\"speed\":\"35.763\"\x7d").2 := by
  intro s front L
  have hfront : Json.Awaits front "speed" := ⟨[.opening .object], rfl⟩
  have hL : Json.Whole L ['\x7d'] := by
    refine ⟨.fraction, by decide, rfl, fun c hc => ?_⟩
    obtain rfl : '\x7d' = c := Option.some.inj hc
    exact ⟨rfl, fun _ => rfl⟩
  have hnumber : Json.numberValue? L = some (.real 35.763) := by decide +kernel
  have hfinite : (Json.Numeral.ofChars L).nearest.isFinite = true := by decide +kernel
  have hexact : (Json.Numeral.ofChars L).exact = true := by decide +kernel
  have hfield : Field.named? "speed" = some .speed := rfl
  obtain ⟨halike, hsame, -⟩ :=
    receive_quoted s hfield (by decide) hfront hL hnumber hfinite
  exact ⟨hfield, hfront, hL, hnumber, hfinite, hexact, by decide +kernel, (halike (hsame hexact)).2⟩

/-- Numbers that are not exact need not be read alike: this speed is spelled like the upper limit,
and rejected unless it stands between quotes. -/
theorem quoted_speed_differs :
    let s := { ofSettings { speeds := ⟨2.235, 22.159714398754283⟩ } (fun _ => true)
      (mkStdGen 7) with active := Activation.none.insert .speedFilter }
    let left := s.receive "\x7b\"speed\":22.159714398754283\x7d"
    let left' := s.receive "\x7b\"speed\":\"22.159714398754283\"\x7d"
    Decimal.read? "22.159714398754283" = some s.speeds.max ∧
      left.2.verdict = .speed ∧ left.2.record.speed = some 22.159714398754286 ∧
      left'.2.verdict = .success ∧ left'.2.record.speed = some s.speeds.max ∧
      s.speeds.max < 22.159714398754286 := by
  intro s left left'
  refine ⟨?_, ?_, ?_, ?_, ?_, ?_⟩ <;> decide +kernel

end Sanitizer

end VehiclePrivacy
