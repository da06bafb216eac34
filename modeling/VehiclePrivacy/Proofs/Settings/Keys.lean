import VehiclePrivacy.Proofs.Settings.Words
import VehiclePrivacy.Proofs.Settings.Writing

/-!
# What the keys govern

The settings are divided into sixteen, each with values of its own type, and there is nothing more
to them than these values (`Settings.value_injective`). Every key governs one of them: its text has
no part in the value of another (`Settings.value_ofWords_congr`). So where one text is changed, all
other settings stay, and so they do where a text is left out (`Settings.ofProperties_governed`).
-/

namespace VehiclePrivacy

/-- One of the settings. -/
inductive Setting where
  | active (c : Capability)
  | speedMin
  | speedMax
  | buffer
  | southWestLat
  | southWestLon
  | northEastLat
  | northEastLon
  | mapFile
  | ids
  | members
  | size
  deriving DecidableEq

/-- The values of a setting. -/
abbrev Setting.Value : Setting → Type
  | active _ => Bool
  | mapFile => Option String
  | ids => IdRule
  | members => MemberList
  | speedMin | speedMax | buffer | southWestLat | southWestLon | northEastLat | northEastLon
  | size => Float

/-- The setting that a key governs. -/
def Key.setting : Key → Setting
  | speedFilter => .active .speedFilter
  | positionFilter => .active .positionFilter
  | idRedaction => .active .idRedaction
  | sizeRedaction => .active .sizeRedaction
  | partIIRedaction => .active .partIIRedaction
  | speedMin => .speedMin
  | speedMax => .speedMax
  | geofenceBuffer => .buffer
  | southWestLat => .southWestLat
  | southWestLon => .southWestLon
  | northEastLat => .northEastLat
  | northEastLon => .northEastLon
  | mapFile => .mapFile
  | idValue | idInclusions | idIncluded => .ids
  | partIIFields | partIIFile => .members
  | sizeValue => .size

namespace Settings

open Properties

variable {p p' : Properties} {k : Key} {files : FileSource} {s s' : Settings}
  {word word' : Key → String} {x : Setting}

/-- The value of one of the settings. -/
def value (s : Settings) : (x : Setting) → x.Value
  | .active c => s.active.has c
  | .speedMin => s.speeds.min
  | .speedMax => s.speeds.max
  | .buffer => s.geofence.buffer
  | .southWestLat => s.geofence.bounds.sw.lat
  | .southWestLon => s.geofence.bounds.sw.lon
  | .northEastLat => s.geofence.bounds.ne.lat
  | .northEastLon => s.geofence.bounds.ne.lon
  | .mapFile => s.geofence.mapFile
  | .ids => s.rules.id
  | .members => s.rules.partII
  | .size => s.rules.size.number

/-- The settings with the given values. -/
def ofValues (value : (x : Setting) → x.Value) : Settings where
  active :=
    { speedFilter := value (.active .speedFilter)
      positionFilter := value (.active .positionFilter)
      idRedaction := value (.active .idRedaction)
      sizeRedaction := value (.active .sizeRedaction)
      partIIRedaction := value (.active .partIIRedaction) }
  speeds := ⟨value .speedMin, value .speedMax⟩
  geofence :=
    { bounds :=
        { sw := ⟨value .southWestLat, value .southWestLon⟩
          ne := ⟨value .northEastLat, value .northEastLon⟩ }
      buffer := value .buffer
      mapFile := value .mapFile }
  rules := ⟨value .ids, value .members, ⟨value .size⟩⟩

/-- There is nothing more to the settings than their values. -/
theorem ofValues_value (s : Settings) : ofValues s.value = s := rfl

theorem value_injective : Function.Injective value :=
  Function.LeftInverse.injective ofValues_value

theorem value_ofWords_congr (h : ∀ k : Key, k.setting = x → word k = word' k) :
    (ofWords files word).value x = (ofWords files word').value x := by
  cases x with
  | active c =>
    have hkey : (Key.ofCapability c).setting = .active c := by cases c <;> rfl
    rw [value, value, has_ofWords, has_ofWords, h _ hkey]
  | _ => simp (disch := decide) only [value, ofWords, h]

theorem ofProperties_congr (h : ∀ k : Key, p'.get? k.text = p.get? k.text) :
    ofProperties files p' = ofProperties files p := by
  simp only [ofProperties, activationOf, switch, number, idRuleOf, memberListOf, items, nonBlank?,
    h]

theorem ofProperties_isOk_iff :
    (∃ s, ofProperties files p = .ok s) ↔ ∀ k, p.SoundAt files k := by
  simp only [ofProperties_ok_iff, exists_and_left, exists_eq, and_true]

/-- Properties that differ under one key make settings that differ in what it governs. -/
theorem value_eq_of_ne (hp : ∀ name, name ≠ k.text → p'.get? name = p.get? name)
    (h : ofProperties files p = .ok s) (h' : ofProperties files p' = .ok s')
    (hx : x ≠ k.setting) : s'.value x = s.value x := by
  rw [(ofProperties_ok_iff.mp h).2, (ofProperties_ok_iff.mp h').2]
  refine value_ofWords_congr fun j hj => ?_
  have hne : j ≠ k := fun heq => hx (heq ▸ hj.symm)
  rw [wordOf, ownText?, hp j.text (Key.text_injective.ne hne), wordOf, ownText?]

/-- A setting is left at its default if no key that governs it has a text. -/
theorem value_eq_default (h : ofProperties files p = .ok s)
    (hx : ∀ k : Key, k.setting = x → p.get? k.text = none) :
    s.value x = ({} : Settings).value x := by
  rw [(ofProperties_ok_iff.mp h).2, ← ofWords_defaultText files]
  exact value_ofWords_congr fun k hk => wordOf_of_none (ownText?_of_none (hx k hk))

/-- A key without text is as good as one with the default text. -/
theorem ofProperties_set_defaultText (hk : p.get? k.text = none) :
    ofProperties files (p.set k.text k.defaultText) = .ok s ↔ ofProperties files p = .ok s := by
  have hget : ∀ j : Key, (p.set k.text k.defaultText).get? j.text =
      if j = k then some k.defaultText else p.get? j.text := fun j => by
    rw [get?_set]
    exact if_congr Key.text_injective.eq_iff rfl rfl
  have hword : (p.set k.text k.defaultText).wordOf = p.wordOf := by
    funext j
    rw [wordOf, ownText?, hget]
    by_cases hj : j = k
    · subst hj
      rw [if_pos rfl, wordOf_of_none (ownText?_of_none hk), Option.filter_some]
      split <;> rfl
    · rw [if_neg hj, wordOf, ownText?]
  have hsound : ∀ j, (p.set k.text k.defaultText).SoundAt files j ↔ p.SoundAt files j := by
    intro j
    by_cases hj : j = k
    · subst hj
      have hset := (hget j).trans (if_pos rfl)
      exact iff_of_true ((soundAt_iff_of_some hset).mpr (j.accepts_defaultText files))
        (soundAt_of_none hk)
    · rw [SoundAt, hget, if_neg hj, SoundAt]
  rw [ofProperties_ok_iff, ofProperties_ok_iff, hword, forall_congr' hsound]

/--
**Every key governs its own setting and no other.** Properties make settings just when every key
that is there has a text that it may have, and the settings are what these texts stand for. So other
keys have no effect; of two sets of properties that differ under one key only, both of which make
settings, the settings differ at most in what that key governs; and where no key that governs a
setting is there, it has its default. With some of them there, the others still stand for theirs.
-/
theorem ofProperties_governed (files : FileSource) (p : Properties) :
    ((∃ s, ofProperties files p = .ok s) ↔ ∀ k, p.SoundAt files k) ∧
    (∀ s, ofProperties files p = .ok s → s = ofWords files p.wordOf) ∧
    (∀ p' : Properties, (∀ k : Key, p'.get? k.text = p.get? k.text) →
      ofProperties files p' = ofProperties files p) ∧
    (∀ (k : Key) (p' : Properties), (∀ name, name ≠ k.text → p'.get? name = p.get? name) →
      ∀ s s', ofProperties files p = .ok s → ofProperties files p' = .ok s' →
        (∀ x, x ≠ k.setting → s'.value x = s.value x) ∧
        (s'.value k.setting = s.value k.setting → s' = s)) ∧
    (∀ s, ofProperties files p = .ok s → ∀ x,
      (∀ k : Key, k.setting = x → p.get? k.text = none) → s.value x = ({} : Settings).value x) ∧
    ∀ k : Key, p.get? k.text = none → ∀ s,
      ofProperties files p = .ok s ↔ ofProperties files (p.set k.text k.defaultText) = .ok s := by
  refine ⟨ofProperties_isOk_iff, fun s h => (ofProperties_ok_iff.mp h).2,
    fun p' => ofProperties_congr, fun k p' hp s s' h h' => ?_,
    fun s h x => value_eq_default h, fun k hk s => (ofProperties_set_defaultText hk).symm⟩
  have hother := fun x => value_eq_of_ne (x := x) hp h h'
  refine ⟨hother, fun hgoverned => value_injective (funext fun x => ?_)⟩
  by_cases hx : x = k.setting
  · exact hx ▸ hgoverned
  · exact hother x hx

/-- Here the border in the south moves, and nothing else does. -/
theorem ofProperties_governed_of_moved_border :
    let files : FileSource := fun _ => .error .notFound
    let p : Properties := ⟨[("privacy.redaction.size", " On "), ("other", "x")]⟩
    let p' := p.set "privacy.filter.geofence.sw.lat" "-45.5"
    let s : Settings := { active := .full }
    let s' : Settings := { s with geofence.bounds.sw.lat := -45.5 }
    ofProperties files p = .ok s ∧ ofProperties files p' = .ok s' ∧
      (∀ x, x ≠ .southWestLat → s'.value x = s.value x) ∧
      ofProperties files (p.set "privacy.filter.geofence.sw.lat" "-90") = .ok s := by
  intro files p p' s s'
  have hp : ofProperties files p = .ok s := by decide +kernel
  have hp' : ofProperties files p' = .ok s' := by decide +kernel
  obtain ⟨-, -, -, hgoverned, -, hdefault⟩ := ofProperties_governed files p
  have hother : ∀ name, name ≠ Key.southWestLat.text → p'.get? name = p.get? name :=
    fun name hname => (get?_set ..).trans (if_neg hname)
  exact ⟨hp, hp', (hgoverned .southWestLat p' hother s s' hp hp').1,
    (hdefault .southWestLat rfl s).mp hp⟩

end Settings

end VehiclePrivacy
