import VehiclePrivacy.Launch
import VehiclePrivacy.Proofs.Geo.Padding
import VehiclePrivacy.Proofs.Redaction.Dimensions

/-!
# Settings that make sense

The check of the settings and the index of the geofence look at the same bounds and the same buffer,
each on its own, and in another order. They agree all the same (`check_agrees`): what passes the
check gets an index, so that only the map file can be at fault when there is none, and what gets an
index would pass that part of the check.

The check is a list of faults, with comparisons that are denied, and what NaN makes of these is not
plain to see. `Sound` says the same without denials (`check_ok_iff`), and the rest is shown from it.
-/

namespace VehiclePrivacy

open Binary64

/-! ## What the check asks -/

/-- Speeds from a number that is not negative up to one that is not smaller. -/
structure SpeedRange.Sound (r : SpeedRange) : Prop where
  slowest : 0 ≤ r.min
  order : r.min ≤ r.max
  fastest : r.max.isFinite = true

/-- Proper bounds, and a distance to pad boxes by. -/
structure GeofenceSettings.Sound (g : GeofenceSettings) : Prop where
  bounds : g.bounds.isProper = true
  buffer : Geofence.isBuffer g.buffer = true

/-- Settings whose speeds, geofence and size make sense. -/
structure Settings.Sound (s : Settings) : Prop where
  speeds : s.speeds.Sound
  geofence : s.geofence.Sound
  size : s.rules.size.number.isFinite = true

namespace SpeedRange

variable {r : SpeedRange}

/-- Between zero and a finite number, the slowest speed is finite as well. -/
theorem Sound.isFinite_min (h : r.Sound) : r.min.isFinite = true := by
  obtain ⟨_, hmax⟩ := number_of_isFinite h.fastest
  obtain ⟨_, hmin, -⟩ := number_of_between value?_zero hmax h.slowest h.order
  exact isFinite_of_number hmin

/-- Of finite speeds it is enough that neither comparison is the wrong way round. -/
theorem sound_iff : r.Sound ↔
    (r.min.isFinite = true ∧ r.max.isFinite = true ∧ ¬ r.min < 0) ∧ ¬ r.max < r.min := by
  constructor
  · intro h
    exact ⟨⟨h.isFinite_min, h.fastest, doubles_not_lt h.slowest⟩, doubles_not_lt h.order⟩
  · rintro ⟨⟨hmin, hmax, hsign⟩, horder⟩
    obtain ⟨_, hx⟩ := number_of_isFinite hmin
    obtain ⟨_, hy⟩ := number_of_isFinite hmax
    have hx := Option.isSome_of_eq_some hx
    have hy := Option.isSome_of_eq_some hy
    exact ⟨doubles_le_of_not_lt hx (Option.isSome_of_eq_some value?_zero) hsign,
      doubles_le_of_not_lt hy hx horder, hmax⟩

/-- The slowest speed is accepted. -/
theorem Sound.accepts_min (h : r.Sound) : r.accepts r.min = true := by
  rw [accepts, Bool.and_eq_true, decide_eq_true_eq, decide_eq_true_eq]
  exact ⟨(doubles_le_self h.slowest).2, h.order⟩

end SpeedRange

namespace Settings

variable {s : Settings}

theorem check_default : ({} : Settings).check = .ok () := by decide +kernel

/-- What passes a list of faults has none of them. -/
theorem unless_ok_iff {fault : Prop} [Decidable fault] {e : Invalid} {rest : Except Invalid Unit} :
    (if fault then .error e else rest) = .ok () ↔ ¬ fault ∧ rest = .ok () := by
  split <;> simp [*]

theorem check_ok_iff : s.check = .ok () ↔ s.Sound := by
  have hspeeds := SpeedRange.sound_iff (r := s.speeds)
  simp only [check, unless_ok_iff, Bool.or_eq_true, Bool.not_eq_true', decide_eq_true_eq, not_or,
    Bool.not_eq_false, and_true]
  constructor
  · rintro ⟨⟨⟨hmin, hmax⟩, hsign⟩, horder, hbuffer, hbounds, hsize⟩
    exact ⟨hspeeds.mpr ⟨⟨hmin, hmax, hsign⟩, horder⟩, ⟨hbounds, hbuffer⟩, hsize⟩
  · rintro ⟨h, ⟨hbounds, hbuffer⟩, hsize⟩
    obtain ⟨⟨hmin, hmax, hsign⟩, horder⟩ := hspeeds.mp h
    exact ⟨⟨⟨hmin, hmax⟩, hsign⟩, horder, hbuffer, hbounds, hsize⟩

/-- **The check has three parts**, none of which looks at what the others do. -/
theorem check_ok_iff_parts : s.check = .ok () ↔
    ({ speeds := s.speeds } : Settings).check = .ok () ∧
      ({ geofence := s.geofence } : Settings).check = .ok () ∧
      ({ rules := s.rules } : Settings).check = .ok () := by
  obtain ⟨hspeeds, hgeofence, hsize⟩ := check_ok_iff.mp check_default
  simp only [check_ok_iff]
  constructor
  · rintro ⟨h, h', h''⟩
    exact ⟨⟨h, hgeofence, hsize⟩, ⟨hspeeds, h', hsize⟩, hspeeds, hgeofence, h''⟩
  · rintro ⟨⟨h, -, -⟩, ⟨-, h', -⟩, -, -, h''⟩
    exact ⟨h, h', h''⟩

end Settings

/-! ## What the index asks -/

namespace Geofence

variable {bounds : Box} {segments : List Segment} {buffer : Float} {l : QuadTree.Limits}

theorem ofSegments_isOk_iff : (∃ g, ofSegments bounds segments buffer l = .ok g) ↔
    bounds.isProper = true ∧ isBuffer buffer = true := by
  rw [ofSegments]
  cases bounds.isProper <;> cases isBuffer buffer <;> simp

/-- Bad bounds are reported before a bad buffer. -/
theorem ofSegments_error {e : Error} (h : ofSegments bounds segments buffer l = .error e) :
    e = if bounds.isProper then .badBuffer buffer else .badBounds bounds := by
  rw [ofSegments] at h
  cases hbounds : bounds.isProper <;> cases hbuffer : isBuffer buffer <;> simp_all

end Geofence

/-- A finite number is written as a number. -/
theorem SizeRule.value_of_isFinite {r : SizeRule} (h : r.number.isFinite = true) :
    ∃ n, r.value = .scalar (.number n) := by
  obtain ⟨x, n, hn⟩ := exact_of_isFinite h
  exact ⟨n, hn.value⟩

namespace Settings

variable {s : Settings} {files : FileSource}

/-- The index that the settings ask for, of the given segments. -/
def index (s : Settings) (segments : List Segment) : Except Geofence.Error Geofence :=
  Geofence.ofSegments s.geofence.bounds segments s.geofence.buffer {}

theorem toGeofence_none (h : s.geofence.mapFile = none) :
    s.toGeofence files = (s.index []).mapError .badGeofence := by
  rw [toGeofence, h, index]
  simp only [pure_bind]
  cases Geofence.ofSegments s.geofence.bounds [] s.geofence.buffer {} <;> rfl

theorem toGeofence_some {path : String} (h : s.geofence.mapFile = some path) :
    s.toGeofence files = ((SegmentFile.load files path).mapError (.badMapFile path)).bind
      fun segments => (s.index segments).mapError .badGeofence := by
  rw [toGeofence, h]
  dsimp only
  cases SegmentFile.load files path with
  | error cause => rfl
  | ok segments =>
    simp only [pure_bind, Except.mapError, Except.bind, index]
    cases Geofence.ofSegments s.geofence.bounds segments s.geofence.buffer {} <;> rfl

/-- **Where the settings make sense, only the map file can be at fault.** -/
theorem toGeofence_error (hs : s.Sound) {e : GeofenceError} (h : s.toGeofence files = .error e) :
    ∃ path cause, s.geofence.mapFile = some path ∧ SegmentFile.load files path = .error cause ∧
      e = .badMapFile path cause := by
  have hindex : ∀ segments, ∃ g, s.index segments = .ok g := fun segments =>
    Geofence.ofSegments_isOk_iff.mpr ⟨hs.geofence.bounds, hs.geofence.buffer⟩
  cases hmap : s.geofence.mapFile with
  | none =>
    obtain ⟨g, hg⟩ := hindex []
    rw [toGeofence_none hmap, hg] at h
    cases h
  | some path =>
    rw [toGeofence_some hmap] at h
    cases hload : SegmentFile.load files path with
    | error cause =>
      rw [hload] at h
      exact ⟨path, cause, rfl, hload, (Except.error.inj h).symm⟩
    | ok segments =>
      obtain ⟨g, hg⟩ := hindex segments
      rw [hload] at h
      change (s.index segments).mapError _ = _ at h
      rw [hg] at h
      cases h

/-- Of the check, the geofence only has a part in its own soundness. -/
theorem check_geofence_iff {g : GeofenceSettings} :
    ({ geofence := g } : Settings).check = .ok () ↔ g.Sound := by
  obtain ⟨hspeeds, -, hsize⟩ := check_ok_iff.mp check_default
  rw [check_ok_iff]
  exact ⟨fun h => h.geofence, fun h => ⟨hspeeds, h, hsize⟩⟩

/--
**The check and the index agree.** Settings that pass the check get an index of any segments, so
where they get none, the map file was not read or not understood. They accept some finite speed, and
their size is written as a number. The other way round there is an index just when the part of the
check about the geofence is passed, and where there is none, the error is about the bounds if these
are bad, and about the buffer if not.
-/
theorem check_agrees (s : Settings) :
    (s.check = .ok () →
      (∀ segments l, ∃ g,
        Geofence.ofSegments s.geofence.bounds segments s.geofence.buffer l = .ok g) ∧
      (∀ files e, s.toGeofence files = .error e → ∃ path cause,
        s.geofence.mapFile = some path ∧ SegmentFile.load files path = .error cause ∧
          e = .badMapFile path cause) ∧
      (∃ speed : Float, speed.isFinite = true ∧ s.speeds.accepts speed = true) ∧
      ∃ n, s.rules.size.value = .scalar (.number n)) ∧
    (s.check = .ok () ↔
      ({ speeds := s.speeds } : Settings).check = .ok () ∧
        ({ geofence := s.geofence } : Settings).check = .ok () ∧
        ({ rules := s.rules } : Settings).check = .ok ()) ∧
    ∀ segments l,
      ((∃ g, Geofence.ofSegments s.geofence.bounds segments s.geofence.buffer l = .ok g) ↔
        ({ geofence := s.geofence } : Settings).check = .ok ()) ∧
      ∀ e, Geofence.ofSegments s.geofence.bounds segments s.geofence.buffer l = .error e →
        e = if s.geofence.bounds.isProper then .badBuffer s.geofence.buffer
          else .badBounds s.geofence.bounds := by
  refine ⟨fun h => ?_, check_ok_iff_parts, fun segments l => ⟨?_, fun e => ?_⟩⟩
  · have hs := check_ok_iff.mp h
    exact ⟨fun segments l => Geofence.ofSegments_isOk_iff.mpr
        ⟨hs.geofence.bounds, hs.geofence.buffer⟩,
      fun files e => toGeofence_error hs,
      ⟨s.speeds.min, hs.speeds.isFinite_min, hs.speeds.accepts_min⟩,
      SizeRule.value_of_isFinite hs.size⟩
  · rw [Geofence.ofSegments_isOk_iff, check_geofence_iff]
    exact ⟨fun h => ⟨h.1, h.2⟩, fun h => ⟨h.bounds, h.buffer⟩⟩
  · exact Geofence.ofSegments_error

/-- With limits that meet at negative zero, a map file that is not there is the only fault. -/
theorem check_agrees_of_missing_map :
    let s : Settings :=
      { speeds := ⟨-0, 0⟩, geofence := { buffer := -0, mapFile := some "roads.json" } }
    s.check = .ok () ∧
      s.toGeofence (fun _ => .error .notFound) =
        .error (.badMapFile "roads.json" (.unreadable "roads.json" .notFound)) ∧
      (∀ files e, s.toGeofence files = .error e → ∃ path cause,
        s.geofence.mapFile = some path ∧ SegmentFile.load files path = .error cause ∧
          e = .badMapFile path cause) := by
  intro s
  have hcheck : s.check = .ok () := by decide +kernel
  exact ⟨hcheck, rfl, ((check_agrees s).1 hcheck).2.1⟩

end Settings

/-! ## Launching -/

namespace Launch

variable {files : FileSource} {l : Launch}

theorem properties_error {e : Error} (h : l.properties files = .error e) :
    ∃ path cause, e = .badConfigFile path cause := by
  rw [properties] at h
  cases hconfig : l.configFile with
  | none =>
    rw [hconfig] at h
    cases h
  | some path =>
    rw [hconfig] at h
    dsimp only [loadProperties] at h
    cases htext : files.text path with
    | error cause =>
      rw [htext] at h
      exact ⟨path, cause, (Except.error.inj h).symm⟩
    | ok text =>
      rw [htext] at h
      cases h

/-- Settings are missing for what the config file or its properties say. -/
theorem settings_error {e : Error} (h : l.settings files = .error e) :
    (∃ path cause, e = .badConfigFile path cause) ∨ ∃ cause, e = .badSettings cause := by
  rw [settings] at h
  cases hp : l.properties files with
  | error e' =>
    rw [hp] at h
    rw [← Except.error.inj h]
    exact .inl (properties_error hp)
  | ok p =>
    rw [hp] at h
    change (Settings.ofProperties files p).mapError Error.badSettings = _ at h
    cases hs : Settings.ofProperties files p with
    | error cause =>
      rw [hs] at h
      exact .inr ⟨cause, (Except.error.inj h).symm⟩
    | ok s =>
      rw [hs] at h
      cases h

/-- **A launch that fails for want of a geofence has a bad map file**: it checks its settings before
it asks for the index. -/
theorem start_noGeofence {entropy : StdGen} {e : Settings.GeofenceError}
    (h : l.start files entropy = .error (.noGeofence e)) :
    ∃ path cause, SegmentFile.load files path = .error cause ∧ e = .badMapFile path cause := by
  rw [start] at h
  cases hsettings : l.settings files with
  | error e' =>
    rw [hsettings] at h
    rcases settings_error hsettings with ⟨_, _, rfl⟩ | ⟨_, rfl⟩ <;> cases h
  | ok s =>
    rw [hsettings] at h
    change ((s.check.mapError Error.invalid).bind fun _ =>
      ((s.toGeofence files).mapError Error.noGeofence).bind fun g => _) = _ at h
    cases hcheck : s.check with
    | error e' =>
      rw [hcheck] at h
      cases h
    | ok u =>
      rw [hcheck] at h
      cases hindex : s.toGeofence files with
      | error e' =>
        rw [hindex] at h
        cases h
        obtain ⟨path, cause, -, hload, he⟩ :=
          Settings.toGeofence_error (Settings.check_ok_iff.mp hcheck) hindex
        exact ⟨path, cause, hload, he⟩
      | ok g =>
        rw [hindex] at h
        cases h

end Launch

end VehiclePrivacy
