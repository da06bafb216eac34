import VehiclePrivacy.Settings.Basic
import VehiclePrivacy.Proofs.Text.Trimming

/-!
# The words under the keys

Each key has a kind of text that it may have, and a default text that it stands for without one. So
there is a word for every key (`Properties.wordOf`), whether it is set or not, and settings are what
the words of all keys stand for (`Settings.ofProperties_ok_iff`). They are read key by key, each in
its own way, but there are few: switches, numbers, texts that are taken as they are, and lists. Where
there are no settings, the error names a key whose text does not fit (`Settings.ofProperties_error`).

A blank text is as good as none, except for a switch, where it is one more wrong word.
-/

namespace VehiclePrivacy

theorem Activation.ext_has {a b : Activation} (h : ∀ c, a.has c = b.has c) : a = b := by
  obtain ⟨_, _, _, _, _⟩ := a
  obtain ⟨_, _, _, _, _⟩ := b
  exact Activation.mk.injEq .. ▸
    ⟨h .speedFilter, h .positionFilter, h .idRedaction, h .sizeRedaction, h .partIIRedaction⟩

/-! ## Keys -/

namespace Key

/-- What a text under a key is read as. -/
inductive Kind where
  | switch
  | number
  /-- The path of a list of members. -/
  | memberFile
  | text
  deriving DecidableEq

/-- What the text under a key is read as. -/
def kind : Key → Kind
  | speedFilter | positionFilter | idRedaction | sizeRedaction | partIIRedaction
  | idInclusions => .switch
  | speedMin | speedMax | geofenceBuffer | southWestLat | southWestLon | northEastLat
  | northEastLon | sizeValue => .number
  | partIIFile => .memberFile
  | mapFile | idValue | idIncluded | partIIFields => .text

/-- The text that a key stands for where there is none. -/
def defaultText : Key → String
  | speedFilter => "ON"
  | speedMin => "2.235"
  | speedMax => "35.763"
  | positionFilter => "ON"
  | geofenceBuffer => "10.0"
  | southWestLat => "-90"
  | southWestLon => "-180"
  | northEastLat => "90"
  | northEastLon => "180"
  | mapFile => ""
  | idRedaction => "ON"
  | idValue => "FFFFFFFF"
  | idInclusions => "ON"
  | idIncluded => ""
  | sizeRedaction => "OFF"
  | sizeValue => "0"
  | partIIRedaction => "ON"
  | partIIFields => ""
  | partIIFile => ""

/-- All keys. -/
def all : List Key :=
  [speedFilter, speedMin, speedMax, positionFilter, geofenceBuffer, southWestLat, southWestLon,
    northEastLat, northEastLon, mapFile, idRedaction, idValue, idInclusions, idIncluded,
    sizeRedaction, sizeValue, partIIRedaction, partIIFields, partIIFile]

/-- The key that is written so. -/
def ofText? (text : String) : Option Key := all.find? (·.text = text)

theorem ofText?_text (k : Key) : ofText? k.text = some k := by cases k <;> decide

/-- Different keys are written differently. -/
theorem text_injective : Function.Injective text := fun k k' h => by
  have hk := ofText?_text k
  rwa [h, ofText?_text, Option.some_inj, eq_comm] at hk

/-- The words that turn something on. -/
def onWords : List String := ["on", "true", "1", "yes"]

/-- The words that turn something off. -/
def offWords : List String := ["off", "false", "0", "no"]

/-- Whether a key may have a text. -/
def Accepts (files : FileSource) (k : Key) (text : String) : Prop :=
  match k.kind with
  | .switch => (Text.trim text).toLower ∈ onWords ++ offWords
  | .number => Text.trim text = "" ∨ (Decimal.read? (Text.trim text)).isSome = true
  | .memberFile => Text.trim text = "" ∨ ∃ l, MemberList.load files (Text.trim text) = .ok l
  | .text => True

theorem accepts_of_blank (files : FileSource) {k : Key} (hk : k.kind ≠ .switch) {text : String}
    (hblank : Text.trim text = "") : k.Accepts files text := by
  rw [Accepts]
  split
  · contradiction
  · exact .inl hblank
  · exact .inl hblank
  · trivial

/-- The default texts of all keys are accepted. -/
theorem accepts_defaultText (files : FileSource) (k : Key) : k.Accepts files k.defaultText := by
  have hswitch : ∀ k : Key, k.kind = .switch →
      (Text.trim k.defaultText).toLower ∈ onWords ++ offWords := by
    intro k
    cases k <;> decide +kernel
  have hnumber : ∀ k : Key, k.kind = .number →
      (Decimal.read? (Text.trim k.defaultText)).isSome = true := by
    intro k
    cases k <;> decide +kernel
  have hfile : ∀ k : Key, k.kind = .memberFile → Text.trim k.defaultText = "" := by
    intro k
    cases k <;> decide
  rw [Accepts]
  split
  · exact hswitch k ‹_›
  · exact .inr (hnumber k ‹_›)
  · exact .inl (hfile k ‹_›)
  · trivial

end Key

namespace Properties

/-- Whether a key has a text that it may have, or none. -/
def SoundAt (files : FileSource) (p : Properties) (k : Key) : Prop :=
  ∀ text, p.get? k.text = some text → k.Accepts files text

/-- The text of a key, if it is not blank. -/
def ownText? (p : Properties) (k : Key) : Option String :=
  (p.get? k.text).filter fun text => Text.trim text ≠ ""

/-- The text that a key stands for: its own, or the default if there is none or a blank one. -/
def wordOf (p : Properties) (k : Key) : String := (p.ownText? k).getD k.defaultText

variable {p : Properties} {k : Key} {files : FileSource} {text : String}

theorem ownText?_eq_some_iff :
    p.ownText? k = some text ↔ p.get? k.text = some text ∧ Text.trim text ≠ "" := by
  rw [ownText?, Option.filter_eq_some_iff, decide_eq_true_eq]

theorem ownText?_of_none (h : p.get? k.text = none) : p.ownText? k = none := by
  rw [ownText?, h, Option.filter_none]

theorem wordOf_of_none (h : p.ownText? k = none) : p.wordOf k = k.defaultText := by
  rw [wordOf, h, Option.getD_none]

theorem wordOf_of_some (h : p.ownText? k = some text) : p.wordOf k = text := by
  rw [wordOf, h, Option.getD_some]

theorem soundAt_of_none (h : p.get? k.text = none) : p.SoundAt files k := by
  intro text htext
  rw [h] at htext
  cases htext

theorem soundAt_iff_of_some (h : p.get? k.text = some text) :
    p.SoundAt files k ↔ k.Accepts files text := by
  rw [SoundAt, h]
  exact ⟨fun hsound => hsound text rfl, fun haccepts text' htext' =>
    Option.some.inj htext' ▸ haccepts⟩

/-- Only a switch must not be blank. -/
theorem soundAt_iff (hk : k.kind ≠ .switch) :
    p.SoundAt files k ↔ ∀ text, p.ownText? k = some text → k.Accepts files text := by
  simp only [ownText?_eq_some_iff, SoundAt]
  refine ⟨fun h text htext => h text htext.1, fun h text htext => ?_⟩
  by_cases hblank : Text.trim text = ""
  · exact Key.accepts_of_blank files hk hblank
  · exact h text ⟨htext, hblank⟩

theorem soundAt_of_text (hk : k.kind = .text) : p.SoundAt files k := by
  intro text _
  rw [Key.Accepts, hk]
  trivial

end Properties

/-! ## The settings that texts stand for -/

namespace Settings

/-- Whether a text turns something on. -/
def isOn (text : String) : Bool := Key.onWords.contains (Text.trim text).toLower

/-- The number that a text stands for. -/
def numberOf (text : String) : Float := (Decimal.read? (Text.trim text)).getD 0

/-- The path that a text stands for, if it is not blank. -/
def pathOf (text : String) : Option String :=
  if Text.trim text = "" then none else some (Text.trim text)

/-- The members that are listed in the file that a text names. -/
def listedIn (files : FileSource) (text : String) : MemberList :=
  match (pathOf text).map (MemberList.load files) with
  | some (.ok l) => l
  | _ => {}

/-- The settings that a text under each key stands for. -/
def ofWords (files : FileSource) (word : Key → String) : Settings where
  active :=
    { speedFilter := isOn (word .speedFilter)
      positionFilter := isOn (word .positionFilter)
      idRedaction := isOn (word .idRedaction)
      sizeRedaction := isOn (word .sizeRedaction)
      partIIRedaction := isOn (word .partIIRedaction) }
  speeds := ⟨numberOf (word .speedMin), numberOf (word .speedMax)⟩
  geofence :=
    { bounds :=
        { sw := ⟨numberOf (word .southWestLat), numberOf (word .southWestLon)⟩
          ne := ⟨numberOf (word .northEastLat), numberOf (word .northEastLon)⟩ }
      buffer := numberOf (word .geofenceBuffer)
      mapFile := pathOf (word .mapFile) }
  rules :=
    { id :=
        { listed :=
            if isOn (word .idInclusions) then
              some (Text.listItems (word .idIncluded)).eraseDups
            else none
          pseudonym := .ofSetting (Text.trim (word .idValue)) }
      partII := (listedIn files (word .partIIFile)).addAll (Text.listItems (word .partIIFields))
      size := ⟨numberOf (word .sizeValue)⟩ }

/-- The default texts stand for the default settings. -/
theorem ofWords_defaultText (files : FileSource) : ofWords files Key.defaultText = {} := by
  -- no file is named by default, so that any files will do
  have h : ofWords (fun _ => .error .notFound) Key.defaultText = {} := by decide +kernel
  exact h

/-! ## Reading one key -/

open Properties

variable {p p' : Properties} {k : Key} {files : FileSource} {s s' : Settings} {text : String}

theorem bind_eq_ok {ε α β : Type} {x : Except ε α} {f : α → Except ε β} {b : β} :
    x >>= f = .ok b ↔ ∃ a, x = .ok a ∧ f a = .ok b := by
  cases x <;> simp [bind, Except.bind]

theorem switch?_eq (word : String) : switch? word =
    if word ∈ Key.onWords ++ Key.offWords then some (Key.onWords.contains word) else none := by
  have hswitch : switch? word = if Key.onWords.contains word then some true
    else if Key.offWords.contains word then some false else none := rfl
  simp only [hswitch, List.contains_eq_mem, decide_eq_true_eq, List.mem_append]
  by_cases hon : word ∈ Key.onWords
  · simp only [hon, if_true, true_or, decide_true]
  · simp only [hon, if_false, false_or, decide_false]

theorem switch_ok_iff (files : FileSource) (hk : k.kind = .switch) {default on : Bool}
    (hdefault : isOn k.defaultText = default) :
    switch p k default = .ok on ↔ p.SoundAt files k ∧ on = isOn (p.wordOf k) := by
  rw [switch]
  cases h : p.get? k.text with
  | none =>
    rw [Except.ok.injEq, wordOf_of_none (ownText?_of_none h), hdefault, eq_comm]
    exact (and_iff_right (soundAt_of_none h)).symm
  | some text =>
    rw [soundAt_iff_of_some h, Key.Accepts, hk]
    dsimp only
    rw [switch?_eq]
    by_cases hword : (Text.trim text).toLower ∈ Key.onWords ++ Key.offWords
    · -- no word is blank, so that the text is the key's own
      have hblank : Text.trim text ≠ "" := by
        intro hblank
        rw [hblank] at hword
        revert hword
        decide +kernel
      have hown := ownText?_eq_some_iff.mpr ⟨h, hblank⟩
      rw [if_pos hword, Except.ok.injEq, wordOf_of_some hown, isOn, eq_comm]
      exact (and_iff_right hword).symm
    · rw [if_neg hword]
      exact iff_of_false nofun fun h => hword h.1

theorem nonBlank?_eq_map : nonBlank? p k = (p.ownText? k).map Text.trim := by
  rw [nonBlank?, ownText?]
  cases p.get? k.text with
  | none => rfl
  | some text => by_cases hblank : Text.trim text = "" <;> simp [Option.filter, hblank]

/-- The trimmed text of a key is that of its word, if the default is there in place of none. -/
theorem nonBlank?_getD {default : String} (hdefault : Text.trim k.defaultText = default) :
    (nonBlank? p k).getD default = Text.trim (p.wordOf k) := by
  rw [nonBlank?_eq_map, ← hdefault, Option.getD_map, wordOf]

/-- The trimmed text of a key is the path of its word, if there is none by default. -/
theorem nonBlank?_eq_pathOf (hdefault : pathOf k.defaultText = none) :
    nonBlank? p k = pathOf (p.wordOf k) := by
  rw [nonBlank?_eq_map]
  cases h : p.ownText? k with
  | none => rw [wordOf_of_none h, hdefault, Option.map_none]
  | some text =>
    rw [wordOf_of_some h, pathOf, if_neg (ownText?_eq_some_iff.mp h).2, Option.map_some]

theorem number_ok_iff (files : FileSource) (hk : k.kind = .number) {default x : Float}
    (hdefault : numberOf k.defaultText = default) :
    number p k default = .ok x ↔ p.SoundAt files k ∧ x = numberOf (p.wordOf k) := by
  rw [number, nonBlank?_eq_map, soundAt_iff (by simp [hk])]
  cases h : p.ownText? k with
  | none =>
    rw [Option.map_none, Except.ok.injEq, wordOf_of_none h, hdefault, eq_comm]
    exact (and_iff_right nofun).symm
  | some text =>
    have hblank := (ownText?_eq_some_iff.mp h).2
    simp only [Option.map_some, Option.some_inj, forall_eq', wordOf_of_some h, numberOf,
      Key.Accepts, hk, hblank, false_or]
    cases Decimal.read? (Text.trim text) with
    | none => simp
    | some y => simp [eq_comm]

theorem listItems_of_blank (h : Text.trim text = "") : Text.listItems text = [] := by
  have htrim : Text.trimChars text.toList = [] := by
    rw [← String.toList_ofList (l := Text.trimChars text.toList), ← Text.trim, h]
    rfl
  have hcomma : ',' ∉ text.toList := fun hmem =>
    absurd (List.all_eq_true.mp (Text.trimChars_eq_nil_iff.mp htrim) _ hmem) (by decide)
  rw [Text.listItems, Text.cut_eq_singleton hcomma, List.map_singleton, htrim]
  rfl

/-- The items under a key are those of its word, if there are none by default. -/
theorem items_eq (hdefault : Text.listItems k.defaultText = []) :
    items p k = Text.listItems (p.wordOf k) := by
  rw [items, wordOf, ownText?]
  cases p.get? k.text with
  | none => exact hdefault.symm
  | some text =>
    rw [Option.map_some, Option.getD_some, Option.filter_some]
    by_cases hblank : Text.trim text = ""
    · rw [if_neg (by simpa using hblank), Option.getD_none, hdefault, listItems_of_blank hblank]
    · rw [if_pos (by simpa using hblank), Option.getD_some]

/-! ## Reading all keys -/

theorem has_ofWords (files : FileSource) (word : Key → String) (c : Capability) :
    (ofWords files word).active.has c = isOn (word (.ofCapability c)) := by
  cases c <;> rfl

theorem map_eq_ok {ε α β : Type} {x : Except ε α} {f : α → β} {b : β} :
    f <$> x = .ok b ↔ ∃ a, x = .ok a ∧ f a = b := by
  cases x <;> simp

/-- Reading one switch after the other, each from its default, decides about the capabilities that
have one. -/
theorem foldlM_switch_ok_iff (files : FileSource) {cs : List Capability} (hcs : cs.Nodup)
    {a b : Activation} (hdefault : ∀ c ∈ cs, isOn (Key.ofCapability c).defaultText = a.has c) :
    cs.foldlM (fun a c => (a.set c ·) <$> switch p (.ofCapability c) (a.has c)) a = .ok b ↔
      (∀ c ∈ cs, p.SoundAt files (.ofCapability c)) ∧
      ∀ c, b.has c = if c ∈ cs then isOn (p.wordOf (.ofCapability c)) else a.has c := by
  induction cs generalizing a with
  | nil =>
    have hext : a = b ↔ ∀ c, b.has c = a.has c :=
      ⟨fun h c => h ▸ rfl, fun h => Activation.ext_has fun c => (h c).symm⟩
    simpa [pure, Except.pure] using hext
  | cons c cs ih =>
    obtain ⟨hc, hcs⟩ := List.nodup_cons.mp hcs
    obtain ⟨hfirst, hrest⟩ := List.forall_mem_cons.mp hdefault
    let on := isOn (p.wordOf (.ofCapability c))
    -- no capability comes twice, so that the ones to come are still at their defaults
    have hset : ∀ d ∈ cs, isOn (Key.ofCapability d).defaultText = (a.set c on).has d := by
      intro d hd
      rw [Activation.has_set, if_neg (ne_of_mem_of_not_mem hd hc), hrest d hd]
    have hkind : (Key.ofCapability c).kind = .switch := by cases c <;> rfl
    have hstep : ∀ a', (a.set c ·) <$> switch p (.ofCapability c) (a.has c) = .ok a' ↔
        p.SoundAt files (.ofCapability c) ∧ a' = a.set c on := by
      intro a'
      rw [map_eq_ok]
      simp only [switch_ok_iff files hkind hfirst, and_assoc, exists_and_left, exists_eq_left]
      exact and_congr_right fun _ => eq_comm
    rw [List.foldlM_cons, bind_eq_ok]
    simp only [hstep, List.forall_mem_cons, and_assoc, exists_and_left, exists_eq_left, ih hcs hset]
    refine and_congr_right fun _ => and_congr_right fun _ => forall_congr' fun d => ?_
    rw [Activation.has_set]
    by_cases hd : d = c
    · subst hd
      simp [hc, on]
    · simp [hd]

theorem activationOf_ok_iff (files : FileSource) {a : Activation} :
    activationOf p ({} : Settings).active = .ok a ↔
      (∀ c, p.SoundAt files (.ofCapability c)) ∧ a = (ofWords files p.wordOf).active := by
  have hdefault : ∀ c, isOn (Key.ofCapability c).defaultText = ({} : Settings).active.has c :=
    fun c => by rw [← has_ofWords files, ofWords_defaultText]
  have hall : ∀ c, c ∈ Capability.all := fun c => by cases c <;> decide
  rw [activationOf, foldlM_switch_ok_iff files (by decide) fun c _ => hdefault c]
  simp only [hall, forall_const, if_true, ← has_ofWords files]
  exact and_congr_right fun _ => ⟨Activation.ext_has, fun h c => h ▸ rfl⟩

theorem idRuleOf_ok_iff (files : FileSource) {r : IdRule} :
    idRuleOf p = .ok r ↔
      p.SoundAt files .idInclusions ∧ r = (ofWords files p.wordOf).rules.id := by
  have hpseudonym : (nonBlank? p .idValue).getD Pseudonym.defaultText =
      Text.trim (p.wordOf .idValue) := nonBlank?_getD (by decide)
  have hitems : items p .idIncluded = Text.listItems (p.wordOf .idIncluded) :=
    items_eq (by decide)
  rw [idRuleOf, hpseudonym, hitems, bind_eq_ok]
  simp (disch := decide +kernel) only [switch_ok_iff files, and_assoc, exists_and_left,
    exists_eq_left]
  refine and_congr_right fun _ => ?_
  simp only [ofWords]
  split <;> simp [pure, Except.pure, IdRule.onlyIds, IdRule.everyId, eq_comm]

theorem soundAt_partIIFile_iff : p.SoundAt files .partIIFile ↔
    ∀ path, nonBlank? p .partIIFile = some path → ∃ l, MemberList.load files path = .ok l := by
  rw [soundAt_iff (by decide), nonBlank?_eq_map]
  cases h : p.ownText? .partIIFile with
  | none => simp
  | some text => simp [Key.Accepts, Key.kind, (ownText?_eq_some_iff.mp h).2]

theorem memberListOf_ok_iff {l : MemberList} :
    memberListOf files p = .ok l ↔
      p.SoundAt files .partIIFile ∧ l = (ofWords files p.wordOf).rules.partII := by
  have hitems : items p .partIIFields = Text.listItems (p.wordOf .partIIFields) :=
    items_eq (by decide)
  have hpath : nonBlank? p .partIIFile = pathOf (p.wordOf .partIIFile) :=
    nonBlank?_eq_pathOf (by decide)
  rw [soundAt_partIIFile_iff, memberListOf, hitems]
  simp only [ofWords, listedIn, ← hpath]
  cases nonBlank? p .partIIFile with
  | none => simp [pure, Except.pure, bind, Except.bind, eq_comm]
  | some path =>
    rw [Option.map_some]
    cases hload : MemberList.load files path with
    | error cause => simp [bind, Except.bind, throw, hload]
    | ok listed => simp [pure, Except.pure, bind, Except.bind, hload, eq_comm]

/-- **Settings are what the words of all keys stand for**, if every key has a text that it may have. -/
theorem ofProperties_ok_iff : ofProperties files p = .ok s ↔
    (∀ k, p.SoundAt files k) ∧ s = ofWords files p.wordOf := by
  have hmapFile : nonBlank? p .mapFile = pathOf (p.wordOf .mapFile) :=
    nonBlank?_eq_pathOf (by decide)
  simp only [ofProperties, bind_eq_ok, activationOf_ok_iff files, idRuleOf_ok_iff files,
    memberListOf_ok_iff, hmapFile]
  -- the defaults are the numbers that the default texts are read as
  simp (disch := decide +kernel) only [number_ok_iff files, and_assoc, exists_and_left,
    exists_eq_left]
  constructor
  · rintro ⟨hactive, hmin, hmax, hswLat, hswLon, hneLat, hneLon, hbuffer, hids, hmembers, hsize, hs⟩
    have hspeedFilter := hactive .speedFilter
    have hpositionFilter := hactive .positionFilter
    have hidRedaction := hactive .idRedaction
    have hsizeRedaction := hactive .sizeRedaction
    have hpartIIRedaction := hactive .partIIRedaction
    refine ⟨fun k => ?_, (Except.ok.inj hs).symm⟩
    cases k <;> first | assumption | exact soundAt_of_text rfl
  · rintro ⟨hsound, rfl⟩
    exact ⟨fun c => hsound _, hsound _, hsound _, hsound _, hsound _, hsound _, hsound _, hsound _,
      hsound _, hsound _, hsound _, rfl⟩

/-! ## Errors -/

/-- The key that an error is about. -/
def Error.key : Error → Key
  | badSwitch k _ | badNumber k _ => k
  | badMemberList _ => .partIIFile

variable {e : Error}

/-- What is true of the errors of either step is true of the errors of both. -/
theorem error_of_bind {ε α β : Type} {P : ε → Prop} {x : Except ε α} {f : α → Except ε β}
    (hx : ∀ e, x = .error e → P e) (hf : ∀ a e, f a = .error e → P e) :
    ∀ e, x >>= f = .error e → P e := by
  intro e h
  cases x with
  | error e' => exact hx e (congrArg Except.error (Except.error.inj h))
  | ok a => exact hf a e h

theorem map_eq_error {ε α β : Type} {x : Except ε α} {f : α → β} {e : ε} :
    f <$> x = .error e ↔ x = .error e := by
  cases x <;> simp

theorem switch_error (hk : k.kind = .switch) {default : Bool} :
    ∀ e, switch p k default = .error e → ¬ p.SoundAt files e.key := by
  intro e h
  rw [switch] at h
  split at h
  · cases h
  · rename_i text htext
    dsimp only at h
    split at h
    · cases h
    · rename_i hword
      cases h
      rw [Error.key, soundAt_iff_of_some htext, Key.Accepts, hk]
      intro haccepts
      rw [switch?_eq, if_pos haccepts] at hword
      cases hword

theorem number_error (hk : k.kind = .number) {default : Float} :
    ∀ e, number p k default = .error e → ¬ p.SoundAt files e.key := by
  intro e h
  rw [number] at h
  split at h
  · cases h
  · rename_i value hvalue
    split at h
    · cases h
    · rename_i hread
      cases h
      obtain ⟨text, hown, rfl⟩ := Option.map_eq_some_iff.mp (nonBlank?_eq_map ▸ hvalue)
      obtain ⟨htext, hblank⟩ := ownText?_eq_some_iff.mp hown
      rw [Error.key, soundAt_iff_of_some htext, Key.Accepts, hk]
      rintro (hblank' | hnumber)
      · exact hblank hblank'
      · rw [hread] at hnumber
        cases hnumber

theorem activationOf_error {a : Activation} :
    ∀ e, activationOf p a = .error e → ¬ p.SoundAt files e.key := by
  rw [activationOf]
  induction Capability.all generalizing a with
  | nil => nofun
  | cons c cs ih =>
    have hkind : (Key.ofCapability c).kind = .switch := by cases c <;> rfl
    rw [List.foldlM_cons]
    refine error_of_bind (fun e h => ?_) fun a' => ih
    rw [map_eq_error] at h
    exact switch_error hkind e h

theorem idRuleOf_error : ∀ e, idRuleOf p = .error e → ¬ p.SoundAt files e.key := by
  refine error_of_bind (switch_error rfl) fun on => ?_
  cases on <;> nofun

theorem memberListOf_error : ∀ e, memberListOf files p = .error e → ¬ p.SoundAt files e.key := by
  intro e h
  rw [memberListOf] at h
  cases hpath : nonBlank? p .partIIFile with
  | none =>
    rw [hpath] at h
    cases h
  | some path =>
    rw [hpath] at h
    cases hload : MemberList.load files path with
    | ok l =>
      simp only [hload] at h
      cases h
    | error cause =>
      simp only [hload] at h
      cases h
      rw [Error.key, soundAt_partIIFile_iff]
      intro hsound
      obtain ⟨l, hl⟩ := hsound path hpath
      rw [hload] at hl
      cases hl

/-- **Every error names a key whose text does not fit.** -/
theorem ofProperties_error : ∀ e, ofProperties files p = .error e → ¬ p.SoundAt files e.key :=
  error_of_bind activationOf_error fun _ => error_of_bind (number_error rfl) fun _ =>
    error_of_bind (number_error rfl) fun _ => error_of_bind (number_error rfl) fun _ =>
    error_of_bind (number_error rfl) fun _ => error_of_bind (number_error rfl) fun _ =>
    error_of_bind (number_error rfl) fun _ => error_of_bind (number_error rfl) fun _ =>
    error_of_bind idRuleOf_error fun _ => error_of_bind memberListOf_error fun _ =>
    error_of_bind (number_error rfl) fun _ => nofun

end Settings

end VehiclePrivacy
