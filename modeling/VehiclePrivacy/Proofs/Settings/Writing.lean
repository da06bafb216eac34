import Mathlib.Data.List.Nodup
import VehiclePrivacy.Proofs.Text.Trimming
import VehiclePrivacy.Settings.Properties

/-!
# Reading written properties

There are many ways to write down the same properties: blanks around keys and values, two kinds of
line ends, and lines that say nothing. `Written` has them all, and reading undoes every one
(`parse_written`). Of a key that is written more than once the last value counts.

A text is read line by line, so it is enough to look at one line (`Writes.entryOf?_eq`). All depends
on its first `=` there. It is no blank, so trimming the line does not reach past it, and what is left
around the key and the value is trimmed off them later.
-/

namespace VehiclePrivacy.Properties

/-! ## What is written -/

/-- Blanks that may stand around keys and values. -/
def IsPadding (w : List Char) : Prop := ∀ c ∈ w, Text.isBlank c = true ∧ c ≠ '\n'

/-- A text that can be written as a value: trimmed, and on one line. -/
structure IsValue (s : String) : Prop where
  trimmed : Text.trim s = s
  oneLine : '\n' ∉ s.toList

/-- A text that can be written as a key. It has no equals sign, and does not look like a comment. -/
structure IsKey (s : String) : Prop extends IsValue s where
  noSign : '=' ∉ s.toList
  noMark : s.toList.head? ≠ some '#'

instance (w : List Char) : Decidable (IsPadding w) := List.decidableBAll _ w

instance (s : String) : Decidable (IsValue s) :=
  decidable_of_iff (Text.trim s = s ∧ '\n' ∉ s.toList) ⟨fun h => ⟨h.1, h.2⟩, fun h => ⟨h.1, h.2⟩⟩

instance (s : String) : Decidable (IsKey s) :=
  decidable_of_iff (IsValue s ∧ '=' ∉ s.toList ∧ s.toList.head? ≠ some '#')
    ⟨fun h => ⟨h.1, h.2.1, h.2.2⟩, fun h => ⟨h.toIsValue, h.noSign, h.noMark⟩⟩

/-- The lines that write an entry, or none. -/
inductive Writes : List Char → Option (String × String) → Prop where
  | entry {key value : String} {w w' u u' : List Char} (hkey : IsKey key) (hvalue : IsValue value)
      (hw : IsPadding w) (hw' : IsPadding w') (hu : IsPadding u) (hu' : IsPadding u') :
      Writes (w ++ key.toList ++ w' ++ '=' :: (u ++ value.toList ++ u')) (some (key, value))
  | blank {w : List Char} (hw : IsPadding w) : Writes w none
  | comment {w text : List Char} (hw : IsPadding w) (htext : '\n' ∉ text) :
      Writes (w ++ '#' :: text) none
  | noSign {line : List Char} (hline : '\n' ∉ line) (hsign : '=' ∉ line) : Writes line none

/-- The texts that write entries, in their order. The last line needs no end, so that a text with
all lines ended has a blank line without end behind them. -/
inductive Written : List Char → List (String × String) → Prop where
  | last {line : List Char} {e : Option (String × String)} (h : Writes line e) :
      Written line e.toList
  | lineFeed {line rest : List Char} {e : Option (String × String)}
      {pairs : List (String × String)} (h : Writes line e) (hrest : Written rest pairs) :
      Written (line ++ '\n' :: rest) (e.toList ++ pairs)
  | carriageReturn {line rest : List Char} {e : Option (String × String)}
      {pairs : List (String × String)} (h : Writes line e) (hrest : Written rest pairs) :
      Written (line ++ '\r' :: '\n' :: rest) (e.toList ++ pairs)

variable {line w w' u text : List Char} {key value name : String} {e : Option (String × String)}
  {p m : Properties} {pairs : List (String × String)}

/-! ## One line -/

theorem IsPadding.isBlank (h : IsPadding w) : ∀ c ∈ w, Text.isBlank c = true :=
  fun c hc => (h c hc).1

theorem IsPadding.oneLine (h : IsPadding w) : '\n' ∉ w := fun hmem => (h _ hmem).2 rfl

theorem IsPadding.noSign (h : IsPadding w) : '=' ∉ w :=
  fun hmem => absurd (h.isBlank _ hmem) (by decide)

theorem IsValue.trimChars_eq (h : IsValue value) : Text.trimChars value.toList = value.toList := by
  have htrimmed := congrArg String.toList h.trimmed
  rwa [Text.trim, String.toList_ofList] at htrimmed

theorem Writes.oneLine (h : Writes line e) : '\n' ∉ line := by
  cases h with
  | entry hkey hvalue hw hw' hu hu' =>
    simp [hw.oneLine, hkey.oneLine, hw'.oneLine, hu.oneLine, hvalue.oneLine, hu'.oneLine]
  | blank hw => exact hw.oneLine
  | comment hw htext => simp [hw.oneLine, htext]
  | noSign hline _ => exact hline

/-- The entry of a line, if it has one. -/
def entryOf? (line : List Char) : Option (String × String) :=
  let content := Text.trimChars line
  if !content.isEmpty && content.head? != some '#' then readLine? content else none

theorem parse_eq (text : String) :
    parse text = ofList ((Text.cut '\n' text.toList).filterMap entryOf?) := by
  rw [parse, Text.contentLines, Text.trimmedLines, List.filterMap_filter, List.filterMap_map]
  rfl

/-- Blanks behind a line make no difference. -/
theorem entryOf?_append (hw : ∀ c ∈ w, Text.isBlank c = true) :
    entryOf? (line ++ w) = entryOf? line := by
  rw [entryOf?, Text.trimChars_append_of_blank hw, entryOf?]

theorem readLine?_sign (h : '=' ∉ w) : readLine? (w ++ '=' :: u) =
    some (String.ofList (Text.trimChars w), String.ofList (Text.trimChars u)) := by
  have hw : ∀ c ∈ w, decide (c ≠ '=') = true := fun c hc =>
    decide_eq_true fun heq => h (heq ▸ hc)
  have htake : (w ++ '=' :: u).takeWhile (· ≠ '=') = w := by
    rw [List.takeWhile_append_of_pos hw, List.takeWhile_cons_of_neg (by decide), List.append_nil]
  have hdrop : (w ++ '=' :: u).dropWhile (· ≠ '=') = '=' :: u := by
    rw [List.dropWhile_append_of_pos hw, List.dropWhile_cons_of_neg (by decide)]
  rw [readLine?, htake, hdrop]

theorem readLine?_noSign (h : '=' ∉ line) : readLine? line = none := by
  have hnone : line.dropWhile (· ≠ '=') = [] :=
    List.dropWhile_eq_nil_iff.mpr fun c hc => decide_eq_true fun heq => h (heq ▸ hc)
  rw [readLine?, hnone]

/-- A line with a sign, and no comment, has what is around the sign for its entry. -/
theorem entryOf?_sign (h : '=' ∉ w) (hmark : (w.dropWhile Text.isBlank).head? ≠ some '#') :
    entryOf? (w ++ '=' :: u) =
      some (String.ofList (Text.trimChars w), String.ofList (Text.trimChars u)) := by
  have hsign : '=' ∉ w.dropWhile Text.isBlank := fun hmem =>
    h ((List.dropWhile_sublist _).mem hmem)
  have hhead : (w.dropWhile Text.isBlank ++ '=' :: Text.dropEndWhile Text.isBlank u).head? ≠
      some '#' := by
    cases hw : w.dropWhile Text.isBlank with
    | nil => simp
    | cons c rest =>
      rw [hw] at hmark
      simpa using hmark
  rw [entryOf?, Text.trimChars_append_cons (by decide)]
  simp only [bne_iff_ne.mpr hhead]
  rw [readLine?_sign hsign, Text.trimChars_dropWhile, Text.trimChars_dropEndWhile]
  simp

/-- **A line is read as what it writes.** -/
theorem Writes.entryOf?_eq (h : Writes line e) : entryOf? line = e := by
  cases h with
  | @entry key value w w' u u' hkey hvalue hw hw' hu hu' =>
    have hsign : '=' ∉ w ++ key.toList ++ w' := by
      simp [hw.noSign, hkey.noSign, hw'.noSign]
    have hmark : ((w ++ key.toList ++ w').dropWhile Text.isBlank).head? ≠ some '#' := by
      rw [Text.head?_dropWhile_padded hkey.trimChars_eq hw.isBlank hw'.isBlank]
      exact hkey.noMark
    rw [entryOf?_sign hsign hmark, Text.trimChars_padded hw.isBlank hw'.isBlank,
      Text.trimChars_padded hu.isBlank hu'.isBlank, hkey.trimChars_eq, hvalue.trimChars_eq,
      String.ofList_toList, String.ofList_toList]
  | blank hw =>
    have hnone : Text.trimChars line = [] :=
      Text.trimChars_eq_nil_iff.mpr (List.all_eq_true.mpr hw.isBlank)
    rw [entryOf?, hnone]
    rfl
  | comment hw htext =>
    rw [entryOf?, Text.trimChars_append_cons (by decide), List.dropWhile_eq_nil_iff.mpr hw.isBlank]
    rfl
  | noSign hline hsign =>
    rw [entryOf?, readLine?_noSign fun hmem => hsign ((Text.trimChars_sublist line).mem hmem)]
    exact ite_self none

/-! ## All lines -/

theorem filterMap_entryOf?_cons (h : entryOf? line = e) (ls : List (List Char)) :
    (line :: ls).filterMap entryOf? = e.toList ++ ls.filterMap entryOf? := by
  rw [List.filterMap_cons, h]
  cases e <;> rfl

/-- The lines of a text have the entries that it writes. The carriage return before a line feed is a
blank at the end of its line. -/
theorem Written.filterMap_eq (h : Written text pairs) :
    (Text.cut '\n' text).filterMap entryOf? = pairs := by
  induction h with
  | last h =>
    rw [Text.cut_eq_singleton h.oneLine, filterMap_entryOf?_cons h.entryOf?_eq, List.filterMap_nil,
      List.append_nil]
  | lineFeed h _ ih =>
    rw [Text.cut_append_sep h.oneLine, filterMap_entryOf?_cons h.entryOf?_eq, ih]
  | @carriageReturn line rest e pairs h _ ih =>
    have hline : '\n' ∉ line ++ ['\r'] := by simp [h.oneLine]
    have hentry : entryOf? (line ++ ['\r']) = e := by
      rw [entryOf?_append (List.forall_mem_singleton.mpr (by decide)), h.entryOf?_eq]
    rw [List.append_cons line, Text.cut_append_sep hline, filterMap_entryOf?_cons hentry, ih]

/-! ## Properties as maps -/

theorem lookup_cons_ite (key value name : String) (entries : List (String × String)) :
    ((key, value) :: entries).lookup name =
      if name = key then some value else entries.lookup name := by
  rw [List.lookup_cons]
  by_cases h : name = key
  · rw [if_pos h, beq_iff_eq.mpr h]
  · rw [if_neg h, beq_eq_false_iff_ne.mpr h]

/-- Setting a key decides about it and about no other. -/
theorem get?_set (p : Properties) (key value name : String) :
    (p.set key value).get? name = if name = key then some value else p.get? name := by
  rw [get?, get?, set]
  induction p.entries with
  | nil => exact lookup_cons_ite key value name []
  | cons x rest ih =>
    obtain ⟨k, v⟩ := x
    rw [setEntry]
    split
    · rename_i hk
      subst hk
      rw [lookup_cons_ite, lookup_cons_ite]
      split <;> rfl
    · rename_i hk
      rw [lookup_cons_ite, lookup_cons_ite, ih]
      -- a name is not both the key that is set and another one in front
      by_cases hname : name = k
      · subst hname
        rw [if_pos rfl, if_pos rfl, if_neg hk]
      · rw [if_neg hname, if_neg hname]

theorem ofList_append (pairs : List (String × String)) (key value : String) :
    ofList (pairs ++ [(key, value)]) = (ofList pairs).set key value := by
  rw [ofList, List.foldl_append, ofList]
  rfl

/-- **The last value of a key counts.** -/
theorem get?_ofList (pairs : List (String × String)) (name : String) :
    (ofList pairs).get? name = pairs.reverse.lookup name := by
  induction pairs using List.reverseRecOn with
  | nil => rfl
  | append_singleton pairs x ih =>
    obtain ⟨key, value⟩ := x
    rw [ofList_append, get?_set, ih, List.reverse_append, List.reverse_singleton,
      List.singleton_append, lookup_cons_ite]

/-- The keys of entries, in their order. -/
def keysOf (entries : List (String × String)) : List String := entries.map Prod.fst

theorem keysOf_setEntry (key value : String) (entries : List (String × String)) :
    keysOf (setEntry key value entries) =
      if key ∈ keysOf entries then keysOf entries else keysOf entries ++ [key] := by
  induction entries with
  | nil => simp [setEntry, keysOf]
  | cons x rest ih =>
    obtain ⟨k, v⟩ := x
    simp only [keysOf, List.map_cons] at ih ⊢
    rw [setEntry]
    split
    · rename_i hk
      subst hk
      simp
    · rename_i hk
      rw [List.map_cons, ih]
      by_cases hmem : key ∈ rest.map Prod.fst
      · simp [hmem]
      · simp [hmem, Ne.symm hk]

/-- Each key is there once. -/
theorem nodup_keysOf_ofList (pairs : List (String × String)) :
    (keysOf (ofList pairs).entries).Nodup := by
  induction pairs using List.reverseRecOn with
  | nil => exact List.nodup_nil
  | append_singleton pairs x ih =>
    obtain ⟨key, value⟩ := x
    rw [ofList_append, set, keysOf_setEntry]
    split
    · exact ih
    · rename_i hkey
      rw [← List.concat_eq_append]
      exact ih.concat hkey

/-- Where each key is there once, an entry is what is looked up under its key. -/
theorem mem_iff_lookup {entries : List (String × String)} (h : (keysOf entries).Nodup) :
    (key, value) ∈ entries ↔ entries.lookup key = some value := by
  induction entries with
  | nil => simp
  | cons x rest ih =>
    obtain ⟨k, v⟩ := x
    obtain ⟨hk, hrest⟩ := List.nodup_cons.mp h
    rw [List.mem_cons, lookup_cons_ite, ih hrest]
    by_cases hkey : key = k
    · subst hkey
      have hnone : rest.lookup key ≠ some value := fun hsome =>
        hk (List.mem_map.mpr ⟨_, (ih hrest).mpr hsome, rfl⟩)
      rw [if_pos rfl, Prod.mk.injEq, Option.some_inj]
      exact ⟨fun hor => (hor.resolve_right hnone).2.symm, fun heq => .inl ⟨rfl, heq.symm⟩⟩
    · rw [if_neg hkey]
      exact or_iff_right fun heq => hkey (Prod.mk.inj heq).1

/-- Entries in another order are the same map. -/
theorem lookup_perm {entries entries' : List (String × String)} (h : (keysOf entries).Nodup)
    (hperm : entries'.Perm entries) (name : String) :
    entries'.lookup name = entries.lookup name := by
  have h' : (keysOf entries').Nodup := (hperm.map Prod.fst).nodup_iff.mpr h
  refine Option.ext fun value => ?_
  rw [← mem_iff_lookup h', ← mem_iff_lookup h, hperm.mem_iff]

/-- Maps that give the same values have the same entries. -/
theorem entries_perm (hp : (keysOf p.entries).Nodup) (hm : (keysOf m.entries).Nodup)
    (h : ∀ name, p.get? name = m.get? name) : p.entries.Perm m.entries := by
  refine (List.perm_ext_iff_of_nodup hp.of_map hm.of_map).mpr fun x => ?_
  rw [mem_iff_lookup hp, mem_iff_lookup hm]
  exact Eq.congr_left (h x.1)

/-! ## There and back -/

/--
**Reading undoes writing.** Whatever a text that writes entries looks like, under each key there is
the value that was written for it last, and no value if none was written. So a map comes back as it
is, in whatever order its entries are written.
-/
theorem parse_written {text : String} (h : Written text.toList pairs) :
    (∀ name, (parse text).get? name = pairs.reverse.lookup name) ∧
    ∀ m : Properties, (keysOf m.entries).Nodup → pairs.Perm m.entries →
      (∀ name, (parse text).get? name = m.get? name) ∧ (parse text).entries.Perm m.entries := by
  have hparse : parse text = ofList pairs := by rw [parse_eq, h.filterMap_eq]
  rw [hparse]
  refine ⟨get?_ofList pairs, fun m hm hperm => ?_⟩
  have hget : ∀ name, (ofList pairs).get? name = m.get? name := fun name => by
    rw [get?_ofList, lookup_perm hm (pairs.reverse_perm.trans hperm)]
    rfl
  exact ⟨hget, entries_perm (nodup_keysOf_ofList pairs) hm hget⟩

/-- Here every way to write is used: a comment, blanks, both line ends, a line without a sign, an
empty key with an empty value, a key that is written twice, and a last line without end. -/
theorem parse_written_of_medley :
    let text := "# a=b\r\n\u00a0speed \t=  x=#1\u3000\r\n \n=\nno sign\n speed =y"
    let pairs := [("speed", "x=#1"), ("", ""), ("speed", "y")]
    Written text.toList pairs ∧
      (∀ name, (parse text).get? name = pairs.reverse.lookup name) ∧
      (parse text).get? "speed" = some "y" ∧ (parse text).get? "# a" = none := by
  intro text pairs
  have hblank : IsPadding [] := nofun
  have hspace : IsPadding [' '] := by decide
  have hspeed : IsKey "speed" := by decide
  have hcomment : Writes ([] ++ '#' :: " a=b".toList) none := .comment hblank (by decide)
  have hfirst : Writes (['\u00a0'] ++ "speed".toList ++ [' ', '\t'] ++
      '=' :: ([' ', ' '] ++ "x=#1".toList ++ ['\u3000'])) (some ("speed", "x=#1")) :=
    .entry hspeed (by decide) (by decide) (by decide) (by decide) (by decide)
  have hempty : Writes ([] ++ "".toList ++ [] ++ '=' :: ([] ++ "".toList ++ [])) (some ("", "")) :=
    .entry (by decide) (by decide) hblank hblank hblank hblank
  have hother : Writes "no sign".toList none := .noSign (by decide) (by decide)
  have hlast : Writes ([' '] ++ "speed".toList ++ [' '] ++ '=' :: ([] ++ "y".toList ++ []))
      (some ("speed", "y")) :=
    .entry hspeed (by decide) hspace hspace hblank hblank
  have hlines := Written.carriageReturn hcomment (.carriageReturn hfirst (.lineFeed (.blank hspace)
    (.lineFeed hempty (.lineFeed hother (.last hlast)))))
  have h : Written text.toList pairs := by
    convert hlines using 1
    · decide
    · rfl
  obtain ⟨hget, -⟩ := parse_written h
  exact ⟨h, hget, hget "speed", hget "# a"⟩

/-! ## The plainest way -/

/-- Entries as `key=value`, each on a line that is ended. -/
def write (entries : List (String × String)) : String :=
  String.join (entries.map fun (k, v) => k ++ "=" ++ v ++ "\n")

/-- All entries that can be written are written so. -/
theorem written_write {entries : List (String × String)}
    (h : ∀ x ∈ entries, IsKey x.1 ∧ IsValue x.2) : Written (write entries).toList entries := by
  have hnone : IsPadding [] := nofun
  induction entries with
  | nil => exact .last (.blank hnone)
  | cons x rest ih =>
    obtain ⟨key, value⟩ := x
    obtain ⟨⟨hkey, hvalue⟩, hrest⟩ := List.forall_mem_cons.mp h
    have hline := Writes.entry hkey hvalue hnone hnone hnone hnone
    have hwrite : (write ((key, value) :: rest)).toList =
        ([] ++ key.toList ++ [] ++ '=' :: ([] ++ value.toList ++ [])) ++
          '\n' :: (write rest).toList := by
      simp [write, String.toList_join]
    rw [hwrite]
    exact .lineFeed hline (ih hrest)

theorem setEntry_of_notMem {entries : List (String × String)} (h : key ∉ keysOf entries) :
    setEntry key value entries = entries ++ [(key, value)] := by
  induction entries with
  | nil => rfl
  | cons x rest ih =>
    obtain ⟨k, v⟩ := x
    rw [keysOf, List.map_cons, List.mem_cons, not_or] at h
    obtain ⟨hk, hrest⟩ := h
    rw [setEntry, if_neg (Ne.symm hk), ih hrest, List.cons_append]

/-- Entries with one key each stay as they are, in their order. -/
theorem ofList_of_nodup (h : (keysOf pairs).Nodup) : ofList pairs = ⟨pairs⟩ := by
  induction pairs using List.reverseRecOn with
  | nil => rfl
  | append_singleton pairs x ih =>
    obtain ⟨key, value⟩ := x
    rw [keysOf, List.map_append, List.map_singleton, ← List.concat_eq_append,
      List.nodup_concat] at h
    rw [ofList_append, ih h.2, set, setEntry_of_notMem h.1]

/-- **What is written in the plainest way is read as it was**, in its order. -/
theorem parse_write (h : ∀ x ∈ p.entries, IsKey x.1 ∧ IsValue x.2)
    (hkeys : (keysOf p.entries).Nodup) : parse (write p.entries) = p := by
  rw [parse_eq, (written_write h).filterMap_eq, ofList_of_nodup hkeys]

end VehiclePrivacy.Properties
