import VehiclePrivacy.Proofs.Redaction.Settled
import VehiclePrivacy.Proofs.Sanitizer.Receipt

/-!
# What redaction leaves in part II

The redacted message has the same recognised members in the same places (`Rules.sightings_redacted`).
So the part II block of the redacted message is the redacted block, and none of the listed names is
left in it.

Below `metadata`, and in further blocks, nothing is taken out: what stands apart from the recognised
members is kept as it is (`get?_redacted`).
-/

namespace VehiclePrivacy

namespace Sanitizer

variable {s : Sanitizer} {tree : Json}

/-- The part II block of a redacted message is the block without the listed members. -/
theorem partII_redacted (ht : Screened tree) (ha : s.active.partIIRedaction = true) :
    (sightings [] (s.redacted tree)).find? (·.field = .partII) =
      ((sightings [] tree).find? (·.field = .partII)).map fun x =>
        { x with value := x.value.without s.rules.partII.names } := by
  have hfield : (fun x : Sighting => decide (x.field = .partII)) ∘
      Sighting.edited (s.edits tree) = fun x => decide (x.field = .partII) := rfl
  rw [redacted, edits, Rules.sightings_redacted ht, List.find?_map, ← edits, hfield,
    ← first?_partII]
  cases hx : first? .partII (sightings [] tree) with
  | none => rfl
  | some x =>
    have hedit : s.edits tree x.place = some (Json.without s.rules.partII.names) :=
      (Rules.edits_first ht hx).trans (Rules.edit?_partII (field_of_first? hx) ha)
    rw [Option.map_some, Option.map_some, Sighting.edited, Json.rewrite_some hedit]

/-- What neither holds the member of a field nor lies in it is kept, whether it is a further block,
a part of an envelope, or anything else. -/
theorem get?_redacted {p : Json.Path} {w : Json} (h : tree.get? p = some w)
    (hapart : ∀ field x, first? field (sightings [] tree) = some x →
      ¬ x.place <+: p ∧ ¬ p <+: x.place) :
    (s.redacted tree).get? p = some w := by
  have hedits : (s.edits tree).Apart (.single p id) := by
    intro q q' hq hq'
    obtain rfl := Json.Edits.single_ne_none hq'
    obtain ⟨e, he⟩ := Option.ne_none_iff_exists'.mp hq
    obtain ⟨field, x, hx, rfl, -⟩ := Rules.member_of_edits he
    exact hapart field x hx
  exact Json.get?_rewrite_of_apart hedits h

/--
**No listed member is left in part II.** In the text that is given out for a retained message, the
part II block stands where it stood, and no member of it, at any depth, has a listed name.
-/
theorem partII_of_emit (s : Sanitizer) {message : String}
    (ha : s.active.has .partIIRedaction = true)
    (h : (s.receive message).2.verdict = .success) :
    ∃ tree, Json.parse message = .ok tree ∧
      (s.receive message).2.emit.1 = (s.redacted tree).render ∧
      ((sightings [] (s.redacted tree)).find? (·.field = .partII)).map Sighting.place =
        ((sightings [] tree).find? (·.field = .partII)).map Sighting.place ∧
      ∀ block, (sightings [] (s.redacted tree)).find? (·.field = .partII) = some block →
        ∀ n ∈ s.rules.partII.names, block.value.hasMember n = false := by
  obtain ⟨tree, d, hparse, ht, hd, htree, houtput⟩ := retained_cases h
  have hpartII := partII_redacted ht ha
  refine ⟨tree, hparse, ?_, ?_, ?_⟩
  · rw [emit_retained h htree houtput, hd.edited, redacted]
  · rw [hpartII, Option.map_map]
    rfl
  · intro block hblock n hn
    rw [hpartII] at hblock
    obtain ⟨x, -, rfl⟩ := Option.map_eq_some_iff.mp hblock
    exact Json.hasMember_without hn x.value

/-- So it is for a message with one block. -/
theorem partII_of_emit_of_block :
    let s := { ofSettings {} (fun _ => true) (mkStdGen 7) with
      active := ⟨false, false, false, false, true⟩, rules := ⟨{}, ⟨["a"]⟩, {}⟩ }
    let message := "\x7b\"partII\":[\x7b\"a\":\"1\",\"b\":[\x7b\"a\":null\x7d]\x7d]\x7d"
    s.active.has .partIIRedaction = true ∧ (s.receive message).2.verdict = .success ∧
      (∃ tree block, Json.parse message = .ok tree ∧
        (sightings [] (s.redacted tree)).find? (·.field = .partII) = some block ∧
        block.place = [.name "partII"] ∧
        block.value = .array [.object [("b", .array [.object []])]] ∧
        block.value.hasMember "a" = false) ∧
      (s.receive message).2.emit.1 = "\x7b\"partII\":[\x7b\"b\":[\x7b\x7d]\x7d]\x7d" := by
  intro s message
  let tree : Json := .object [("partII", .array [.object
    [("a", .string "1"), ("b", .array [.object [("a", .null)]])]])]
  let block : Sighting :=
    ⟨.partII, [.name "partII"], .array [.object [("b", .array [.object []])]]⟩
  have h : (s.receive message).2.verdict = .success := by decide +kernel
  have hparse : Json.parse message = .ok tree := by
    dsimp only [message, tree]
    rfl
  have hfound : (sightings [] (s.redacted tree)).find? (·.field = .partII) = some block := rfl
  obtain ⟨tree', hparse', hemit, -, hblock⟩ := partII_of_emit s rfl h
  obtain rfl : tree = tree' := Except.ok.inj (hparse.symm.trans hparse')
  have hgone : block.value.hasMember "a" = false :=
    hblock block hfound "a" (List.mem_singleton.mpr rfl)
  refine ⟨rfl, h, ⟨tree, block, hparse, hfound, rfl, rfl, hgone⟩, ?_⟩
  rw [hemit]
  decide +kernel

/-- A block below `metadata` keeps its members. -/
theorem partII_survives_below_metadata :
    ¬ ∀ (s : Sanitizer) (message : String) (t : Json),
      s.active.has .partIIRedaction = true → (s.receive message).2.verdict = .success →
      (s.receive message).2.emit.1 = t.render →
      ∀ path block, t.get? (path ++ [.name "partII"]) = some block →
        ∀ n ∈ s.rules.partII.names, block.hasMember n = false := by
  intro h
  let s := { ofSettings {} (fun _ => true) (mkStdGen 7) with
    active := ⟨false, false, false, false, true⟩, rules := ⟨{}, ⟨["a"]⟩, {}⟩ }
  let block : Json := .object [("a", .string "2")]
  let t : Json := .object [("partII", .object []), ("metadata", .object [("partII", block)])]
  have hleft := h s ("\x7b\"partII\":\x7b\"a\":\"1\"\x7d," ++
      "\"metadata\":\x7b\"partII\":\x7b\"a\":\"2\"\x7d\x7d\x7d") t
    rfl (by decide +kernel) (by decide +kernel) [.name "metadata"] block rfl "a"
    (List.mem_singleton.mpr rfl)
  exact absurd hleft (by decide)

end Sanitizer

end VehiclePrivacy
