import VehiclePrivacy.Proofs.Json.Pruning
import VehiclePrivacy.Sanitizer

/-!
# Blocks and lists of names

The listed names are taken out of a block one after the other, each only if it is still there. What
is left does not show it: it is the block without all of them, in whatever order they are listed
(`redactBlock_prunes`). The order shows in the count alone, since a name may be gone with the value
of another one before its turn comes.
-/

namespace VehiclePrivacy

namespace MemberList

variable {l : MemberList} {names : List String} {block : Json × Nat} {v : Json}

/-- A name is counted if it is there. -/
theorem strip_snd (block : Json × Nat) (n : String) :
    (strip block n).2 = if block.1.hasMember n then block.2 + 1 else block.2 := by
  obtain ⟨v, count⟩ := block
  rw [strip]
  cases h : v.hasMember n with
  | false => rfl
  | true =>
    have hfound : (v.eraseMember n).2 = true := (Json.eraseMember_found n v).trans h
    simp only [hfound]
    rfl

/-- A name that is not there changes nothing. -/
theorem strip_absent {n : String} (h : block.1.hasMember n = false) : strip block n = block := by
  obtain ⟨v, count⟩ := block
  rw [strip, show v.hasMember n = false from h]
  rfl

theorem foldl_strip_absent (block : Json × Nat) (h : ∀ n ∈ names, block.1.hasMember n = false) :
    names.foldl strip block = block := by
  induction names with
  | nil => rfl
  | cons n rest ih =>
    rw [List.forall_mem_cons] at h
    rw [List.foldl_cons, strip_absent h.1]
    exact ih h.2

/-- Each name adds one to the count at most, and none takes anything from it. -/
theorem foldl_strip_bounds (names : List String) (block : Json × Nat) :
    block.2 ≤ (names.foldl strip block).2 ∧
      (names.foldl strip block).2 ≤ block.2 + names.length := by
  induction names generalizing block with
  | nil => exact ⟨Nat.le_refl _, Nat.le_refl _⟩
  | cons n rest ih =>
    have hstep := strip_snd block n
    obtain ⟨hlow, hhigh⟩ := ih (strip block n)
    rw [List.foldl_cons, List.length_cons]
    split at hstep <;> omega

/-- The count stays as it is exactly if no name is there. -/
theorem foldl_strip_count (block : Json × Nat) : (names.foldl strip block).2 = block.2 ↔
    ∀ n ∈ names, block.1.hasMember n = false := by
  refine ⟨fun h => ?_, fun h => congrArg Prod.snd (foldl_strip_absent block h)⟩
  induction names with
  | nil => simp
  | cons n rest ih =>
    rw [List.foldl_cons] at h
    cases hn : block.1.hasMember n with
    | false =>
      rw [strip_absent hn] at h
      exact List.forall_mem_cons.mpr ⟨hn, ih h⟩
    | true =>
      have hstep := strip_snd block n
      have hlow := (foldl_strip_bounds rest (strip block n)).1
      rw [hn, if_pos rfl] at hstep
      omega

theorem redact?_block (l : MemberList) (h : ∀ s, v ≠ .scalar s) :
    l.redact? v = some (l.names.foldl strip (v, 0)) := by
  cases v with
  | scalar s => exact absurd rfl (h s)
  | array items => rfl
  | object members => rfl

/-- A container without some of its members is still one. -/
theorem without_ne_scalar (h : ∀ s, v ≠ .scalar s) (names : List String) :
    ∀ s, v.without names ≠ .scalar s := by
  intro s
  cases v with
  | scalar t => exact absurd rfl (h t)
  | array items => nofun
  | object members => nofun

end MemberList

namespace Sanitizer

open MemberList

/--
**The listed names are taken out of a block together.** Of `null` nothing is taken, and another
scalar is no block: that is an error, and a message under redaction is left as it is. What is left of
a container is the container without the members of the listed names, whichever order the list has,
and none of these names is left in it. The count is zero exactly if nothing was changed, and never
more than the names listed; to redact what is left counts nothing and changes nothing.
-/
theorem redactBlock_prunes (s : Sanitizer) :
    let names := s.rules.partII.names
    s.redactBlock .null = .ok (.null, 0) ∧
      (∀ v : Scalar, v ≠ .null →
        s.redactBlock (.scalar v) =
            .error (.notABlock ((s.record.partIIAt.map Json.Path.pointer).getD "")) ∧
          ∀ (d : Draft) (p : Json.Path), d.record.partIIAt = some p →
            d.tree.get? p = some (.scalar v) →
              d.redactPartII s.rules.partII = (d, some (.notABlock p.pointer))) ∧
      ∀ block : Json, (∀ v, block ≠ .scalar v) →
        ∃ left count, s.redactBlock block = .ok (left, count) ∧
          (∀ w, Json.Pruned names block w ↔ w = left) ∧
          (∀ r : Sanitizer, r.rules.partII.names.Perm names →
            ∃ count', r.redactBlock block = .ok (left, count')) ∧
          (∀ n ∈ names, left.hasMember n = false) ∧
          (count = 0 ↔ left = block) ∧ count ≤ names.length ∧
          s.redactBlock left = .ok (left, 0) := by
  intro names
  have hblock : ∀ (r : Sanitizer) {block : Json}, (∀ v, block ≠ .scalar v) →
      r.redactBlock block = .ok (r.rules.partII.names.foldl strip (block, 0)) := by
    intro r block h
    rw [redactBlock, redact?_block _ h]
  refine ⟨rfl, fun v hv => ⟨?_, fun d p hp hget => ?_⟩, fun block h => ?_⟩
  · rw [redactBlock, redact?_eq_none.mpr ⟨v, rfl, hv⟩]
  · rw [Draft.redactPartII, hp]
    dsimp only
    rw [hget]
    dsimp only
    rw [redact?_eq_none.mpr ⟨v, rfl, hv⟩]
  · set result := names.foldl strip (block, 0)
    have hleft : result.1 = block.without names := foldl_strip_fst names (block, 0)
    have hcount : result.2 = 0 ↔ ∀ n ∈ names, block.hasMember n = false :=
      foldl_strip_count (block, 0)
    have hgone : ∀ n ∈ names, result.1.hasMember n = false := by
      intro n hn
      rw [hleft]
      exact Json.hasMember_without hn block
    have hcontainer : ∀ v, result.1 ≠ .scalar v := by
      rw [hleft]
      exact without_ne_scalar h names
    refine ⟨result.1, result.2, hblock s h, fun w => ?_, fun r hperm => ?_, hgone, ?_, ?_, ?_⟩
    · rw [hleft]
      exact Json.pruned_iff
    · refine ⟨(r.rules.partII.names.foldl strip (block, 0)).2, ?_⟩
      rw [hblock r h, hleft, ← Json.without_congr (fun n => hperm.mem_iff) block]
      exact congrArg Except.ok (Prod.ext (foldl_strip_fst _ _) rfl)
    · rw [hcount, hleft]
      exact ⟨Json.without_eq_self, fun he n hn => Json.hasMember_of_without_eq he hn⟩
    · have hhigh := (foldl_strip_bounds names (block, 0)).2
      rwa [Nat.zero_add] at hhigh
    · rw [hblock s hcontainer, foldl_strip_absent (result.1, 0) hgone]

/-- So it is for two names of which one is below the other: their order shows in the count. -/
theorem redactBlock_prunes_of_nested :
    let s := { ofSettings {} (fun _ => true) (mkStdGen 7) with rules := ⟨{}, ⟨["a", "b"]⟩, {}⟩ }
    let r := { ofSettings {} (fun _ => true) (mkStdGen 7) with rules := ⟨{}, ⟨["b", "a"]⟩, {}⟩ }
    let block : Json := .array [.object [("a", .object [("b", .null)]), ("c", .null)]]
    let left : Json := .array [.object [("c", .null)]]
    Json.Pruned ["a", "b"] block left ∧ s.redactBlock block = .ok (left, 1) ∧
      r.redactBlock block = .ok (left, 2) := by
  intro s r block left
  have hs : s.redactBlock block = .ok (left, 1) := rfl
  obtain ⟨left', count, hleft', hpruned, -⟩ := (redactBlock_prunes s).2.2 block nofun
  obtain rfl : left = left' := (Prod.mk.inj (Except.ok.inj (hs.symm.trans hleft'))).1
  exact ⟨(hpruned left).mpr rfl, hs, rfl⟩

end Sanitizer

end VehiclePrivacy
