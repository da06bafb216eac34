import VehiclePrivacy.Proofs.Geofence.Growth

/-!
# Insertion, one corridor after the other

`insert` says at once what comes of a leaf that splits. Here insertion is written down as it goes on
in the tree: a leaf that is full is replaced by four empty leaves, which take over its corridors one
after the other, and may have to split for that themselves. `Inserts` has one rule for each way that
a corridor can go, and no bound on the number of steps.

Each insertion comes to an end, with one result, and that is what `insert` answers (`inserts_iff`).
It ends because a split leads one level down and there are no splits at the last depth; a descent
leads one level down as well, but to a smaller tree.
-/

namespace VehiclePrivacy

namespace QuadTree

mutual

/-- `Inserts l d t c t' stored`: the insertion of a corridor into a tree whose root is at depth `d`
ends with the tree `t'` and the answer `stored`. -/
inductive Inserts (l : Limits) : Nat → QuadTree → Corridor → QuadTree → Bool → Prop where
  /-- What does not touch the box is refused. -/
  | outside {d : Nat} {t : QuadTree} {c : Corridor} :
      ¬ t.box.meets c.box = true → Inserts l d t c t false
  /-- A leaf takes it behind the others, if there is room or the leaf is at the last depth. -/
  | leaf {d : Nat} {b : Box} {cs : List Corridor} {c : Corridor} :
      b.meets c.box = true → cs.length < l.leafCapacity ∨ l.maxDepth ≤ d →
      Inserts l d (.leaf b cs) c (.leaf b (cs ++ [c])) true
  /-- A full leaf splits. The four new leaves know nothing of one another. -/
  | split {d : Nat} {b : Box} {cs : List Corridor} {c : Corridor} {sw se nw ne : QuadTree} :
      b.meets c.box = true → l.leafCapacity ≤ cs.length → d < l.maxDepth →
      Fills l (d + 1) (.empty b.southWest) (cs ++ [c]) sw →
      Fills l (d + 1) (.empty b.southEast) (cs ++ [c]) se →
      Fills l (d + 1) (.empty b.northWest) (cs ++ [c]) nw →
      Fills l (d + 1) (.empty b.northEast) (cs ++ [c]) ne →
      Inserts l d (.leaf b cs) c (.node b sw se nw ne) true
  /-- A node hands it to its four children, and answers whether any of them has stored it. -/
  | node {d : Nat} {b : Box} {c : Corridor} {sw se nw ne sw' se' nw' ne' : QuadTree}
      {inSw inSe inNw inNe : Bool} :
      b.meets c.box = true →
      Inserts l (d + 1) sw c sw' inSw → Inserts l (d + 1) se c se' inSe →
      Inserts l (d + 1) nw c nw' inNw → Inserts l (d + 1) ne c ne' inNe →
      Inserts l d (.node b sw se nw ne) c (.node b sw' se' nw' ne')
        (inSw || inSe || inNw || inNe)

/-- `Fills l d t cs t'`: the insertion of corridors one after the other ends with the tree `t'`. -/
inductive Fills (l : Limits) : Nat → QuadTree → List Corridor → QuadTree → Prop where
  | nil {d : Nat} {t : QuadTree} : Fills l d t [] t
  | cons {d : Nat} {t t' t'' : QuadTree} {c : Corridor} {cs : List Corridor} {stored : Bool} :
      Inserts l d t c t' stored → Fills l d t' cs t'' → Fills l d t (c :: cs) t''

end

variable {l : Limits} {d : Nat} {t t' : QuadTree} {c : Corridor} {cs : List Corridor}
  {b : Box} {stored : Bool}

/-- The tree at depth `d` after an insertion, and the answer. -/
def insertAt (l : Limits) (d : Nat) (t : QuadTree) (c : Corridor) : QuadTree × Bool :=
  t.insertWithin l.leafCapacity (l.maxDepth - d) c

/-- The tree at depth `d` after some insertions. -/
def fillAt (l : Limits) (d : Nat) (t : QuadTree) (cs : List Corridor) : QuadTree :=
  cs.foldl (fun t c => (t.insertAt l d c).1) t

/-- A tree that fills an empty leaf is grown from all the corridors. -/
theorem fillAt_empty (l : Limits) (d : Nat) (b : Box) (cs : List Corridor) :
    fillAt l d (empty b) cs = grow l.leafCapacity (l.maxDepth - d) b (touching b cs) := by
  have hempty : empty b = grow l.leafCapacity (l.maxDepth - d) b [] := empty_eq_grow
  rw [fillAt, hempty]
  exact foldl_insertWithin_grow [] cs

theorem insertAt_outside (h : ¬ t.box.meets c.box = true) : t.insertAt l d c = (t, false) :=
  insertWithin_of_not_meets h

/-- A leaf with room, or at the last depth, does not split. -/
theorem insertAt_leaf (h : b.meets c.box = true)
    (hroom : cs.length < l.leafCapacity ∨ l.maxDepth ≤ d) :
    (leaf b cs).insertAt l d c = (leaf b (cs ++ [c]), true) := by
  rw [insertAt, insertWithin_leaf h]
  rcases hroom with hroom | hlast
  · rw [grow_of_le]
    simp only [List.length_append, List.length_singleton]
    omega
  · rw [Nat.sub_eq_zero_of_le hlast]
    rfl

/-- A full leaf becomes a node whose children are filled with what it held. -/
theorem insertAt_split (h : b.meets c.box = true) (hfull : l.leafCapacity ≤ cs.length)
    (hdepth : d < l.maxDepth) :
    (leaf b cs).insertAt l d c =
      (node b (fillAt l (d + 1) (empty b.southWest) (cs ++ [c]))
        (fillAt l (d + 1) (empty b.southEast) (cs ++ [c]))
        (fillAt l (d + 1) (empty b.northWest) (cs ++ [c]))
        (fillAt l (d + 1) (empty b.northEast) (cs ++ [c])), true) := by
  have hlevels : l.maxDepth - d = l.maxDepth - (d + 1) + 1 := by omega
  have hlength : l.leafCapacity < (cs ++ [c]).length := by
    simp only [List.length_append, List.length_singleton]
    omega
  rw [insertAt, insertWithin_leaf h, hlevels, grow_of_lt hlength]
  simp only [fillAt_empty]

theorem insertAt_node {sw se nw ne : QuadTree} (h : b.meets c.box = true) :
    (node b sw se nw ne).insertAt l d c =
      (node b (sw.insertAt l (d + 1) c).1 (se.insertAt l (d + 1) c).1
        (nw.insertAt l (d + 1) c).1 (ne.insertAt l (d + 1) c).1,
        (sw.insertAt l (d + 1) c).2 || (se.insertAt l (d + 1) c).2 ||
          (nw.insertAt l (d + 1) c).2 || (ne.insertAt l (d + 1) c).2) := by
  have hlevels : l.maxDepth - d - 1 = l.maxDepth - (d + 1) := by omega
  rw [insertAt, insertWithin, if_pos h, hlevels]
  rfl

/-! ## Insertion ends in one way -/

mutual

/-- An insertion that has ended has the result that `insert` tells at once. -/
theorem insertAt_of_inserts {l : Limits} {d : Nat} {t t' : QuadTree} {c : Corridor}
    {stored : Bool} : Inserts l d t c t' stored → t.insertAt l d c = (t', stored)
  | .outside hmeets => insertAt_outside hmeets
  | .leaf hmeets hroom => insertAt_leaf hmeets hroom
  | .split hmeets hfull hdepth hsw hse hnw hne => by
    rw [insertAt_split hmeets hfull hdepth, fillAt_of_fills hsw, fillAt_of_fills hse,
      fillAt_of_fills hnw, fillAt_of_fills hne]
  | .node hmeets hsw hse hnw hne => by
    rw [insertAt_node hmeets, insertAt_of_inserts hsw, insertAt_of_inserts hse,
      insertAt_of_inserts hnw, insertAt_of_inserts hne]

theorem fillAt_of_fills {l : Limits} {d : Nat} {t t' : QuadTree} {cs : List Corridor} :
    Fills l d t cs t' → fillAt l d t cs = t'
  | .nil => rfl
  | .cons hfirst hrest => by
    rw [fillAt, List.foldl_cons, insertAt_of_inserts hfirst]
    exact fillAt_of_fills hrest

end

/-- If each insertion ends, then so do any number of them. -/
theorem exists_fills (h : ∀ t c, ∃ t' stored, Inserts l d t c t' stored) (t : QuadTree)
    (cs : List Corridor) : ∃ t', Fills l d t cs t' := by
  induction cs generalizing t with
  | nil => exact ⟨t, .nil⟩
  | cons c cs ih =>
    obtain ⟨t', stored, hfirst⟩ := h t c
    obtain ⟨t'', hrest⟩ := ih t'
    exact ⟨t'', .cons hfirst hrest⟩

/-- Insertion at a depth ends if it does further down, where splits lead to. A descent leads there
too, but to a smaller tree, so the induction is on the tree. -/
theorem exists_inserts_of_below (t : QuadTree) (c : Corridor)
    (hbelow : ∀ k, d < k → k ≤ l.maxDepth → ∀ t c, ∃ t' stored, Inserts l k t c t' stored) :
    ∃ t' stored, Inserts l d t c t' stored := by
  induction t generalizing d with
  | leaf b cs =>
    by_cases hmeets : b.meets c.box = true
    · by_cases hroom : cs.length < l.leafCapacity ∨ l.maxDepth ≤ d
      · exact ⟨_, _, .leaf hmeets hroom⟩
      · have hfull : l.leafCapacity ≤ cs.length := by omega
        have hdepth : d < l.maxDepth := by omega
        have hfills := exists_fills (hbelow (d + 1) (Nat.lt_succ_self d) hdepth)
        obtain ⟨sw, hsw⟩ := hfills (.empty b.southWest) (cs ++ [c])
        obtain ⟨se, hse⟩ := hfills (.empty b.southEast) (cs ++ [c])
        obtain ⟨nw, hnw⟩ := hfills (.empty b.northWest) (cs ++ [c])
        obtain ⟨ne, hne⟩ := hfills (.empty b.northEast) (cs ++ [c])
        exact ⟨_, _, .split hmeets hfull hdepth hsw hse hnw hne⟩
    · exact ⟨_, _, .outside hmeets⟩
  | node b sw se nw ne ihsw ihse ihnw ihne =>
    by_cases hmeets : b.meets c.box = true
    · have hbelow' : ∀ k, d + 1 < k → k ≤ l.maxDepth →
          ∀ t c, ∃ t' stored, Inserts l k t c t' stored := by
        intro k hk
        exact hbelow k (by omega)
      obtain ⟨sw', inSw, hsw⟩ := ihsw hbelow'
      obtain ⟨se', inSe, hse⟩ := ihse hbelow'
      obtain ⟨nw', inNw, hnw⟩ := ihnw hbelow'
      obtain ⟨ne', inNe, hne⟩ := ihne hbelow'
      exact ⟨_, _, .node hmeets hsw hse hnw hne⟩
    · exact ⟨_, _, .outside hmeets⟩

/-- **Insertion ends.** The induction is on the levels that are left below the depth. -/
theorem exists_inserts (l : Limits) (d : Nat) (t : QuadTree) (c : Corridor) :
    ∃ t' stored, Inserts l d t c t' stored := by
  induction hlevels : l.maxDepth - d using Nat.strongRecOn generalizing d t c with
  | ind n ih =>
    refine exists_inserts_of_below t c ?_
    intro k hdeeper hlast t c
    exact ih (l.maxDepth - k) (by omega) k t c rfl

/-- **Insertion ends with one result**, which is the one that is told at once. -/
theorem inserts_iff : Inserts l d t c t' stored ↔ t.insertAt l d c = (t', stored) := by
  refine ⟨insertAt_of_inserts, fun h => ?_⟩
  obtain ⟨t'', stored', hends⟩ := exists_inserts l d t c
  obtain ⟨rfl, rfl⟩ := Prod.mk.inj ((insertAt_of_inserts hends).symm.trans h)
  exact hends

/-- So does any number of insertions. -/
theorem fills_iff : Fills l d t cs t' ↔ fillAt l d t cs = t' := by
  refine ⟨fillAt_of_fills, fun h => ?_⟩
  obtain ⟨t'', hends⟩ := exists_fills (exists_inserts l d) t cs
  obtain rfl := (fillAt_of_fills hends).symm.trans h
  exact hends

end QuadTree

end VehiclePrivacy
