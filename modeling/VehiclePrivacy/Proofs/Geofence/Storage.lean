import VehiclePrivacy.Proofs.Geo.Padding
import VehiclePrivacy.Proofs.Geofence.Leaves

/-!
# What is stored, and what is counted

Below a node, a corridor is stored if one of the four children stores it, so the answer of an
insertion is found in the leaves. In a proper box it could have been told from the root alone
(`insertWithin_answer`), because what touches a box touches one of its quarters. For the same reason
there is always a leaf whose path a corridor touches all along (`exists_leaf`), and that leaf holds
it as often as it was inserted.

A geofence counts the segments that were stored, which are so the ones whose corridors touch its
bounds.
-/

namespace VehiclePrivacy

namespace QuadTree

variable {capacity levels : Nat} {b : Box} {c : Corridor} {cs : List Corridor}

/-- What an insertion at a node answers: whether any child has stored the corridor. -/
theorem insertWithin_node_stored {sw se nw ne : QuadTree} (h : b.meets c.box = true) :
    ((node b sw se nw ne).insertWithin capacity (levels + 1) c).2 = true ↔
      ∃ t ∈ [sw, se, nw, ne], (t.insertWithin capacity levels c).2 = true := by
  rw [insertWithin, if_pos h, Nat.add_sub_cancel]
  simp [or_assoc]

/-- What is refused leaves the tree as it is. -/
theorem insertWithin_refused (t : QuadTree) (h : (t.insertWithin capacity levels c).2 = false) :
    (t.insertWithin capacity levels c).1 = t := by
  induction t generalizing levels with
  | leaf b cs =>
    by_cases hmeets : b.meets c.box = true
    · rw [insertWithin_leaf hmeets] at h
      cases h
    · exact congrArg Prod.fst (insertWithin_of_not_meets (t := leaf b cs) hmeets)
  | node b sw se nw ne ihsw ihse ihnw ihne =>
    by_cases hmeets : b.meets c.box = true
    · rw [insertWithin, if_pos hmeets] at h ⊢
      simp only [Bool.or_eq_false_iff] at h
      obtain ⟨⟨⟨hsw, hse⟩, hnw⟩, hne⟩ := h
      simp only [ihsw hsw, ihse hse, ihnw hnw, ihne hne]
    · exact congrArg Prod.fst (insertWithin_of_not_meets (t := node b sw se nw ne) hmeets)

/-- **The answer is told by the root.** In a proper box a corridor is stored exactly when it touches
the box, however far down the leaves are. -/
theorem insertWithin_answer (hb : b.isProper = true) (hc : c.box.Upright) :
    ((grow capacity levels b cs).insertWithin capacity levels c).2 = b.meets c.box := by
  by_cases hmeets : b.meets c.box = true
  · rw [hmeets]
    induction levels, b, cs using grow_ind capacity with
    | leaf levels b cs _ hgrow =>
      rw [hgrow]
      exact congrArg Prod.snd (insertWithin_leaf hmeets)
    | split levels b cs hfull ih =>
      obtain ⟨q, hq, hqc⟩ := Box.exists_quarter_meets hb hc hmeets
      have hstored := ih q (Box.isProper_of_mem_quarters hb q hq) hqc
      rw [grow_of_lt hfull, insertWithin_node_stored hmeets]
      exact ⟨_, List.mem_map_of_mem (f := fun q => grow capacity levels q (touching q cs)) hq,
        hstored⟩
  · rw [Bool.eq_false_iff.mpr hmeets, insertWithin_of_not_meets]
    rw [box_grow]
    exact hmeets

/-- There is a leaf with a path that a corridor touches all along. -/
theorem exists_leaf (hb : b.isProper = true) (hc : c.box.Upright) (hmeets : b.meets c.box = true) :
    ∃ x ∈ (grow capacity levels b cs).leaves, (x.path.all fun p => p.meets c.box) = true := by
  induction levels, b, cs using grow_ind capacity with
  | leaf levels b cs _ hgrow =>
    rw [hgrow]
    exact ⟨⟨[], b, cs⟩, mem_leaves_leaf.mpr rfl, by simp [Leaf.path, hmeets]⟩
  | split levels b cs hfull ih =>
    obtain ⟨q, hq, hqc⟩ := Box.exists_quarter_meets hb hc hmeets
    obtain ⟨x, hx, hpath⟩ := ih q (Box.isProper_of_mem_quarters hb q hq) hqc
    refine ⟨x.below b, (mem_leaves_grow hfull).mpr ⟨q, hq, x, hx, rfl⟩, ?_⟩
    rw [Leaf.path_below, List.all_cons, hmeets, hpath]
    rfl

/-- What an insertion answers after any others. -/
theorem insert_answer (hb : b.isProper = true) (hc : c.box.Upright) (l : Limits)
    (cs : List Corridor) : (((empty b).insertAll l cs).insert l c).2 = b.meets c.box := by
  rw [insertAll_empty]
  exact insertWithin_answer hb hc

/-- What touches the box is held in a leaf as often as it was inserted. -/
theorem exists_leaf_count (hb : b.isProper = true) (hc : c.box.Upright)
    (hmeets : b.meets c.box = true) (l : Limits) (cs : List Corridor) :
    ∃ x ∈ ((empty b).insertAll l cs).leaves, x.corridors.count c = cs.count c := by
  rw [insertAll_empty]
  obtain ⟨x, hx, hpath⟩ := exists_leaf hb hc hmeets
  refine ⟨x, hx, ?_⟩
  rw [(holds_of_mem_grow hx).corridors]
  exact List.count_filter hpath

/-- So it is stored from its insertion on. -/
theorem stored_later (hb : b.isProper = true) (hc : c.box.Upright) (hmeets : b.meets c.box = true)
    (l : Limits) (cs later : List Corridor) :
    ∃ x ∈ ((((empty b).insertAll l cs).insert l c).1.insertAll l later).leaves,
      c ∈ x.corridors ∧ x.corridors.count c = (cs ++ c :: later).count c := by
  have htree : (((empty b).insertAll l cs).insert l c).1.insertAll l later =
      (empty b).insertAll l (cs ++ c :: later) := by
    rw [insertAll, insertAll, insertAll, List.foldl_append, List.foldl_cons]
  obtain ⟨x, hx, hcount⟩ := exists_leaf_count hb hc hmeets l (cs ++ c :: later)
  rw [htree]
  refine ⟨x, hx, ?_, hcount⟩
  rw [← List.count_pos_iff, hcount, List.count_pos_iff]
  exact List.mem_append_right cs List.mem_cons_self

end QuadTree

namespace Geofence

open QuadTree

variable {b : Box} {l : Limits} {g : Geofence} {buffer : Float}

/-- What building a geofence keeps, one segment after the other: its buffer, and that its tree comes
from insertions. -/
structure Built (b : Box) (l : Limits) (buffer : Float) (g : Geofence) : Prop where
  buffer : g.buffer = buffer
  tree : ∃ cs, g.tree = (QuadTree.empty b).insertAll l cs

/-- Whether a geofence counts a segment. -/
def counted (b : Box) (buffer : Float) (s : Segment) : Bool :=
  s.onGlobe && b.meets (s.corridor buffer).box

theorem Built.add (h : g.Built b l buffer) (s : Segment) : (g.add l s).Built b l buffer := by
  by_cases hs : s.onGlobe = true
  · obtain ⟨cs, htree⟩ := h.tree
    rw [add_onGlobe hs]
    refine ⟨h.buffer, cs ++ [s.corridor g.buffer], ?_⟩
    rw [htree, insertAll, insertAll, List.foldl_append]
    rfl
  · rw [add_off hs]
    exact h

/-- A segment is counted when its corridor touches the bounds. -/
theorem Built.size_add (h : g.Built b l buffer) (hb : b.isProper = true)
    (hbuffer : isBuffer buffer = true) (s : Segment) :
    (g.add l s).size = g.size + if counted b buffer s then 1 else 0 := by
  by_cases hs : s.onGlobe = true
  · obtain ⟨cs, htree⟩ := h.tree
    have hanswer := insert_answer hb (Segment.upright_corridor hs hbuffer) l cs
    rw [add_onGlobe hs, h.buffer, htree, hanswer, counted, hs, Bool.true_and]
    dsimp only
    split <;> rfl
  · rw [add_off hs, counted, Bool.eq_false_iff.mpr hs]
    rfl

theorem Built.size_foldl_add (h : g.Built b l buffer) (hb : b.isProper = true)
    (hbuffer : isBuffer buffer = true) (segments : List Segment) :
    (segments.foldl (Geofence.add l) g).size = g.size + segments.countP (counted b buffer) := by
  induction segments generalizing g with
  | nil => rfl
  | cons s segments ih =>
    rw [List.foldl_cons, ih (h.add s), h.size_add hb hbuffer, List.countP_cons]
    omega

/-- The size of a geofence is the number of segments that are counted. -/
theorem size_ofSegments (hb : b.isProper = true) (hbuffer : isBuffer buffer = true)
    (segments : List Segment) (l : Limits) :
    ∃ g, ofSegments b segments buffer l = .ok g ∧
      g.size = segments.countP (counted b buffer) := by
  have hbuilt : Built b l buffer ⟨.empty b, buffer, 0⟩ := ⟨rfl, [], rfl⟩
  refine ⟨segments.foldl (Geofence.add l) ⟨.empty b, buffer, 0⟩, ?_, ?_⟩
  · rw [ofSegments, hb, hbuffer]
    rfl
  · rw [hbuilt.size_foldl_add hb hbuffer, Nat.zero_add]

/--
**What insertion answers, and what a geofence counts.** In a tree over a proper box, after any
insertions, a corridor whose corners are in the right order is stored exactly when it touches the
box. A corridor that is stored is found in a leaf from then on, as often as it was inserted; one
that is refused leaves the tree as it is. So the size of a geofence is the number of segments on the
globe whose corridors touch the bounds, whatever their order and the limits of the tree are.
-/
theorem insert_stored (hb : b.isProper = true) (l : Limits) :
    (∀ (cs : List Corridor) (c : Corridor), c.box.Upright →
      match ((QuadTree.empty b).insertAll l cs).insert l c with
      | (t, true) => b.meets c.box = true ∧ ∀ later, ∃ x ∈ (t.insertAll l later).leaves,
          c ∈ x.corridors ∧ x.corridors.count c = (cs ++ c :: later).count c
      | (t, false) => b.meets c.box = false ∧ t = (QuadTree.empty b).insertAll l cs) ∧
    ∀ (segments : List Segment) (buffer : Float), isBuffer buffer = true →
      ∃ g, ofSegments b segments buffer l = .ok g ∧
        g.size = segments.countP fun s => s.onGlobe && b.meets (s.corridor buffer).box := by
  refine ⟨fun cs c hc => ?_, fun segments buffer hbuffer =>
    size_ofSegments hb hbuffer segments l⟩
  have hanswer := insert_answer hb hc l cs
  have hlater := fun hmeets => stored_later hb hc hmeets l cs
  rcases hinsert : ((QuadTree.empty b).insertAll l cs).insert l c with ⟨t, stored⟩
  rw [hinsert] at hanswer hlater
  cases stored with
  | false =>
    have hrefused := insertWithin_refused _ (congrArg Prod.snd hinsert)
    exact ⟨hanswer.symm, (congrArg Prod.fst hinsert).symm.trans hrefused⟩
  | true => exact ⟨hanswer.symm, hlater hanswer.symm⟩

/-- In a tree over the globe that splits for every corridor, one that was inserted before is stored
once more, and one off the globe is refused. Of two such segments, one is counted. -/
theorem insert_stored_of_globe :
    let l : Limits := ⟨0, 3⟩
    let road : Segment := ⟨7, ⟨35, -84⟩, ⟨36, -83⟩, none⟩
    let beyond : Segment := ⟨8, ⟨91, 0⟩, ⟨92, 1⟩, none⟩
    let c : Corridor := ⟨road.id, road.a, road.b⟩
    let d : Corridor := ⟨beyond.id, beyond.a, beyond.b⟩
    let t := (QuadTree.empty Box.globe).insertAll l [c]
    Box.globe.isProper = true ∧ c.box.Upright ∧ d.box.Upright ∧ isBuffer 10 = true ∧
      ((t.insert l c).2 = true ∧
        ∃ x ∈ ((t.insert l c).1.insertAll l [d]).leaves, x.corridors.count c = 2) ∧
      t.insert l d = (t, false) ∧
      ∃ g, ofSegments Box.globe [road, beyond] 10 l = .ok g ∧ g.size = 1 := by
  intro l road beyond c d t
  have hglobe : Box.globe.isProper = true := by decide +kernel
  have hc : c.box.Upright := ⟨by decide +kernel, by decide +kernel⟩
  have hd : d.box.Upright := ⟨by decide +kernel, by decide +kernel⟩
  have hbuffer : isBuffer 10 = true := by decide +kernel
  obtain ⟨hinsert, hsize⟩ := insert_stored hglobe l
  refine ⟨hglobe, hc, hd, hbuffer, ?_, ?_, ?_⟩
  · have hmeets : Box.globe.meets c.box = true := by decide +kernel
    have h := hinsert [c] c hc
    rcases htree : t.insert l c with ⟨t', stored⟩
    rw [htree] at h
    cases stored with
    | false => cases hmeets.symm.trans h.1
    | true =>
      obtain ⟨x, hx, -, hcount⟩ := h.2 [d]
      refine ⟨rfl, x, hx, ?_⟩
      rw [hcount]
      decide +kernel
  · have hmeets : Box.globe.meets d.box = false := by decide +kernel
    have h := hinsert [c] d hd
    rcases htree : t.insert l d with ⟨t', stored⟩
    rw [htree] at h
    cases stored with
    | false => rw [h.2]
    | true => cases hmeets.symm.trans h.1
  · obtain ⟨g, hg, hcount⟩ := hsize [road, beyond] 10 hbuffer
    refine ⟨g, hg, ?_⟩
    have hroad : road.onGlobe = true := by decide +kernel
    have hbeyond : beyond.onGlobe = false := by decide +kernel
    have hend : (Box.spanning road.a road.b).contains road.a = true := by decide +kernel
    have hcorridor := (road.inside_corridor hroad hbuffer).contains hend
    have hmeets : Box.globe.meets (road.corridor 10).box = true :=
      Box.meets_of_contains (by decide +kernel) hcorridor
    rw [hcount, List.countP_cons, List.countP_cons, List.countP_nil, hroad, hbeyond, hmeets]
    rfl

end Geofence

end VehiclePrivacy
