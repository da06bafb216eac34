import VehiclePrivacy.Proofs.Json.Structure

/-!
# Editing a value in several places at once

`rewrite` goes once through a value and replaces the parts at chosen paths, each by a function of
what stands there; everything else is kept as it is. That is the plain reading of "this is changed,
and nothing else", so it is what the redactions of a message are measured against.

Putting values at paths one after the other comes to the same (`set?_eq_rewrite`,
`rewrite_rewrite`), provided that no path leads through another one (`Apart`).
-/

namespace VehiclePrivacy.Json

/-- What is done to the parts at chosen paths. -/
abbrev Edits := Path → Option (Json → Json)

mutual

/-- A value at a path with its parts edited. -/
def rewriteParts (edits : Edits) (path : Path) : Json → Json
  | .scalar s => .scalar s
  | .array items => .array (rewriteItems edits path 0 items)
  | .object members => .object (rewriteMembers edits path members)

/-- The items of an array at a path, edited from the index `i` on. -/
def rewriteItems (edits : Edits) (path : Path) (i : Nat) : List Json → List Json
  | [] => []
  | v :: rest =>
    (edits (path ++ [.index i])).elim (rewriteParts edits (path ++ [.index i]) v) (· v) ::
      rewriteItems edits path (i + 1) rest

/-- The members of an object at a path, edited under their names. -/
def rewriteMembers (edits : Edits) (path : Path) :
    List (String × Json) → List (String × Json)
  | [] => []
  | (n, v) :: rest =>
    (n, (edits (path ++ [.name n])).elim (rewriteParts edits (path ++ [.name n]) v) (· v)) ::
      rewriteMembers edits path rest

end

/-- A value at a path, edited there or in its parts. -/
def rewrite (edits : Edits) (path : Path) (v : Json) : Json :=
  (edits path).elim (rewriteParts edits path v) (· v)

variable {edits f g : Edits} {path : Path}

theorem rewrite_some {e : Json → Json} (h : edits path = some e) (v : Json) :
    rewrite edits path v = e v := by
  rw [rewrite, h]
  rfl

theorem rewrite_none (h : edits path = none) (v : Json) :
    rewrite edits path v = rewriteParts edits path v := by
  rw [rewrite, h]
  rfl

/-- The items one by one. -/
theorem rewriteItems_eq (i : Nat) (items : List Json) :
    rewriteItems edits path i items =
      items.mapIdx fun k v => rewrite edits (path ++ [.index (i + k)]) v := by
  induction items generalizing i with
  | nil => rfl
  | cons v rest ih =>
    rw [rewriteItems, List.mapIdx_cons, ih, ← rewrite]
    simp only [Nat.add_zero, Nat.add_assoc, Nat.add_comm 1]

/-- The members one by one. -/
theorem rewriteMembers_eq (members : List (String × Json)) :
    rewriteMembers edits path members =
      members.map fun m => (m.1, rewrite edits (path ++ [.name m.1]) m.2) := by
  induction members with
  | nil => rfl
  | cons m rest ih => rw [rewriteMembers, List.map_cons, ih, ← rewrite]

theorem lookup_rewriteMembers (n : String) (members : List (String × Json)) :
    (rewriteMembers edits path members).lookup n =
      (members.lookup n).map (rewrite edits (path ++ [.name n])) := by
  induction members with
  | nil => rfl
  | cons m rest ih =>
    obtain ⟨k, v⟩ := m
    rw [rewriteMembers, ← rewrite, List.lookup_cons, List.lookup_cons]
    -- the edits of a member go by its own name, which is the one looked up
    cases hk : n == k with
    | true => rw [← eq_of_beq hk]; rfl
    | false => exact ih

/-- Edits that put no value with repeated names in place of one without. -/
def Edits.Sound (edits : Edits) : Prop :=
  ∀ p e w, edits p = some e → w.Distinct → (e w).Distinct

/-- Edits keep names distinct if what they put in place does. -/
theorem Distinct.rewrite {v : Json} (hv : v.Distinct) (he : edits.Sound) :
    (Json.rewrite edits path v).Distinct := by
  induction hv generalizing path with
  | scalar s =>
    cases h : edits path with
    | none => rw [rewrite_none h]; exact .scalar s
    | some e => rw [rewrite_some h]; exact he _ _ _ h (.scalar s)
  | @array items hitems ih =>
    cases h : edits path with
    | none =>
      rw [rewrite_none h, rewriteParts, rewriteItems_eq]
      refine .array fun w hw => ?_
      obtain ⟨k, hk, rfl⟩ := List.mem_mapIdx.mp hw
      exact ih _ (List.getElem_mem hk)
    | some e => rw [rewrite_some h]; exact he _ _ _ h (.array hitems)
  | @object members hnames hmembers ih =>
    cases h : edits path with
    | none =>
      rw [rewrite_none h, rewriteParts, rewriteMembers_eq]
      refine .object ?_ fun m hm => ?_
      · rw [List.map_map]
        exact hnames
      · obtain ⟨m, hmem, rfl⟩ := List.mem_map.mp hm
        exact ih m hmem
    | some e => rw [rewrite_some h]; exact he _ _ _ h (.object hnames hmembers)

/-- Where nothing is edited, nothing changes. -/
theorem rewrite_eq_self (h : ∀ q, edits (path ++ q) = none) (v : Json) :
    rewrite edits path v = v := by
  induction v using Json.ind generalizing path with
  | scalar s => exact rewrite_none (List.append_nil path ▸ h []) _
  | array items ih =>
    rw [rewrite_none (List.append_nil path ▸ h []), rewriteParts, rewriteItems_eq]
    refine congrArg Json.array ?_
    refine List.ext_getElem (by simp) fun k _ hk => ?_
    rw [List.getElem_mapIdx]
    exact ih _ (List.getElem_mem hk) fun q => by rw [List.append_assoc]; exact h _
  | object members ih =>
    rw [rewrite_none (List.append_nil path ▸ h []), rewriteParts, rewriteMembers_eq]
    refine congrArg Json.object ((List.map_congr_left fun m hm => ?_).trans (List.map_id _))
    rw [ih m hm fun q => by rw [List.append_assoc]; exact h _]
    rfl

/-! ## Edits one after the other -/

/-- The edits of both; where both have one, the first. -/
def Edits.both (f g : Edits) : Edits := fun p => (f p).or (g p)

/-- No path of the one edits leads through a path of the others. -/
def Edits.Apart (f g : Edits) : Prop :=
  ∀ p q, f p ≠ none → g q ≠ none → ¬ p <+: q ∧ ¬ q <+: p

theorem Edits.Apart.below_left (h : f.Apart g) (hf : f path ≠ none) (q : Path) :
    g (path ++ q) = none :=
  Classical.byContradiction fun hg => (h path _ hf hg).1 (List.prefix_append path q)

theorem Edits.Apart.below_right (h : f.Apart g) (hg : g path ≠ none) (q : Path) :
    f (path ++ q) = none :=
  Classical.byContradiction fun hf => (h _ path hf hg).2 (List.prefix_append path q)

theorem Edits.both_eq_none (p : Path) : f.both g p = none ↔ f p = none ∧ g p = none :=
  Option.or_eq_none_iff

theorem Edits.Apart.symm (h : f.Apart g) : g.Apart f := fun p q hp hq => (h q p hq hp).symm

theorem Edits.Apart.both {e : Edits} (hf : f.Apart e) (hg : g.Apart e) : (f.both g).Apart e := by
  intro p q hp hq
  by_cases hfp : f p = none
  · exact hg p q (fun hgp => hp ((both_eq_none p).mpr ⟨hfp, hgp⟩)) hq
  · exact hf p q hfp hq

theorem Edits.Sound.both (hf : f.Sound) (hg : g.Sound) : (f.both g).Sound := by
  intro p e w h hw
  rcases Option.or_eq_some_iff.mp h with h | ⟨-, h⟩
  · exact hf p e w h hw
  · exact hg p e w h hw

/-- Where one of the edits is made the others change nothing; else it is a matter of the parts. -/
theorem rewrite_rewrite_of_parts (h : f.Apart g) (v : Json)
    (hparts : rewriteParts g path (rewriteParts f path v) = rewriteParts (f.both g) path v) :
    rewrite g path (rewrite f path v) = rewrite (f.both g) path v := by
  cases hf : f path with
  | some e =>
    -- `g` leads nowhere below this path
    have hboth : f.both g path = some e := by rw [Edits.both, hf, Option.some_or]
    rw [rewrite_some hf, rewrite_some hboth]
    exact rewrite_eq_self (h.below_left (by simp [hf])) _
  | none =>
    have hboth : f.both g path = g path := by rw [Edits.both, hf, Option.none_or]
    cases hg : g path with
    | some e =>
      rw [rewrite_some (hboth.trans hg), rewrite_eq_self (h.below_right (by simp [hg])),
        rewrite_some hg]
    | none => rw [rewrite_none hf, rewrite_none hg, rewrite_none (hboth.trans hg), hparts]

/-- Edits that do not meet may be made one after the other. -/
theorem rewrite_rewrite (h : f.Apart g) (v : Json) :
    rewrite g path (rewrite f path v) = rewrite (f.both g) path v := by
  induction v using Json.ind generalizing path with
  | scalar s => exact rewrite_rewrite_of_parts h _ rfl
  | array items ih =>
    refine rewrite_rewrite_of_parts h _ ?_
    rw [rewriteParts, rewriteParts, rewriteParts, rewriteItems_eq, rewriteItems_eq,
      rewriteItems_eq, List.mapIdx_mapIdx]
    refine congrArg Json.array (List.ext_getElem (by simp) fun k _ hk => ?_)
    rw [List.getElem_mapIdx, List.getElem_mapIdx]
    exact ih _ (List.getElem_mem _)
  | object members ih =>
    refine rewrite_rewrite_of_parts h _ ?_
    rw [rewriteParts, rewriteParts, rewriteParts, rewriteMembers_eq, rewriteMembers_eq,
      rewriteMembers_eq, List.map_map]
    refine congrArg Json.object (List.map_congr_left fun m hm => ?_)
    exact Prod.ext rfl (ih m hm)

/-! ## One edit -/

/-- One edit at one path. -/
def Edits.single (p : Path) (e : Json → Json) : Edits := fun q => if q = p then some e else none

/-- No edit anywhere. -/
def Edits.nothing : Edits := fun _ => none

theorem rewrite_nothing (v : Json) : rewrite .nothing path v = v :=
  rewrite_eq_self (fun _ => rfl) v

theorem Edits.both_nothing (f : Edits) : f.both .nothing = f :=
  funext fun _ => Option.or_none

theorem Edits.nothing_sound : Edits.nothing.Sound := by
  intro p e w h
  cases h

theorem Edits.single_sound {p : Path} {e : Json → Json} (he : ∀ w, w.Distinct → (e w).Distinct) :
    (Edits.single p e).Sound := by
  intro q e' w h hw
  obtain ⟨-, h⟩ := Option.ite_none_right_eq_some.mp h
  rw [← Option.some.inj h]
  exact he w hw

theorem Edits.single_ne_none {p q : Path} {e : Json → Json} (h : Edits.single p e q ≠ none) :
    q = p :=
  Classical.byContradiction fun hne => h (if_neg hne)

theorem Edits.single_self (p : Path) (e : Json → Json) : Edits.single p e p = some e :=
  if_pos rfl

theorem Edits.single_ne {p q : Path} (e : Json → Json) (h : q ≠ p) :
    Edits.single p e q = none :=
  if_neg h

/-- An edit further down is no edit here. -/
theorem Edits.single_above (e : Json → Json) (s : Step) (p : Path) :
    Edits.single (path ++ s :: p) e path = none := by
  refine Edits.single_ne e fun h => ?_
  have := congrArg List.length h
  simp at this

/-- An edit below one part is no edit of another part. -/
theorem Edits.single_beside (e : Json → Json) {s s' : Step} (h : s' ≠ s) (p q : Path) :
    Edits.single (path ++ s :: p) e (path ++ [s'] ++ q) = none := by
  refine Edits.single_ne e fun heq => ?_
  rw [List.append_assoc, List.append_cancel_left_eq] at heq
  exact h (List.cons.inj heq).1

/-- Members that do not bear the name of the edit stay as they are. -/
theorem rewriteMembers_single_of_notMem {n : String} (e : Json → Json) {p : Path}
    {members : List (String × Json)} (h : n ∉ members.map Prod.fst) :
    rewriteMembers (.single (path ++ .name n :: p) e) path members = members := by
  rw [rewriteMembers_eq]
  refine (List.map_congr_left fun m hm => ?_).trans (List.map_id _)
  have hne : Step.name m.1 ≠ .name n := fun he =>
    h (Step.name.inj he ▸ List.mem_map_of_mem (f := Prod.fst) hm)
  rw [rewrite_eq_self fun q => Edits.single_beside e hne p q]
  rfl

/-- Putting a value in place of the first member of a name is one edit of the members. -/
theorem setMember_eq {n : String} {e : Json → Json} {p : Path} {v : Json}
    {members : List (String × Json)} (hnames : (members.map Prod.fst).Nodup)
    (h : members.lookup n = some v) :
    setMember n (rewrite (.single (path ++ .name n :: p) e) (path ++ [.name n]) v) members =
      rewriteMembers (.single (path ++ .name n :: p) e) path members := by
  induction members with
  | nil => cases h
  | cons m rest ih =>
    obtain ⟨k, w⟩ := m
    rw [List.map_cons, List.nodup_cons] at hnames
    rw [setMember, rewriteMembers, ← rewrite]
    by_cases hk : k = n
    · -- no later member bears the name, so the edit is none of theirs
      subst hk
      rw [List.lookup_cons_self] at h
      obtain rfl := Option.some.inj h
      rw [if_pos rfl, rewriteMembers_single_of_notMem e hnames.1]
    · have hne : Step.name k ≠ .name n := fun he => hk (Step.name.inj he)
      rw [List.lookup_cons, beq_false_of_ne (Ne.symm hk)] at h
      rw [if_neg hk, ih hnames.2 h, rewrite_eq_self fun q => Edits.single_beside e hne p q]

/-- Putting a value in place of an item is one edit of the items. -/
theorem set_eq {i : Nat} {e : Json → Json} {p : Path} {v : Json} {items : List Json}
    (h : items[i]? = some v) :
    items.set i (rewrite (.single (path ++ .index i :: p) e) (path ++ [.index i]) v) =
      rewriteItems (.single (path ++ .index i :: p) e) path 0 items := by
  rw [rewriteItems_eq]
  refine List.ext_getElem (by simp) fun k hk _ => ?_
  rw [List.getElem_set, List.getElem_mapIdx, Nat.zero_add]
  by_cases hik : i = k
  · subst hik
    rw [if_pos rfl, (List.getElem?_eq_some_iff.mp h).2]
  · have hne : Step.index k ≠ .index i := fun he => hik (Step.index.inj he).symm
    rw [if_neg hik, rewrite_eq_self fun q => Edits.single_beside _ hne p q]

/-- Where no name is repeated, putting a value at a path is one edit. -/
theorem set?_eq_rewrite {v w : Json} (hv : v.Distinct) {p : Path} (h : v.get? p = some w)
    (e : Json → Json) : v.set? p (e w) = some (rewrite (.single (path ++ p) e) path v) := by
  induction p generalizing v path with
  | nil =>
    obtain rfl := Option.some.inj h
    rw [set?, List.append_nil, rewrite_some (Edits.single_self _ _)]
  | cons s p ih =>
    obtain ⟨part, hpart, hget⟩ := Option.bind_eq_some_iff.mp h
    have hpath : path ++ s :: p = path ++ [s] ++ p := by simp
    cases hv with
    | scalar x => cases s <;> cases hpart
    | @array items hitems =>
      cases s with
      | name n => cases hpart
      | index i =>
        have hi : items[i]? = some part := hpart
        have hset : part.set? p (e w) =
            some (rewrite (.single (path ++ .index i :: p) e) (path ++ [.index i]) part) := by
          rw [hpath]
          exact ih (hitems _ (List.mem_of_getElem? hi)) hget
        rw [set?, hi, rewrite_none (Edits.single_above _ _ p), rewriteParts]
        show (part.set? p (e w)).bind
          (fun part => some (Json.array (items.set i part))) = _
        rw [hset, Option.bind_some, set_eq hi]
    | @object members hnames hmembers =>
      cases s with
      | index i => cases hpart
      | name n =>
        have hn : members.lookup n = some part := hpart
        have hset : part.set? p (e w) =
            some (rewrite (.single (path ++ .name n :: p) e) (path ++ [.name n]) part) := by
          rw [hpath]
          exact ih (hmembers _ (mem_of_lookup hn)) hget
        rw [set?, hn, rewrite_none (Edits.single_above _ _ p), rewriteParts]
        show (part.set? p (e w)).bind
          (fun part => some (Json.object (setMember n part members))) = _
        rw [hset, Option.bind_some, setMember_eq hnames hn]

/-- Edits reach a part at a path through which none of them leads. -/
theorem get?_rewrite {v w : Json} {p : Path} (h : v.get? p = some w)
    (habove : ∀ q s r, p = q ++ s :: r → edits (path ++ q) = none) :
    (rewrite edits path v).get? p = some (rewrite edits (path ++ p) w) := by
  induction p generalizing v path with
  | nil =>
    obtain rfl := Option.some.inj h
    rw [List.append_nil]
    rfl
  | cons s p ih =>
    obtain ⟨part, hpart, hget⟩ := Option.bind_eq_some_iff.mp h
    have hpath : path ++ s :: p = path ++ [s] ++ p := by simp
    have hnone : edits path = none := by
      rw [← List.append_nil path]
      exact habove [] s p rfl
    have hbelow : (rewrite edits (path ++ [s]) part).get? p =
        some (rewrite edits (path ++ [s] ++ p) w) := by
      refine ih hget fun q t r hq => ?_
      rw [List.append_assoc]
      exact habove (s :: q) t r (by rw [hq]; rfl)
    rw [hpath, ← hbelow, rewrite_none hnone, get?]
    cases v with
    | scalar x => cases s <;> cases hpart
    | array items =>
      cases s with
      | name n => cases hpart
      | index i =>
        have hi : items[i]? = some part := hpart
        rw [rewriteParts, child?, rewriteItems_eq, List.getElem?_mapIdx, hi, Nat.zero_add]
        rfl
    | object members =>
      cases s with
      | index i => cases hpart
      | name n =>
        have hn : members.lookup n = some part := hpart
        rw [rewriteParts, child?, lookup_rewriteMembers, hn]
        rfl

/-- Where the edits are made in a value at a path, they change nothing. -/
def Edits.Fix (edits : Edits) (path : Path) (v : Json) : Prop :=
  ∀ p w e, v.get? p = some w → edits (path ++ p) = some e → e w = w

/-- The edits below a part are those below its path. -/
theorem Edits.Fix.child {v part : Json} {s : Step} (h : edits.Fix path v)
    (hpart : v.child? s = some part) : edits.Fix (path ++ [s]) part := by
  intro p w e hw he
  rw [List.append_assoc] at he
  refine h (s :: p) w e ?_ he
  rw [get?, hpart]
  exact hw

theorem Edits.Fix.rewrite_of_parts {v : Json} (h : edits.Fix path v)
    (hparts : rewriteParts edits path v = v) : rewrite edits path v = v := by
  cases he : edits path with
  | none => rw [rewrite_none he, hparts]
  | some e =>
    rw [rewrite_some he]
    exact h [] v e rfl (by rwa [List.append_nil])

/-- Edits that change nothing where they are made change nothing at all. -/
theorem Edits.Fix.rewrite {v : Json} (hv : v.Distinct) (h : edits.Fix path v) :
    rewrite edits path v = v := by
  induction hv generalizing path with
  | scalar s => exact h.rewrite_of_parts rfl
  | @array items hitems ih =>
    refine h.rewrite_of_parts ?_
    rw [rewriteParts, rewriteItems_eq]
    refine congrArg Json.array (List.ext_getElem (by simp) fun k _ hk => ?_)
    rw [List.getElem_mapIdx, Nat.zero_add]
    exact ih _ (List.getElem_mem hk) (h.child (List.getElem?_eq_getElem hk))
  | @object members hnames hmembers ih =>
    refine h.rewrite_of_parts ?_
    rw [rewriteParts, rewriteMembers_eq]
    refine congrArg Json.object ((List.map_congr_left fun m hm => ?_).trans (List.map_id _))
    have hchild : (Json.object members).child? (.name m.1) = some m.2 := lookup_of_mem hnames hm
    rw [ih m hm (h.child hchild)]
    rfl

/-- A part apart from all edits stays where and what it is. -/
theorem get?_rewrite_of_apart {v w : Json} {p : Path} {e : Json → Json}
    (hapart : edits.Apart (.single p e)) (h : v.get? p = some w) :
    (rewrite edits [] v).get? p = some w := by
  have hp : Edits.single p e p ≠ none := by
    rw [Edits.single_self]
    exact Option.some_ne_none e
  rw [get?_rewrite h, List.nil_append, rewrite_eq_self (hapart.below_right hp)]
  rintro q s r rfl
  exact Classical.byContradiction fun hq => (hapart q _ hq hp).1 (List.prefix_append q _)

end VehiclePrivacy.Json
