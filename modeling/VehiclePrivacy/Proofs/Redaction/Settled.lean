import VehiclePrivacy.Proofs.Redaction.Rules

/-!
# The recognised members of a redacted message

The edits of the rules change the values of recognised members, and no more: the redacted message
has the same recognised members in the same places (`Rules.sightings_redacted`). Where a field was
settled, the message is edited by the rule for that field alone (`Rules.edits_first`), and nothing
is done below (`Rules.edits_below`).
-/

namespace VehiclePrivacy

/-! ## The recognised members of an edited value -/

/-- A recognised member, its value edited. -/
def Sighting.edited (edits : Json.Edits) (x : Sighting) : Sighting :=
  { x with value := Json.rewrite edits x.place x.value }

variable {edits : Json.Edits} {path : Json.Path}

/-- An edit at a path keeps what is recognised there if it puts a scalar in place of a scalar. -/
def Json.Edits.KeepsShape (edits : Json.Edits) (path : Json.Path) (v : Json) : Prop :=
  ∀ e, edits path = some e → (∃ s, v = .scalar s) ∧ ∃ s, e v = .scalar s

/-- The edits below a path keep what is recognised there. -/
def Json.Edits.KeepShapes (edits : Json.Edits) (path : Json.Path) (v : Json) : Prop :=
  ∀ step rest w, v.get? (step :: rest) = some w →
    (path ++ step :: rest).any Field.hides = false → edits.KeepsShape (path ++ step :: rest) w

theorem sightingsInItems_rewrite {items : List Json} {i : Nat}
    (h : ∀ k v, items[k]? = some v →
      sightings (path ++ [.index (i + k)]) (Json.rewrite edits (path ++ [.index (i + k)]) v) =
        (sightings (path ++ [.index (i + k)]) v).map (Sighting.edited edits)) :
    sightingsInItems path i (Json.rewriteItems edits path i items) =
      (sightingsInItems path i items).map (Sighting.edited edits) := by
  induction items generalizing i with
  | nil => rfl
  | cons v rest ih =>
    have hrest := ih (i := i + 1) fun k w hk => by
      rw [show i + 1 + k = i + (k + 1) by omega]
      exact h (k + 1) w hk
    have hfirst := h 0 v rfl
    rw [Nat.add_zero] at hfirst
    rw [Json.rewriteItems, ← Json.rewrite, sightingsInItems, sightingsInItems, List.map_append,
      hrest, hfirst]

theorem sightingsInMembers_rewrite {members : List (String × Json)}
    (h : ∀ n v, (n, v) ∈ members → Field.isOpaque n = false →
      sightings (path ++ [.name n]) (Json.rewrite edits (path ++ [.name n]) v) =
        (sightings (path ++ [.name n]) v).map (Sighting.edited edits)) :
    sightingsInMembers path (Json.rewriteMembers edits path members) =
      (sightingsInMembers path members).map (Sighting.edited edits) := by
  induction members with
  | nil => rfl
  | cons m rest ih =>
    obtain ⟨n, v⟩ := m
    have hrest := ih fun k w hk => h k w (List.mem_cons_of_mem _ hk)
    rw [Json.rewriteMembers, ← Json.rewrite, sightingsInMembers, sightingsInMembers,
      List.map_append, List.map_append, hrest, List.map_map]
    cases hn : Field.isOpaque n with
    | true => rfl
    | false =>
      rw [if_neg Bool.false_ne_true, if_neg Bool.false_ne_true, h n v List.mem_cons_self hn]
      rfl

theorem sightings_rewrite_part {v : Json} (hshape : edits.KeepsShape path v)
    (hparts : sightings path (Json.rewriteParts edits path v) =
      (sightings path v).map (Sighting.edited edits)) :
    sightings path (Json.rewrite edits path v) =
      (sightings path v).map (Sighting.edited edits) := by
  cases he : edits path with
  | none => rw [Json.rewrite_none he, hparts]
  | some e =>
    obtain ⟨⟨s, rfl⟩, s', hs'⟩ := hshape e he
    rw [Json.rewrite_some he, hs']
    rfl

/-- Edits that keep shapes keep the recognised members, each with its value edited. -/
theorem sightings_rewriteParts {v : Json} (hv : v.Distinct)
    (hpath : path.any Field.hides = false) (h : edits.KeepShapes path v) :
    sightings path (Json.rewriteParts edits path v) =
      (sightings path v).map (Sighting.edited edits) := by
  induction hv generalizing path with
  | scalar s => rfl
  | @array items hitems ih =>
    rw [Json.rewriteParts, sightings, sightings]
    refine sightingsInItems_rewrite fun k v hk => ?_
    rw [Nat.zero_add]
    have hstep : (path ++ [Json.Step.index k]).any Field.hides = false := by
      simp [hpath, Field.hides]
    have hget : ∀ rest, (Json.array items).get? (.index k :: rest) = v.get? rest := by
      intro rest
      rw [Json.get?, Json.child?, hk]
      rfl
    refine sightings_rewrite_part (h (.index k) [] v (hget []) hstep) ?_
    refine ih v (List.mem_of_getElem? hk) hstep fun step rest w hw hopen => ?_
    rw [List.append_assoc] at hopen ⊢
    exact h (.index k) (step :: rest) w ((hget _).trans hw) hopen
  | @object members hnames hmembers ih =>
    rw [Json.rewriteParts, sightings, sightings]
    refine sightingsInMembers_rewrite fun n v hmem hn => ?_
    have hstep : (path ++ [Json.Step.name n]).any Field.hides = false := by
      simp [hpath, Field.hides, hn]
    have hget : ∀ rest, (Json.object members).get? (.name n :: rest) = v.get? rest := by
      intro rest
      rw [Json.get?, Json.child?, Json.lookup_of_mem hnames hmem]
      rfl
    refine sightings_rewrite_part (h (.name n) [] v (hget []) hstep) ?_
    refine ih (n, v) hmem hstep fun step rest w hw hopen => ?_
    rw [List.append_assoc] at hopen ⊢
    exact h (.name n) (step :: rest) w ((hget _).trans hw) hopen

/-! ## The edits of the rules -/

namespace Rules

variable {r : Rules} {a : Activation} {pseudonym : String} {xs : List Sighting} {tree : Json}
  {field : Field} {x : Sighting} {e : Json → Json}

/-- The edits of the rules keep what is recognised in a message. -/
theorem edits_keepShapes (ht : Screened tree) :
    (r.edits a pseudonym (sightings [] tree)).KeepShapes [] tree := by
  intro step rest w hw hopen e he
  obtain ⟨field, x, hx, hplace, hedit⟩ := member_of_edits he
  have hat := at?_of_mem_sightings rfl (mem_of_first? hx)
  have hopen' : x.place.any Field.hides = false := by rw [hplace]; exact hopen
  -- the path lies open, and part II would hide it
  have hpartII : x.field ≠ .partII := by
    intro hfield
    rw [hfield] at hat
    rw [hides_of_partII hat] at hopen'
    cases hopen'
  obtain ⟨step', rest', hplace', hget⟩ := get?_of_mem_sightings ht.distinct (mem_of_first? hx)
  rw [hplace'] at hplace
  rw [List.nil_append, List.nil_append] at hplace
  rw [hplace, hw] at hget
  obtain rfl := Option.some.inj hget
  exact ⟨(Sighting.scalar_of_fits (ht.fits _ x hx)).resolve_left hpartII,
    ((edit?_cases hedit).resolve_left fun h => hpartII h.1).imp fun _ hs => hs _⟩

/-- Recognised members stand below the root, so a message is not edited as a whole. -/
theorem edits_root (ht : Screened tree) : r.edits a pseudonym (sightings [] tree) [] = none := by
  cases he : r.edits a pseudonym (sightings [] tree) [] with
  | none => rfl
  | some e =>
    obtain ⟨field, x, hx, hplace, -⟩ := member_of_edits he
    obtain ⟨step, rest, hplace', -⟩ := get?_of_mem_sightings ht.distinct (mem_of_first? hx)
    rw [hplace'] at hplace
    cases hplace

/-- The recognised members of a redacted message. -/
theorem sightings_redacted (ht : Screened tree) :
    sightings [] (Json.rewrite (r.edits a pseudonym (sightings [] tree)) [] tree) =
      (sightings [] tree).map (Sighting.edited (r.edits a pseudonym (sightings [] tree))) := by
  rw [Json.rewrite_none (edits_root ht)]
  exact sightings_rewriteParts ht.distinct rfl (edits_keepShapes ht)

/-! ## Members that settled their fields -/

theorem edit?_partII (hx : x.field = .partII) (ha : a.partIIRedaction = true) :
    r.edit? a pseudonym x = some (Json.without r.partII.names) := by
  rw [edit?, hx, ha]
  rfl

theorem edits_of_editsOf {p : Json.Path} (h : r.edits a pseudonym xs p = none)
    (hfield : field = .id ∨ field = .width ∨ field = .length ∨ field = .partII) :
    r.editsOf a pseudonym xs field p = none := by
  rw [edits, Json.Edits.both_eq_none, scalarEdits, Json.Edits.both_eq_none,
    Json.Edits.both_eq_none] at h
  obtain ⟨⟨⟨hid, hwidth⟩, hlength⟩, hpartII⟩ := h
  rcases hfield with rfl | rfl | rfl | rfl <;> assumption

/-- An edit at or below a member that settled its field is what the rules make of that member. -/
theorem edit?_of_edits (ht : Screened tree) (hx : first? field (sightings [] tree) = some x)
    {q : Json.Path} (h : r.edits a pseudonym (sightings [] tree) (x.place ++ q) = some e) :
    q = [] ∧ r.edit? a pseudonym x = some e := by
  obtain ⟨field', y, hy, hplace, he⟩ := member_of_edits h
  have hxy : x = y := eq_of_first? ht hx (mem_of_first? hy) ⟨q, hplace.symm⟩
  rw [← hxy] at hplace he
  exact ⟨List.self_eq_append_right.mp hplace, he⟩

/-- Nothing is done below a member that settled its field. -/
theorem edits_below (ht : Screened tree) (hx : first? field (sightings [] tree) = some x)
    {q : Json.Path} (hq : q ≠ []) :
    r.edits a pseudonym (sightings [] tree) (x.place ++ q) = none := by
  cases he : r.edits a pseudonym (sightings [] tree) (x.place ++ q) with
  | none => rfl
  | some e => exact absurd (edit?_of_edits ht hx he).1 hq

/-- What is done where a field was settled is what the rules make of the member that settled it. -/
theorem edits_first (ht : Screened tree) (hx : first? field (sightings [] tree) = some x) :
    r.edits a pseudonym (sightings [] tree) x.place = r.edit? a pseudonym x := by
  cases hedits : r.edits a pseudonym (sightings [] tree) x.place with
  | some e => exact (edit?_of_edits ht hx (q := []) (by rwa [List.append_nil])).2.symm
  | none =>
    cases he : r.edit? a pseudonym x with
    | none => rfl
    | some e =>
      have hfield : field = .id ∨ field = .width ∨ field = .length ∨ field = .partII := by
        rw [← field_of_first? hx]
        cases hfield : x.field with
        | latitude | longitude | speed =>
          rw [edit?, hfield] at he
          cases he
        | id | width | length | partII => simp
      have hnone := edits_of_editsOf hedits hfield
      rw [editsOf_some hx he, Json.Edits.single_self] at hnone
      cases hnone

end Rules

end VehiclePrivacy
