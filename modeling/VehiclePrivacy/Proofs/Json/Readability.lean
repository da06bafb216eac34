import VehiclePrivacy.Proofs.Json.Edits
import VehiclePrivacy.Proofs.Json.Printing
import VehiclePrivacy.Proofs.Json.Rereading
import VehiclePrivacy.Proofs.Json.Stripping

/-!
# Values that stay readable

A readable value stays so when members are taken out of it, and when parts of it are edited by
functions that keep values readable. Written as text it is on one line, and if its floats are read
back from what is written for them, the text is read as the value itself (`read_render_self`).
-/

namespace VehiclePrivacy.Json

variable {room : ℕ} {v : Json} {s : Scalar} {edits : Edits} {path : Path}

theorem Readable.distinct (h : Readable room v) : v.Distinct := by
  induction h with
  | scalar _ => exact .scalar _
  | array _ ih => exact .array ih
  | object hnames _ ih => exact .object hnames ih

/-- A value stays readable when members are taken out of it. -/
theorem Readable.without (h : Readable room v) (names : List String) :
    Readable room (v.without names) := by
  induction h with
  | scalar hs => exact .scalar hs
  | array _ ih =>
    rw [Json.without, itemsWithout_eq]
    refine .array fun w hw => ?_
    obtain ⟨u, hu, rfl⟩ := List.mem_map.mp hw
    exact ih u hu
  | object hnames _ ih =>
    refine .object ((names_membersWithout names _).nodup hnames) fun m hm => ?_
    obtain ⟨-, u, hu, heq⟩ := mem_membersWithout.mp hm
    rw [heq]
    exact ih _ hu

/-- Edits that put no value in place that is less readable than what stood there. -/
def Edits.KeepReadable (edits : Edits) : Prop :=
  ∀ p e, edits p = some e → ∀ room w, Readable room w → Readable room (e w)

/-- A value stays readable if what is put in place in it is readable. -/
theorem Readable.rewrite (h : Readable room v) (hedits : edits.KeepReadable) :
    Readable room (Json.rewrite edits path v) := by
  induction h generalizing path with
  | scalar hs =>
    cases he : edits path with
    | none => rw [rewrite_none he]; exact .scalar hs
    | some e => rw [rewrite_some he]; exact hedits _ e he _ _ (.scalar hs)
  | @array _ items hitems ih =>
    cases he : edits path with
    | none =>
      rw [rewrite_none he, rewriteParts, rewriteItems_eq]
      refine .array fun w hw => ?_
      obtain ⟨k, hk, rfl⟩ := List.mem_mapIdx.mp hw
      exact ih _ (List.getElem_mem hk)
    | some e => rw [rewrite_some he]; exact hedits _ e he _ _ (.array hitems)
  | @object _ members hnames hmembers ih =>
    cases he : edits path with
    | none =>
      rw [rewrite_none he, rewriteParts, rewriteMembers_eq]
      refine .object ?_ fun m hm => ?_
      · rw [List.map_map]
        exact hnames
      · obtain ⟨m, hmem, rfl⟩ := List.mem_map.mp hm
        exact ih m hmem
    | some e => rw [rewrite_some he]; exact hedits _ e he _ _ (.object hnames hmembers)

/-! ## Floats that are read back -/

/-- The scalar is no float, or one that is read back from what is written for it. -/
def ReadsBack (s : Scalar) : Prop :=
  ∀ x, s = .number (.real x) →
    numberValue? (Decimal.Notation.json.chars x) = some (.real x)

theorem rereadScalar_readsBack (h : ReadsBack s) : rereadScalar s = s := by
  unfold rereadScalar
  split
  · rename_i x
    cases hb : Decimal.Binary.ofFloat? x with
    | none => rw [reread, hb]
    | some b =>
      obtain ⟨-, hq⟩ := Binary64.ofFloat?_number hb
      obtain ⟨-, -, -, hvalue⟩ := numberValue?_chars ⟨_, hq⟩
      rw [h x rfl] at hvalue
      rw [← Number.real.inj (Option.some.inj hvalue)]
  · rfl

/-- **A readable object is read as itself** from its text, if its floats are read back. -/
theorem read_render_self {members : List (String × Json)}
    (h : Readable Reader.maxDepth (.object members)) (hback : Every ReadsBack (.object members)) :
    Json.read ⟨true, true⟩ .idle () (Json.object members).render =
      ((), .value (.object members)) := by
  have hdocument := document_render h
  rw [rereadTree_eq_self _ (hback.imp fun _ => rereadScalar_readsBack)] at hdocument
  exact (read_iff rfl rfl).mpr hdocument

end VehiclePrivacy.Json
