import VehiclePrivacy.Proofs.Json.Floats
import VehiclePrivacy.Proofs.Json.Structure
import VehiclePrivacy.Proofs.Text.Trimming

/-!
# Pointers lead back to their places

A path written as a pointer and looked up again leads to the part that the path leads to, and by the
same steps (`place?_pointer`). It does not matter which names are on the way: slashes and tildes are
escaped, so a pointer is cut where its steps meet and nowhere else, and an index is read back from
its digits. A name may still look like an index, but whether a piece is a name or an index is
decided by the container it leads into.
-/

namespace VehiclePrivacy.Json

/-! ## Where a pointer leads -/

/-- The step that a piece of a pointer takes from a value. -/
def stepAt? (v : Json) (piece : List Char) : Option Step :=
  match v with
  | .object _ => some (.name (String.ofList piece))
  | .array _ => (readIndex? piece).map .index
  | .scalar _ => none

/-- The path that the pieces of a pointer take, if they lead to a part. -/
def trace? (v : Json) : List (List Char) → Option Path
  | [] => some []
  | piece :: rest =>
    (v.stepAt? (unescapeName piece)).bind fun step =>
      (v.child? step).bind fun part => (part.trace? rest).map (step :: ·)

/-- The place that a pointer leads to, if it leads to a part. -/
def place? (v : Json) (pointer : String) : Option Path :=
  match Text.cut '/' pointer.toList with
  | [[]] => some []
  | [] :: pieces => v.trace? pieces
  | _ => none

theorem childAt?_eq (v : Json) (piece : List Char) :
    v.childAt? piece = (v.stepAt? piece).bind v.child? := by
  cases v with
  | scalar s => rfl
  | object members => rfl
  | array items =>
    show (readIndex? piece).bind (items[·]?) = ((readIndex? piece).map Step.index).bind _
    cases readIndex? piece <;> rfl

theorem foldlM_childAt? (v : Json) (pieces : List (List Char)) :
    pieces.foldlM (fun part piece => part.childAt? (unescapeName piece)) v =
      (v.trace? pieces).bind v.get? := by
  induction pieces generalizing v with
  | nil => rfl
  | cons piece rest ih =>
    rw [List.foldlM_cons, childAt?_eq, trace?]
    cases v.stepAt? (unescapeName piece) with
    | none => rfl
    | some step =>
      rw [Option.bind_some, Option.bind_some]
      cases hpart : v.child? step with
      | none => rfl
      | some part =>
        rw [Option.bind_some]
        refine (ih part).trans ?_
        cases part.trace? rest with
        | none => rfl
        | some path =>
          rw [Option.map_some, Option.bind_some, Option.bind_some, get?, hpart]
          rfl

/-- What a pointer resolves to is what stands at the place it leads to. -/
theorem resolve?_eq (v : Json) (pointer : String) :
    v.resolve? pointer = (v.place? pointer).bind v.get? := by
  rw [resolve?, place?]
  cases Text.cut '/' pointer.toList with
  | nil => rfl
  | cons first pieces =>
    cases first with
    | cons c first => rfl
    | nil =>
      cases pieces with
      | nil => rfl
      | cons piece pieces => exact foldlM_childAt? v _

/-! ## Names and indices -/

theorem replaceMark_cons {digit meant c : Char} (h : c ≠ '~') (rest : List Char) :
    replaceMark digit meant (c :: rest) = c :: replaceMark digit meant rest := by
  rw [replaceMark]
  intro c' rest' heq
  exact absurd heq h

theorem replaceMark_eq_self {digit meant : Char} {s : List Char} (h : '~' ∉ s) :
    replaceMark digit meant s = s := by
  induction s with
  | nil => rfl
  | cons c s ih =>
    have hc : c ≠ '~' := fun heq => h (heq ▸ List.mem_cons_self)
    rw [replaceMark_cons hc, ih fun hs => h (List.mem_cons_of_mem _ hs)]

/-- A name with its tildes escaped, but not its slashes. -/
def escapeTildes (n : List Char) : List Char :=
  n.flatMap fun c => if c = '~' then ['~', '0'] else [c]

/-- First the slashes are put back. -/
theorem replaceMark_escapeName (n : List Char) :
    replaceMark '1' '/' (escapeName n) = escapeTildes n := by
  induction n with
  | nil => rfl
  | cons c n ih =>
    rw [escapeName, escapeTildes, List.flatMap_cons, List.flatMap_cons, ← escapeName,
      ← escapeTildes, ← ih]
    by_cases htilde : c = '~'
    · subst htilde
      have hzero : ('0' : Char) ≠ '1' := by decide
      show replaceMark '1' '/' ('~' :: '0' :: escapeName n) = _
      rw [replaceMark, if_neg hzero, replaceMark_cons (by decide)]
      rfl
    · by_cases hslash : c = '/'
      · subst hslash
        show replaceMark '1' '/' ('~' :: '1' :: escapeName n) = _
        rw [replaceMark, if_pos rfl]
        rfl
      · rw [if_neg htilde, if_neg hslash, if_neg htilde]
        exact replaceMark_cons htilde _

/-- Then the tildes. -/
theorem replaceMark_escapeTildes (n : List Char) : replaceMark '0' '~' (escapeTildes n) = n := by
  induction n with
  | nil => rfl
  | cons c n ih =>
    rw [escapeTildes, List.flatMap_cons, ← escapeTildes]
    by_cases htilde : c = '~'
    · subst htilde
      show replaceMark '0' '~' ('~' :: '0' :: escapeTildes n) = _
      rw [replaceMark, if_pos rfl, ih]
    · rw [if_neg htilde, List.singleton_append, replaceMark_cons htilde, ih]

/-- **A name is read back from its escaped form**, whatever its characters. -/
theorem unescapeName_escapeName (n : List Char) : unescapeName (escapeName n) = n := by
  rw [unescapeName, replaceMark_escapeName, replaceMark_escapeTildes]

theorem isDigit_toDigits {i : Nat} {c : Char} (hc : c ∈ Nat.toDigits 10 i) : c.isDigit = true :=
  Nat.isDigit_of_mem_toDigits (by decide) (by decide) hc

/-- **An index is read back from its digits**, which have no leading zero. -/
theorem readIndex?_toDigits (i : Nat) : readIndex? (Nat.toDigits 10 i) = some i := by
  have hempty : (Nat.toDigits 10 i).isEmpty = false := by
    rw [List.isEmpty_eq_false_iff]
    exact Nat.toDigits_ne_nil
  have hall : (Nat.toDigits 10 i).all Char.isDigit = true :=
    List.all_eq_true.mpr fun c hc => isDigit_toDigits hc
  have hzero : ((Nat.toDigits 10 i).head? == some '0' && (Nat.toDigits 10 i).length != 1) =
      false := by
    by_cases hi : i = 0
    · subst hi
      rfl
    · obtain ⟨c, ds, hcons⟩ := List.exists_cons_of_ne_nil (Nat.toDigits_ne_nil (n := i) (b := 10))
      have hc : c ≠ '0' := toDigits_head (by omega) c ds hcons
      rw [hcons]
      simp [hc]
  rw [readIndex?, hempty, hall, hzero]
  exact congrArg some Nat.ofDigitChars_ten_toDigits

/-! ## Pointers in pieces -/

/-- A step as a piece of a pointer. -/
def Step.piece : Step → List Char
  | .name n => escapeName n.toList
  | .index i => Nat.toDigits 10 i

theorem pointerChars_eq (s : Step) : s.pointerChars = '/' :: s.piece := by
  cases s <;> rfl

theorem slash_notMem_escapeName (n : List Char) : '/' ∉ escapeName n := by
  intro h
  obtain ⟨c, -, hc⟩ := List.mem_flatMap.mp h
  split_ifs at hc with htilde hslash
  · simp at hc
  · simp at hc
  · exact hslash (List.mem_singleton.mp hc).symm

theorem slash_notMem_piece (s : Step) : '/' ∉ s.piece := by
  cases s with
  | name n => exact slash_notMem_escapeName _
  | index i =>
    intro h
    exact absurd (isDigit_toDigits h) (by decide)

/-- **A pointer is cut into the pieces of its steps.** -/
theorem cut_pointer (p : Path) :
    Text.cut '/' p.pointer.toList = [] :: p.map Step.piece := by
  rw [Path.pointer, String.toList_ofList]
  induction p with
  | nil => rfl
  | cons s p ih =>
    rw [List.flatMap_cons, pointerChars_eq, List.cons_append, Text.cut_cons_sep,
      Text.cut_append (slash_notMem_piece s) ih, List.append_nil, List.map_cons]

/-! ## There and back -/

/-- From the container that a step leads into, its piece takes that step again. -/
theorem stepAt?_piece {v w : Json} {s : Step} (h : v.child? s = some w) :
    v.stepAt? (unescapeName s.piece) = some s := by
  cases v with
  | scalar x => cases s <;> cases h
  | object members =>
    cases s with
    | index i => cases h
    | name n =>
      rw [Step.piece, unescapeName_escapeName, stepAt?, String.ofList_toList]
  | array items =>
    cases s with
    | name n => cases h
    | index i =>
      have htilde : '~' ∉ Nat.toDigits 10 i := fun hmem =>
        absurd (isDigit_toDigits hmem) (by decide)
      rw [Step.piece, unescapeName, replaceMark_eq_self htilde, replaceMark_eq_self htilde, stepAt?,
        readIndex?_toDigits]
      rfl

theorem trace?_pieces {v w : Json} {p : Path} (h : v.get? p = some w) :
    v.trace? (p.map Step.piece) = some p := by
  induction p generalizing v with
  | nil => rfl
  | cons s p ih =>
    obtain ⟨part, hpart, hget⟩ := Option.bind_eq_some_iff.mp h
    rw [List.map_cons, trace?, stepAt?_piece hpart, Option.bind_some, hpart, Option.bind_some,
      ih hget]
    rfl

/-- **The pointer of a place leads to that place**, step by step. -/
theorem place?_pointer {v w : Json} {p : Path} (h : v.get? p = some w) :
    v.place? p.pointer = some p := by
  rw [place?, cut_pointer]
  cases p with
  | nil => rfl
  | cons s p => exact trace?_pieces h

/-- So it resolves to what stands there. -/
theorem resolve?_pointer {v w : Json} {p : Path} (h : v.get? p = some w) :
    v.resolve? p.pointer = some w := by
  rw [resolve?_eq, place?_pointer h, Option.bind_some, h]

example :
    let v : Json := .object [("", .object [("a/b~1", .array [.null, .object [("0", .null)]])])]
    v.place? "//a~1b~01/1/0" = some [.name "", .name "a/b~1", .index 1, .name "0"] ∧
      v.place? "//a~1b~01/01/0" = none := by
  decide

end VehiclePrivacy.Json
