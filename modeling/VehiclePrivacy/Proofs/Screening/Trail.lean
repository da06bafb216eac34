import VehiclePrivacy.Proofs.Json.Pointers
import VehiclePrivacy.Proofs.Screening.Sightings

/-!
# Keeping track of the place while reading

What is recognised depends on the path of a value, and so does the pointer that is recorded. A
reading need not look at the whole path for either: it is enough to keep the pieces of the pointer
and a count of the members around that hide what is below them, and to change both by one step
whenever a part is entered or left (`Trail`).

The count is taken down again where it was counted up, so it never has to go below zero
(`keep?_eq`), and what is kept tells the pointer and what is recognised (`pointer_of`, `at?_of`).
-/

namespace VehiclePrivacy

/-- What is kept of the place where a reading stands: the pieces of the pointer to it, the innermost
first, and how many members around it hide what is below them. -/
structure Trail where
  pieces : List (List Char)
  depth : Nat

namespace Trail

/-- Enters a part. -/
def enter (t : Trail) (s : Json.Step) : Trail :=
  ⟨s.pointerChars :: t.pieces, if Field.hides s then t.depth + 1 else t.depth⟩

/-- Leaves a part, unless there is none, or its count is used up. -/
def leave? (t : Trail) (s : Json.Step) : Option Trail :=
  match t.pieces with
  | [] => none
  | _ :: pieces =>
    if Field.hides s then
      if t.depth = 0 then none else some ⟨pieces, t.depth - 1⟩
    else some ⟨pieces, t.depth⟩

/-- Goes along when the open containers of a reader change: a part of a new one is entered, or the
part of the innermost one is left. -/
def follow? (t : Trail) (old new : List Json.Frame) : Option Trail :=
  if old.length < new.length then new.head?.map (t.enter ·.step)
  else if new.length < old.length then old.head?.bind (t.leave? ·.step)
  else some t

/-- Goes along with a reader over some tokens. -/
def keep? {σ : Type} (d : Json.Demands) (l : Json.Listener σ) (r : Json.Reader σ) (t : Trail) :
    List Json.Token → Option Trail
  | [] => some t
  | token :: rest =>
    (t.follow? r.stack (r.step d l token).stack).bind fun t => t.keep? d l (r.step d l token) rest

/-- The pointer that the pieces make. -/
def pointer (t : Trail) : String := String.ofList t.pieces.reverse.flatten

/-- What there is to keep at the innermost hole of the open containers. -/
def of (stack : List Json.Frame) : Trail :=
  ⟨stack.map (·.step.pointerChars), stack.countP (Field.hides ·.step)⟩

/-! ## In and out -/

theorem enter_of (f : Json.Frame) (stack : List Json.Frame) :
    (of stack).enter f.step = of (f :: stack) := by
  rw [of, of, enter, List.countP_cons]
  cases Field.hides f.step <;> rfl

/-- What was counted up on the way in can be counted down on the way out. -/
theorem leave?_of (f : Json.Frame) (stack : List Json.Frame) :
    (of (f :: stack)).leave? f.step = some (of stack) := by
  rw [of, of, leave?, List.map_cons, List.countP_cons]
  cases hf : Field.hides f.step with
  | true => simp
  | false => simp

/-! ## Going along with a reader -/

section Reader

open Json

variable {σ : Type} {d : Demands} {l : Listener σ}

theorem fill_stack (r : Reader σ) (v : Json) : (r.fill v).stack = r.stack.tail := by
  obtain ⟨heard, stack, phase⟩ := r
  cases stack with
  | nil => rfl
  | cons f stack => cases f <;> rfl

theorem memberName_stack (r : Reader σ) (before : List (String × Json)) (t : Token) :
    (r.memberName d before t).stack = r.stack := by
  unfold Reader.memberName
  split
  · split <;> rfl
  all_goals rfl

theorem opening_stack (r : Reader σ) (b : Bracket) : (r.opening d l b).stack = r.stack := by
  unfold Reader.opening Reader.tell
  dsimp only
  split
  · rfl
  · split
    · rfl
    · split <;> rfl

theorem scalar_stack (r : Reader σ) (v : Scalar) :
    (r.scalar d l v).stack = r.stack ∨ (r.scalar d l v).stack = r.stack.tail := by
  unfold Reader.scalar Reader.tell
  dsimp only
  split
  · exact .inl rfl
  · split
    · exact .inl rfl
    · exact .inr (fill_stack _ _)

/-- A value keeps the containers open, or it is a scalar that completes a part. -/
theorem value_stack (r : Reader σ) (t : Token) :
    (r.value d l t).stack = r.stack ∨ (r.value d l t).stack = r.stack.tail := by
  unfold Reader.value
  split
  · exact .inl (opening_stack r _)
  · split
    · exact scalar_stack r _
    · exact .inl rfl

/-- After one token the same containers are open, or one more is, or one less. -/
theorem step_stack (r : Reader σ) (t : Token) :
    (r.step d l t).stack = r.stack ∨ (∃ f, (r.step d l t).stack = f :: r.stack) ∨
      (r.step d l t).stack = r.stack.tail := by
  have hfill : ∀ v, (r.fill v).stack = r.stack ∨ (∃ f, (r.fill v).stack = f :: r.stack) ∨
      (r.fill v).stack = r.stack.tail := fun v => .inr (.inr (fill_stack r v))
  unfold Reader.step
  split
  · rcases value_stack (d := d) (l := l) r t with h | h
    · exact .inl h
    · exact .inr (.inr h)
  · split
    · exact hfill _
    · split
      · -- the first item: a part is entered, and left at once if the item is a scalar
        rcases value_stack (d := d) (l := l) { r with stack := .item 0 [] :: r.stack } t with h | h
        · exact .inr (.inl ⟨_, h⟩)
        · exact .inl h
      · split
        · exact .inr (.inl ⟨_, rfl⟩)
        · exact .inl rfl
  · split
    · exact hfill _
    · split
      · exact .inl (memberName_stack r _ t)
      · split <;> exact .inl rfl
  · exact .inl (memberName_stack r _ t)
  · split
    · exact .inr (.inl ⟨_, rfl⟩)
    · exact .inl rfl
  all_goals exact .inl rfl

/-- What is kept stays right when the open containers change by one. -/
theorem follow?_of {old new : List Frame}
    (h : new = old ∨ (∃ f, new = f :: old) ∨ new = old.tail) :
    (of old).follow? old new = some (of new) := by
  have hstay : (of old).follow? old old = some (of old) := by
    rw [follow?, if_neg (by omega), if_neg (by omega)]
  rcases h with rfl | ⟨f, rfl⟩ | rfl
  · exact hstay
  · rw [follow?, if_pos (by simp), List.head?_cons, Option.map_some, enter_of]
  · cases old with
    | nil => exact hstay
    | cons f old =>
      rw [follow?, if_neg (by simp), if_pos (by simp), List.head?_cons, Option.bind_some,
        leave?_of]
      rfl

/--
**The place can be kept up step by step.** Whatever is read, and wherever the reading breaks off, no
step fails for want of a part to leave or of a count to take down; and what is kept is what there is
to keep of the open containers.
-/
theorem keep?_eq (r : Reader σ) (ts : List Token) :
    (of r.stack).keep? d l r ts = some (of (r.run d l ts).stack) := by
  induction ts generalizing r with
  | nil => rfl
  | cons t ts ih =>
    rw [keep?, follow?_of (step_stack r t), Option.bind_some, ih]
    rfl

end Reader

/-! ## What the trail tells -/

/-- The pieces make the pointer of the place. -/
theorem pointer_of (stack : List Json.Frame) :
    (of stack).pointer = (Json.Reader.pathOf stack).pointer := by
  rw [pointer, of, Json.Path.pointer, Json.Reader.pathOf, List.flatMap, ← List.map_reverse,
    ← List.map_reverse, List.map_map]
  rfl

/-- Nothing is recognised where something hides it, and elsewhere a member by its name. -/
theorem at?_of (stack : List Json.Frame) (n : String) :
    Field.at? (Json.Reader.pathOf stack ++ [.name n]) =
      if (of stack).depth = 0 then Field.named? n else none := by
  have hdepth : (of stack).depth = 0 ↔ (Json.Reader.pathOf stack).any Field.hides = false := by
    rw [of, List.countP_eq_zero, Json.Reader.pathOf, List.any_reverse, List.any_map,
      List.any_eq_false]
    rfl
  by_cases hpath : (Json.Reader.pathOf stack).any Field.hides = true
  · rw [Field.at?_hidden hpath, if_neg]
    intro hzero
    rw [hdepth.mp hzero] at hpath
    cases hpath
  · rw [Bool.not_eq_true] at hpath
    rw [Field.at?_name hpath, if_pos (hdepth.mpr hpath)]

end Trail

end VehiclePrivacy
