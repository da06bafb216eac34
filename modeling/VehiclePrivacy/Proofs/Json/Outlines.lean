import VehiclePrivacy.Proofs.Json.Structure
import VehiclePrivacy.Json.Reader

/-!
# The outline of a value

The outline of a value has its containers, names, words and nulls, but not what its numbers and
strings say. Where a reader goes depends on the outline of what it has read so far, and on nothing
else (`run_congr`). So two texts that differ in one scalar are read to the same end, if the
listener makes the same of the two scalars (`read_replaced`).
-/

namespace VehiclePrivacy.Json

/-! ## Outlines -/

/-- A scalar without what it says, if it is a number or a string. -/
def outlineScalar : Scalar → Scalar
  | .null => .null
  | .bool b => .bool b
  | .number _ | .string _ => .string ""

mutual

/-- A value without what its numbers and strings say. -/
def outline : Json → Json
  | .scalar s => .scalar (outlineScalar s)
  | .array items => .array (outlineItems items)
  | .object members => .object (outlineMembers members)

/-- Items without what their numbers and strings say. -/
def outlineItems : List Json → List Json
  | [] => []
  | v :: rest => v.outline :: outlineItems rest

/-- Members without what their numbers and strings say; their names stay. -/
def outlineMembers : List (String × Json) → List (String × Json)
  | [] => []
  | (n, v) :: rest => (n, v.outline) :: outlineMembers rest

end

/-- A member with the outline of its value. -/
def outlineMember (m : String × Json) : String × Json := (m.1, m.2.outline)

theorem outlineItems_eq (items : List Json) : outlineItems items = items.map outline := by
  induction items with
  | nil => rfl
  | cons v rest ih => rw [outlineItems, ih, List.map_cons]

theorem outlineMembers_eq (members : List (String × Json)) :
    outlineMembers members = members.map outlineMember := by
  induction members with
  | nil => rfl
  | cons m rest ih => rw [outlineMembers, ih, List.map_cons, outlineMember]

@[simp] theorem outline_array (items : List Json) :
    (Json.array items).outline = .array (items.map outline) := by
  rw [outline, outlineItems_eq]

@[simp] theorem outline_object (members : List (String × Json)) :
    (Json.object members).outline = .object (members.map outlineMember) := by
  rw [outline, outlineMembers_eq]

/-- An outline has nothing left to leave out. -/
@[simp] theorem outline_outline (v : Json) : v.outline.outline = v.outline := by
  induction v using Json.ind with
  | scalar s => cases s <;> rfl
  | array items ih =>
    rw [outline_array, outline_array, List.map_map]
    exact congrArg Json.array (List.map_congr_left ih)
  | object members ih =>
    rw [outline_object, outline_object, List.map_map]
    exact congrArg Json.object (List.map_congr_left fun m hm => Prod.ext rfl (ih m hm))

@[simp] theorem outlineMember_outlineMember (m : String × Json) :
    outlineMember (outlineMember m) = outlineMember m :=
  Prod.ext rfl (outline_outline m.2)

theorem setMember_outline (n : String) (v : Json) (members : List (String × Json)) :
    (setMember n v members).map outlineMember =
      setMember n v.outline (members.map outlineMember) := by
  induction members with
  | nil => rfl
  | cons m rest ih =>
    obtain ⟨k, w⟩ := m
    rw [setMember, List.map_cons, outlineMember, setMember]
    split
    · rfl
    · rw [List.map_cons, ih, outlineMember]

/-! ## Outlines of readers -/

/-- An open container with the outlines of its parts. -/
def Frame.outline : Frame → Frame
  | .item i before => .item i (before.map Json.outline)
  | .member before n => .member (before.map outlineMember) n

/-- What comes next, with the outlines of what was read. -/
def Phase.outline : Phase → Phase
  | .items count before => .items count (before.map Json.outline)
  | .members before => .members (before.map outlineMember)
  | .name before => .name (before.map outlineMember)
  | .colon before n => .colon (before.map outlineMember) n
  | .done v => .done v.outline
  | .value => .value
  | .failed f => .failed f
  | .stopped => .stopped

/-- The end of a reading, with the outline of what was read. -/
def Outcome.outline : Outcome → Outcome
  | .value v => .value v.outline
  | .fault f => .fault f
  | .stopped => .stopped

theorem Phase.outcome_outline (p : Phase) : p.outline.outcome = p.outcome.outline := by
  cases p <;> rfl

namespace Reader

variable {σ : Type} {d : Demands} {l : Listener σ} {r r' : Reader σ}

/-- A reader with the outlines of what it has read. -/
def outline (r : Reader σ) : Reader σ := ⟨r.listening, r.stack.map Frame.outline, r.phase.outline⟩

@[simp] theorem outline_path (r : Reader σ) : r.outline.path = r.path := by
  have hstep : Frame.step ∘ Frame.outline = Frame.step := by
    funext f
    cases f <;> rfl
  show ((r.stack.map Frame.outline).map Frame.step).reverse = _
  rw [List.map_map, hstep]
  rfl

@[simp] theorem outline_outline (r : Reader σ) : r.outline.outline = r.outline := by
  have hframe : Frame.outline ∘ Frame.outline = Frame.outline := by
    funext f
    cases f <;> simp [Frame.outline]
  have hphase : r.phase.outline.outline = r.phase.outline := by
    cases r.phase <;> simp [Phase.outline]
  rw [outline, outline, List.map_map, hframe, hphase]

theorem putMember_outline (n : String) (v : Json) (before : List (String × Json)) :
    (putMember n v before).map outlineMember = putMember n v.outline (before.map outlineMember) := by
  have hany : (before.map outlineMember).any (·.1 == n) = before.any (·.1 == n) := List.any_map
  rw [putMember, putMember, hany]
  split
  · exact setMember_outline n v before
  · rfl

theorem fill_outline (r : Reader σ) (v : Json) : (r.fill v).outline = r.outline.fill v.outline := by
  obtain ⟨s, stack, phase⟩ := r
  cases stack with
  | nil => rfl
  | cons f stack =>
    cases f with
    | item i before => rfl
    | member before n =>
      show outline ⟨s, stack, .members (putMember n v before)⟩ = _
      rw [outline, Phase.outline, putMember_outline]
      rfl

theorem outline_eq_iff : r.outline = r'.outline ↔
    r.listening = r'.listening ∧ r.stack.map Frame.outline = r'.stack.map Frame.outline ∧
      r.phase.outline = r'.phase.outline := by
  rw [outline, outline, Reader.mk.injEq]

/-- Two readers with one outline have one outline after the same value. -/
theorem fill_congr (h : r.outline = r'.outline) {v w : Json} (hv : v.outline = w.outline) :
    (r.fill v).outline = (r'.fill w).outline := by
  rw [fill_outline, fill_outline, h, hv]

theorem enter_congr (h : r.outline = r'.outline) {p q : Phase} (hp : p.outline = q.outline) :
    (r.enter p).outline = (r'.enter q).outline := by
  obtain ⟨hlistening, hstack, -⟩ := outline_eq_iff.mp h
  exact outline_eq_iff.mpr ⟨hlistening, hstack, hp⟩

theorem tell_congr (h : r.outline = r'.outline) {x x' : Head} {next next' : Reader σ → Reader σ}
    (hx : l.hear r.listening r.path x = l.hear r.listening r.path x')
    (hnext : ∀ r r' : Reader σ, r.outline = r'.outline → (next r).outline = (next' r').outline) :
    (r.tell l x next).outline = (r'.tell l x' next').outline := by
  obtain ⟨hlistening, hstack, hphase⟩ := outline_eq_iff.mp h
  have hpath : r.path = r'.path := by rw [← outline_path r, h, outline_path]
  have hheard : l.hear r.listening r.path x = l.hear r'.listening r'.path x' := by
    rw [hx, hlistening, hpath]
  have htold : outline { r with listening := l.hear r.listening r.path x } =
      outline { r' with listening := l.hear r'.listening r'.path x' } :=
    outline_eq_iff.mpr ⟨hheard, hstack, hphase⟩
  rw [tell, tell]
  dsimp only
  rw [hheard] at htold ⊢
  split
  · exact enter_congr htold rfl
  · exact hnext _ _ htold

theorem isEmpty_congr (h : r.outline = r'.outline) : r.stack.isEmpty = r'.stack.isEmpty := by
  have hstack := congrArg (List.isEmpty ∘ Reader.stack) h
  simpa [outline] using hstack

theorem length_congr (h : r.outline = r'.outline) : r.stack.length = r'.stack.length := by
  have hstack := congrArg (List.length ∘ Reader.stack) h
  simpa [outline] using hstack

/-- Two scalars that the listener takes for the same. -/
theorem scalar_congr (h : r.outline = r'.outline) {v w : Scalar}
    (hheard : l.hear r.listening r.path (.scalar v) = l.hear r.listening r.path (.scalar w))
    (hv : outlineScalar v = outlineScalar w) :
    (r.scalar d l v).outline = (r'.scalar d l w).outline := by
  rw [Reader.scalar, Reader.scalar, isEmpty_congr h]
  split
  · exact enter_congr h rfl
  · exact tell_congr h hheard fun _ _ h => fill_congr h (congrArg Json.scalar hv)

theorem opening_congr (h : r.outline = r'.outline) (b : Bracket) :
    (r.opening d l b).outline = (r'.opening d l b).outline := by
  unfold Reader.opening
  rw [isEmpty_congr h, length_congr h]
  split
  · exact enter_congr h rfl
  · split
    · exact enter_congr h rfl
    · exact tell_congr h rfl fun _ _ h => enter_congr h rfl

theorem value_congr (h : r.outline = r'.outline) (t : Token) :
    (r.value d l t).outline = (r'.value d l t).outline := by
  unfold Reader.value
  split
  · exact opening_congr h _
  · split
    · exact scalar_congr h rfl rfl
    · exact enter_congr h rfl

theorem memberName_congr (h : r.outline = r'.outline) (before : List (String × Json)) (t : Token) :
    (r.memberName d before t).outline =
      (r'.memberName d (before.map outlineMember) t).outline := by
  have hany : ∀ n, (before.map outlineMember).any (·.1 == n) = before.any (·.1 == n) :=
    fun _ => List.any_map
  have hbefore : (before.map outlineMember).map outlineMember = before.map outlineMember := by
    rw [List.map_map]
    exact List.map_congr_left fun m _ => outlineMember_outlineMember m
  unfold memberName
  split
  · rw [hany]
    split
    · exact enter_congr h rfl
    · exact enter_congr h (by rw [Phase.outline, Phase.outline, hbefore])
  all_goals exact enter_congr h rfl

/-- One token leads to the same outline from a reader and from its outline. -/
theorem step_outline (r : Reader σ) (t : Token) :
    (r.step d l t).outline = (r.outline.step d l t).outline := by
  obtain ⟨s, stack, phase⟩ := r
  have h : ∀ stack phase, outline ⟨s, stack, phase⟩ = (outline ⟨s, stack, phase⟩).outline :=
    fun stack phase => (outline_outline _).symm
  cases phase with
  | value => exact value_congr (h stack .value) t
  | items count before =>
    show (if _ then _ else _ : Reader σ).outline = (if _ then _ else _ : Reader σ).outline
    split
    · exact fill_congr (h stack _) (by simp [List.map_reverse])
    · split
      · exact value_congr (h (.item 0 [] :: stack) (.items count before)) t
      · split
        · exact h (.item count before :: stack) .value
        · exact enter_congr (h stack _) rfl
  | members before =>
    show (if _ then _ else _ : Reader σ).outline =
      (if _ then _ else if (before.map outlineMember).isEmpty then _ else _ : Reader σ).outline
    rw [List.isEmpty_map]
    split
    · exact fill_congr (h stack _) (by simp [List.map_reverse])
    · split
      · exact memberName_congr (h stack _) before t
      · split
        · exact h stack (.name before)
        · exact enter_congr (h stack _) rfl
  | name before => exact memberName_congr (h stack _) before t
  | colon before n =>
    show (if _ then _ else _ : Reader σ).outline = (if _ then _ else _ : Reader σ).outline
    split
    · exact h (.member before n :: stack) .value
    · exact enter_congr (h stack _) rfl
  | done v => exact enter_congr (h stack _) rfl
  | failed f => exact h stack _
  | stopped => exact h stack _

/-- **Readers with one outline go on to one outline**, whatever tokens come. -/
theorem run_congr (h : r.outline = r'.outline) (ts : List Token) :
    (r.run d l ts).outline = (r'.run d l ts).outline := by
  induction ts generalizing r r' with
  | nil => exact h
  | cons t ts ih =>
    refine ih ?_
    rw [step_outline r, h, ← step_outline r']

/-! ## Another scalar in a place -/

variable {n : String} {t t' : Token} {v w : Scalar}

/-- A string leads to the colon behind a name only if it is that name. -/
theorem colon_of_text {before : List (String × Json)} {k : String}
    (h : (r.step d l (.text (some n))).phase = .colon before k) : k = n := by
  have hfill : ∀ (r : Reader σ) v, (r.fill v).phase ≠ .colon before k := by
    intro r v
    unfold fill
    split <;> nofun
  have hvalue : ∀ r : Reader σ, (r.value d l (.text (some n))).phase ≠ .colon before k := by
    intro r
    show (r.scalar d l (.string n)).phase ≠ _
    unfold Reader.scalar tell
    dsimp only
    split
    · nofun
    · split
      · nofun
      · exact hfill _ _
  have hname : ∀ (r : Reader σ) seen,
      (r.memberName d seen (.text (some n))).phase = .colon before k → k = n := by
    intro r seen h
    unfold memberName at h
    dsimp only at h
    split at h
    · cases h
    · exact (Phase.colon.inj h).2.symm
  obtain ⟨s, stack, phase⟩ := r
  cases phase with
  | value => exact absurd h (hvalue _)
  | items count before =>
    cases count with
    | zero => exact absurd h (hvalue _)
    | succ count => cases h
  | members before =>
    cases before with
    | nil => exact hname _ _ h
    | cons m before => cases h
  | name before => exact hname _ _ h
  | colon before n => cases h
  | done v => cases h
  | failed f => cases h
  | stopped => cases h

/-- A colon is taken behind a name only. -/
theorem step_colon (r : Reader σ) :
    (∃ f, (r.step d l .colon).phase = .failed f) ∨ (r.step d l .colon).phase = .stopped ∨
      ∃ before n, r.phase = .colon before n ∧ (r.step d l .colon).phase = .value ∧
        (r.step d l .colon).stack = .member before n :: r.stack := by
  obtain ⟨s, stack, phase⟩ := r
  cases phase with
  | value => exact .inl ⟨_, rfl⟩
  | items count before =>
    cases count with
    | zero => exact .inl ⟨_, rfl⟩
    | succ count => exact .inl ⟨_, rfl⟩
  | members before =>
    cases before with
    | nil => exact .inl ⟨_, rfl⟩
    | cons m before => exact .inl ⟨_, rfl⟩
  | name before => exact .inl ⟨_, rfl⟩
  | colon before n => exact .inr (.inr ⟨before, n, rfl, rfl, rfl⟩)
  | done v => exact .inl ⟨_, rfl⟩
  | failed f => exact .inl ⟨f, rfl⟩
  | stopped => exact .inr (.inl rfl)

theorem step_replaced (hphase : r.phase = .value) {before : List (String × Json)}
    {stack : List Frame} (hstack : r.stack = .member before n :: stack)
    (ht : t.scalar = .ok v) (ht' : t'.scalar = .ok w) (hv : outlineScalar v = outlineScalar w)
    (hheard : ∀ s p, l.hear s (p ++ [.name n]) (.scalar v) = l.hear s (p ++ [.name n]) (.scalar w)) :
    (r.step d l t).outline = (r.step d l t').outline := by
  have hvalue : ∀ {t v}, Token.scalar t = .ok v → r.step d l t = r.scalar d l v := by
    intro t v ht
    unfold step
    rw [hphase]
    unfold Reader.value
    cases t with
    | opening b => cases ht
    | _ => simp only [ht]
  have hpath : r.path = (stack.map Frame.step).reverse ++ [.name n] := by
    rw [path, hstack, List.map_cons, List.reverse_cons]
    rfl
  rw [hvalue ht, hvalue ht']
  exact scalar_congr rfl (hpath ▸ hheard _ _) hv

/-- The value of a member is replaced, somewhere in a text. -/
theorem run_replaced (r : Reader σ) (ts us : List Token) (ht : t.scalar = .ok v)
    (ht' : t'.scalar = .ok w) (hv : outlineScalar v = outlineScalar w)
    (hheard : ∀ s p, l.hear s (p ++ [.name n]) (.scalar v) = l.hear s (p ++ [.name n]) (.scalar w)) :
    (r.run d l (ts ++ .text (some n) :: .colon :: t :: us)).outline =
      (r.run d l (ts ++ .text (some n) :: .colon :: t' :: us)).outline := by
  rw [run_append, run_append]
  generalize r.run d l ts = r
  show (((r.step d l _).step d l .colon |>.step d l t).run d l us).outline =
    (((r.step d l _).step d l .colon |>.step d l t').run d l us).outline
  refine run_congr ?_ us
  have hended : ∀ {r : Reader σ}, (∃ f, r.phase = .failed f) ∨ r.phase = .stopped →
      r.step d l t = r.step d l t' := by
    intro r h
    unfold step
    rcases h with ⟨f, h⟩ | h <;> rw [h]
  rcases step_colon (d := d) (l := l) (r.step d l (.text (some n))) with
    h | h | ⟨before, k, hcolon, hphase, hstack⟩
  · rw [hended (.inl h)]
  · rw [hended (.inr h)]
  · obtain rfl := colon_of_text hcolon
    exact step_replaced hphase hstack ht ht' hv hheard

end Reader

/-- **Two texts that differ in the value of one member** are read to the same end, but for that
value, if the listener makes the same of both. -/
theorem read_replaced {σ : Type} {d : Demands} {l : Listener σ} (s : σ) {text text' n : String}
    {t t' : Token} {v w : Scalar} {ts us : List Token}
    (htokens : tokens text = ts ++ .text (some n) :: .colon :: t :: us)
    (htokens' : tokens text' = ts ++ .text (some n) :: .colon :: t' :: us)
    (ht : t.scalar = .ok v) (ht' : t'.scalar = .ok w) (hv : outlineScalar v = outlineScalar w)
    (hheard : ∀ s p, l.hear s (p ++ [.name n]) (.scalar v) = l.hear s (p ++ [.name n]) (.scalar w)) :
    (read d l s text).1 = (read d l s text').1 ∧
      (read d l s text).2.outline = (read d l s text').2.outline := by
  obtain ⟨hlistening, -, hphase⟩ := Reader.outline_eq_iff.mp
    (Reader.run_replaced (d := d) (Reader.start s) ts us ht ht' hv hheard)
  rw [read, read, htokens, htokens']
  refine ⟨hlistening, ?_⟩
  rw [← Phase.outcome_outline, ← Phase.outcome_outline, hphase]

end VehiclePrivacy.Json
