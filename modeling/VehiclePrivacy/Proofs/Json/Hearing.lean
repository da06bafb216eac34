import VehiclePrivacy.Json.Reader

/-!
# What a listener is told

A reader tells its listener of values while it builds them. This file says what it tells, for every
text at once and whoever listens.

`events` lists, for a finished value, the paths and heads of all its parts in document order, and
`heed` is a listener that is told of such a list until it has enough. The `scribe` is a listener
that writes everything down and never has enough. Where a reader goes does not depend on who
listens, so any reader follows the scribe's, token by token, up to where its own listener stops
(`follows_run`). What the scribe has written is the subject of `Reading.lean`.
-/

namespace VehiclePrivacy.Json

/-- A path, and the head of the value there. -/
abbrev Event := Path × Head

mutual

/-- What is told of the parts of a value at a path. -/
def partEvents (path : Path) : Json → List Event
  | .scalar _ => []
  | .array items => itemEvents path 0 items
  | .object members => memberEvents path members

/-- What is told of the items of an array at a path, from the index `i` on. -/
def itemEvents (path : Path) (i : Nat) : List Json → List Event
  | [] => []
  | v :: rest =>
    (path ++ [.index i], head v) ::
      (partEvents (path ++ [.index i]) v ++ itemEvents path (i + 1) rest)

/-- What is told of the members of an object at a path. -/
def memberEvents (path : Path) : List (String × Json) → List Event
  | [] => []
  | (n, v) :: rest =>
    (path ++ [.name n], head v) ::
      (partEvents (path ++ [.name n]) v ++ memberEvents path rest)

end

/-- What is told of a value at a path and all its parts. -/
def events (path : Path) (v : Json) : List Event := (path, head v) :: partEvents path v

theorem itemEvents_append (path : Path) (i : Nat) (vs ws : List Json) :
    itemEvents path i (vs ++ ws) = itemEvents path i vs ++ itemEvents path (i + vs.length) ws := by
  induction vs generalizing i with
  | nil => rfl
  | cons v vs ih =>
    rw [List.cons_append, itemEvents, itemEvents, ih, List.cons_append, List.append_assoc,
      List.length_cons]
    rw [show i + 1 + vs.length = i + (vs.length + 1) by omega]

theorem memberEvents_append (path : Path) (ms ns : List (String × Json)) :
    memberEvents path (ms ++ ns) = memberEvents path ms ++ memberEvents path ns := by
  induction ms with
  | nil => rfl
  | cons m ms ih =>
    rw [List.cons_append, memberEvents, memberEvents, ih, List.cons_append, List.append_assoc]

/-- One more item: what is told of it comes behind the others. -/
theorem itemEvents_snoc (path : Path) (vs : List Json) (v : Json) :
    itemEvents path 0 (vs ++ [v]) =
      itemEvents path 0 vs ++ events (path ++ [.index vs.length]) v := by
  rw [itemEvents_append, Nat.zero_add, itemEvents, itemEvents, List.append_nil, events]

/-- One more member: what is told of it comes behind the others. -/
theorem memberEvents_snoc (path : Path) (ms : List (String × Json)) (n : String) (v : Json) :
    memberEvents path (ms ++ [(n, v)]) =
      memberEvents path ms ++ events (path ++ [.name n]) v := by
  rw [memberEvents_append, memberEvents, memberEvents, List.append_nil, events]

mutual

/-- The parts of a value stand below it. -/
theorem below_partEvents (path : Path) :
    ∀ v : Json, ∀ e ∈ partEvents path v, ∃ step rest, e.1 = path ++ step :: rest
  | .scalar _ => by simp [partEvents]
  | .array items => below_itemEvents path 0 items
  | .object members => below_memberEvents path members

theorem below_itemEvents (path : Path) (i : Nat) :
    ∀ items : List Json, ∀ e ∈ itemEvents path i items, ∃ step rest, e.1 = path ++ step :: rest
  | [] => by simp [itemEvents]
  | v :: rest => by
    intro e he
    rw [itemEvents] at he
    rcases List.mem_cons.mp he with rfl | he
    · exact ⟨.index i, [], rfl⟩
    · rcases List.mem_append.mp he with he | he
      · obtain ⟨step, more, heq⟩ := below_partEvents _ v e he
        exact ⟨.index i, step :: more, by rw [heq, List.append_assoc]; rfl⟩
      · exact below_itemEvents path (i + 1) rest e he

theorem below_memberEvents (path : Path) :
    ∀ members : List (String × Json), ∀ e ∈ memberEvents path members,
      ∃ step rest, e.1 = path ++ step :: rest
  | [] => by simp [memberEvents]
  | (n, v) :: rest => by
    intro e he
    rw [memberEvents] at he
    rcases List.mem_cons.mp he with rfl | he
    · exact ⟨.name n, [], rfl⟩
    · rcases List.mem_append.mp he with he | he
      · obtain ⟨step, more, heq⟩ := below_partEvents _ v e he
        exact ⟨.name n, step :: more, by rw [heq, List.append_assoc]; rfl⟩
      · exact below_memberEvents path rest e he

end

/-! ## Listening to a list of events -/

section Until

variable {σ α β : Type} (step : σ → α → σ) (stop : σ → Bool)

/-- Steps along a list until there is enough. -/
def stepUntil (s : σ) : List α → σ
  | [] => s
  | x :: rest => if stop (step s x) then step s x else stepUntil (step s x) rest

variable {step stop}

theorem stepUntil_append {s : σ} (hs : stop s = false) (xs ys : List α) :
    stepUntil step stop s (xs ++ ys) =
      if stop (stepUntil step stop s xs) then stepUntil step stop s xs
      else stepUntil step stop (stepUntil step stop s xs) ys := by
  induction xs generalizing s with
  | nil => rw [List.nil_append, stepUntil, hs, if_neg Bool.false_ne_true]
  | cons x xs ih =>
    rw [List.cons_append, stepUntil, stepUntil]
    cases hstop : stop (step s x) with
    | true => simp [hstop]
    | false => simpa using ih hstop

/-- Steps that change nothing may be left out. -/
theorem stepUntil_filterMap {step' : σ → β → σ} {g : α → Option β}
    (hskip : ∀ s x, g x = none → step s x = s)
    (hstep : ∀ s x y, g x = some y → step s x = step' s y) {s : σ} (hs : stop s = false)
    (xs : List α) :
    stepUntil step stop s xs = stepUntil step' stop s (xs.filterMap g) := by
  induction xs generalizing s with
  | nil => rfl
  | cons x xs ih =>
    rw [stepUntil]
    cases hx : g x with
    | none =>
      rw [hskip s x hx, hs, if_neg Bool.false_ne_true, List.filterMap_cons_none hx]
      exact ih hs
    | some y =>
      rw [hstep s x y hx, List.filterMap_cons_some hx, stepUntil]
      cases hstop : stop (step' s y) with
      | true => rfl
      | false => exact ih hstop

theorem stepUntil_map {step' : σ → β → σ} {g : α → β} (hstep : ∀ s x, step s x = step' s (g x))
    (s : σ) (xs : List α) :
    stepUntil step stop s xs = stepUntil step' stop s (xs.map g) := by
  induction xs generalizing s with
  | nil => rfl
  | cons x xs ih => rw [stepUntil, List.map_cons, stepUntil, hstep, ih]

end Until

/-- A listener that is told of events until it has enough. -/
def heed {σ : Type} (l : Listener σ) (s : σ) (evs : List Event) : σ :=
  stepUntil (fun s e => l.hear s e.1 e.2) l.stop s evs

/-! ## The scribe, and readers that follow it -/

/-- The listener that writes down what it is told and never has enough. -/
def Listener.scribe : Listener (List Event) := ⟨fun s p h => s ++ [(p, h)], fun _ => false⟩

namespace Reader

variable {σ : Type} (d : Demands) (l : Listener σ) (s : σ)

/-- Where a reader with another listener stands beside the scribe's, before that listener stops. -/
def beside (c : Reader (List Event)) : Reader σ := ⟨heed l s c.listening, c.stack, c.phase⟩

/-- A reader follows the scribe's up to where its own listener has enough. -/
def Follows (c : Reader (List Event)) (r : Reader σ) : Prop :=
  if l.stop (heed l s c.listening) then r.listening = heed l s c.listening ∧ r.phase = .stopped
  else r = beside l s c

variable {l s}

theorem Follows.of_eq {c : Reader (List Event)} {r : Reader σ}
    (h : l.stop (heed l s c.listening) = false) (hr : r = beside l s c) : Follows l s c r := by
  rw [Follows, h]
  exact hr

theorem Follows.going {c : Reader (List Event)} {r : Reader σ} (hf : Follows l s c r)
    (h : l.stop (heed l s c.listening) = false) : r = beside l s c := by
  rw [Follows, h] at hf
  exact hf

theorem Follows.stopped {c : Reader (List Event)} {r : Reader σ} (hf : Follows l s c r)
    (h : l.stop (heed l s c.listening) = true) :
    r.listening = heed l s c.listening ∧ r.phase = .stopped := by
  rw [Follows, h] at hf
  exact hf

/-- One event more: the listener hears it unless it has had enough. -/
theorem heed_snoc (hs : l.stop s = false) {evs : List Event}
    (h : l.stop (heed l s evs) = false) (p : Path) (x : Head) :
    heed l s (evs ++ [(p, x)]) = l.hear (heed l s evs) p x := by
  rw [heed, stepUntil_append hs, ← heed, h, if_neg Bool.false_ne_true, stepUntil, stepUntil]
  exact ite_self _

@[simp] theorem beside_stack (c : Reader (List Event)) : (beside l s c).stack = c.stack := rfl

@[simp] theorem beside_phase (c : Reader (List Event)) : (beside l s c).phase = c.phase := rfl

/-- Filling a hole tells nothing. -/
@[simp] theorem fill_listening {τ : Type} (r : Reader τ) (v : Json) :
    (r.fill v).listening = r.listening := by
  unfold fill
  split <;> rfl

theorem beside_fill (c : Reader (List Event)) (v : Json) :
    (beside l s c).fill v = beside l s (c.fill v) := by
  obtain ⟨evs, stack, phase⟩ := c
  cases stack with
  | nil => rfl
  | cons f stack => cases f <;> rfl

/-- Telling of a value keeps the readers together if what follows does. -/
theorem follows_tell (hs : l.stop s = false) {c : Reader (List Event)}
    (h : l.stop (heed l s c.listening) = false) (x : Head)
    {next : Reader σ → Reader σ} {next' : Reader (List Event) → Reader (List Event)}
    (hnext : ∀ c, next (beside l s c) = beside l s (next' c))
    (hkeep : ∀ c, (next' c).listening = c.listening) :
    Follows l s (c.tell .scribe x next') ((beside l s c).tell l x next) := by
  have hheard := heed_snoc hs h c.path x
  have hc : c.tell .scribe x next' = next' ⟨c.listening ++ [(c.path, x)], c.stack, c.phase⟩ := rfl
  have hr : (beside l s c).tell l x next =
      if l.stop (l.hear (heed l s c.listening) c.path x) then
        ⟨l.hear (heed l s c.listening) c.path x, c.stack, .stopped⟩
      else next ⟨l.hear (heed l s c.listening) c.path x, c.stack, c.phase⟩ := rfl
  rw [Follows, hc, hkeep, hheard, hr]
  cases hstop : l.stop (l.hear (heed l s c.listening) c.path x) with
  | true => exact ⟨rfl, rfl⟩
  | false =>
    rw [if_neg Bool.false_ne_true, if_neg Bool.false_ne_true, ← hnext, beside, hheard]

theorem follows_scalar (hs : l.stop s = false) {c : Reader (List Event)}
    (h : l.stop (heed l s c.listening) = false) (v : Scalar) :
    Follows l s (c.scalar d .scribe v) ((beside l s c).scalar d l v) := by
  unfold Reader.scalar
  rw [beside_stack]
  split
  · exact .of_eq h rfl
  · exact follows_tell hs h _ (fun c => beside_fill c _) (fun c => fill_listening c _)

theorem follows_opening (hs : l.stop s = false) {c : Reader (List Event)}
    (h : l.stop (heed l s c.listening) = false) (b : Bracket) :
    Follows l s (c.opening d .scribe b) ((beside l s c).opening d l b) := by
  unfold Reader.opening
  rw [beside_stack]
  split
  · exact .of_eq h rfl
  · split
    · exact .of_eq h rfl
    · exact follows_tell hs h _ (fun _ => rfl) (fun _ => rfl)

theorem follows_value (hs : l.stop s = false) {c : Reader (List Event)}
    (h : l.stop (heed l s c.listening) = false) (t : Token) :
    Follows l s (c.value d .scribe t) ((beside l s c).value d l t) := by
  unfold Reader.value
  split
  · exact follows_opening d hs h _
  · split
    · exact follows_scalar d hs h _
    · exact .of_eq h rfl

theorem follows_memberName {c : Reader (List Event)} (h : l.stop (heed l s c.listening) = false)
    (before : List (String × Json)) (t : Token) :
    Follows l s (c.memberName d before t) ((beside l s c).memberName d before t) := by
  unfold memberName
  split
  · split <;> exact .of_eq h rfl
  all_goals exact .of_eq h rfl

theorem fill_goes_on {τ : Type} (r : Reader τ) (v : Json) (f : Fault) :
    (r.fill v).phase ≠ .failed f := by
  unfold fill
  split <;> nofun

theorem memberName_listening {τ : Type} (r : Reader τ) (before : List (String × Json))
    (t : Token) : (r.memberName d before t).listening = r.listening := by
  unfold memberName
  split
  · split <;> rfl
  all_goals rfl

/-- The scribe writes nothing of a token, or it writes of one value and the reader does not fail. -/
def Writes (c c' : Reader (List Event)) : Prop :=
  c'.listening = c.listening ∨
    ∃ e, c'.listening = c.listening ++ [e] ∧ ∀ f, c'.phase ≠ .failed f

theorem writes_value (c : Reader (List Event)) (t : Token) : Writes c (c.value d .scribe t) := by
  unfold Reader.value
  split
  · rename_i b
    unfold Reader.opening
    split
    · exact .inl rfl
    · split
      · exact .inl rfl
      · exact .inr ⟨(c.path, .opening b), rfl, by cases b <;> nofun⟩
  · split
    · rename_i v _
      unfold Reader.scalar
      split
      · exact .inl rfl
      · exact .inr ⟨(c.path, .scalar v), fill_listening _ _, fill_goes_on _ _⟩
    · exact .inl rfl

theorem writes_step (c : Reader (List Event)) (t : Token) : Writes c (c.step d .scribe t) := by
  unfold step
  -- one case for each phase, and in it one for each token that the phase looks for
  split
  · exact writes_value d c t
  · split
    · exact .inl (fill_listening c _)
    · split
      · exact writes_value d { c with stack := .item 0 [] :: c.stack } t
      · split <;> exact .inl rfl
  · split
    · exact .inl (fill_listening c _)
    · split
      · exact .inl (memberName_listening d c _ t)
      · split <;> exact .inl rfl
  · exact .inl (memberName_listening d c _ t)
  · split <;> exact .inl rfl
  all_goals exact .inl rfl

/-- What the scribe has written stays written. -/
theorem scribe_step (c : Reader (List Event)) (t : Token) :
    ∃ more, (c.step d .scribe t).listening = c.listening ++ more := by
  rcases writes_step d c t with h | ⟨e, h, -⟩
  · exact ⟨[], by rw [h, List.append_nil]⟩
  · exact ⟨[e], h⟩

/-- Readers that are together stay together for one more token. -/
theorem follows_step (hs : l.stop s = false) {c : Reader (List Event)} {r : Reader σ}
    (hf : Follows l s c r) (t : Token) : Follows l s (c.step d .scribe t) (r.step d l t) := by
  cases h : l.stop (heed l s c.listening) with
  | true =>
    -- the one reader stands still; what the scribe still writes is not heeded
    obtain ⟨hlistening, hphase⟩ := hf.stopped h
    have hr : r.step d l t = r := by
      unfold step
      rw [hphase]
    obtain ⟨more, hmore⟩ := scribe_step d c t
    have hheed : heed l s (c.step d .scribe t).listening = heed l s c.listening := by
      rw [hmore, heed, stepUntil_append hs, ← heed, if_pos h]
    rw [Follows, hheed, if_pos h, hr]
    exact ⟨hlistening, hphase⟩
  | false =>
    -- both are in the same phase, so they take the same branch
    rw [hf.going h]
    unfold step
    rw [beside_phase]
    split
    · exact follows_value d hs h t
    · split
      · exact .of_eq (by rwa [fill_listening]) (beside_fill c _)
      · split
        · exact follows_value d hs (c := { c with stack := .item 0 [] :: c.stack }) h t
        · split <;> exact .of_eq h rfl
    · split
      · exact .of_eq (by rwa [fill_listening]) (beside_fill c _)
      · split
        · exact follows_memberName d h _ t
        · split <;> exact .of_eq h rfl
    · exact follows_memberName d h _ t
    · split <;> exact .of_eq h rfl
    all_goals exact .of_eq h rfl

/-- Over a whole text, a reader follows the scribe's. -/
theorem follows_run (hs : l.stop s = false) {c : Reader (List Event)} {r : Reader σ}
    (hf : Follows l s c r) (ts : List Token) : Follows l s (c.run d .scribe ts) (r.run d l ts) := by
  induction ts generalizing c r with
  | nil => exact hf
  | cons t ts ih => exact ih (follows_step d hs hf t)

end Reader

end VehiclePrivacy.Json
