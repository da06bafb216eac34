import VehiclePrivacy.Json.Reader

/-!
# The grammar of documents

Which tokens make a document, written down without a reader: one object and nothing after it, in
which no more than a given number of containers is open at once and no member has the name of
another member of its object. A text that is none begins like one up to some token (`Breaks`).

Every rule says what follows the part that it is about. So it can be asked what a rule makes of the
first token of a text and what of the others; that is the second half of this file, and all that the
proofs about readers use.
-/

namespace VehiclePrivacy.Json

namespace Grammar

/-- What stands between two parts of a container, and nothing before the first. -/
def separator (first : Bool) : List Token := if first then [] else [.comma]

mutual

/-- A value in which no more than `room` containers are open at once, and what follows it. -/
inductive Value : (room : Nat) → List Token → Json → (rest : List Token) → Prop where
  | scalar {room : Nat} {t : Token} {s : Scalar} {rest : List Token} :
      t.scalar = .ok s → Value room (t :: rest) (.scalar s) rest
  | array {room : Nat} {ts : List Token} {items : List Json} {rest : List Token} :
      Items room true ts items rest →
      Value (room + 1) (.opening .array :: ts) (.array items) rest
  | object {room : Nat} {ts : List Token} {members : List (String × Json)} {rest : List Token} :
      Members room [] ts members rest →
      Value (room + 1) (.opening .object :: ts) (.object members) rest

/-- The items of an array up to its end, and what follows it. -/
inductive Items : (room : Nat) → (first : Bool) → List Token → List Json → (rest : List Token) →
    Prop where
  | done {room : Nat} {first : Bool} {rest : List Token} :
      Items room first (.closing .array :: rest) [] rest
  | item {room : Nat} {first : Bool} {ts : List Token} {v : Json} {more : List Token}
      {items : List Json} {rest : List Token} :
      Value room ts v more → Items room false more items rest →
      Items room first (separator first ++ ts) (v :: items) rest

/-- The members of an object up to its end, none with a name seen before, and what follows it. -/
inductive Members : (room : Nat) → (seen : List String) → List Token → List (String × Json) →
    (rest : List Token) → Prop where
  | done {room : Nat} {seen : List String} {rest : List Token} :
      Members room seen (.closing .object :: rest) [] rest
  | member {room : Nat} {seen : List String} {n : String} {ts : List Token} {v : Json}
      {more : List Token} {members : List (String × Json)} {rest : List Token} :
      n ∉ seen → Value room ts v more → Members room (n :: seen) more members rest →
      Members room seen (separator seen.isEmpty ++ .text (some n) :: .colon :: ts)
        ((n, v) :: members) rest

end

/-- The tokens of a document: one object, and nothing after it. -/
def Document (ts : List Token) (tree : Json) : Prop :=
  Value Reader.maxDepth ts tree [] ∧ ∃ members, tree = .object members

/-- Some document begins with the tokens. -/
def Begins (ts : List Token) : Prop := ∃ more tree, Document (ts ++ more) tree

/-- The tokens break off: they begin a document up to a point, and not with the next token. -/
structure Breaks (ts before rest : List Token) : Prop where
  split : ts = before ++ rest
  begins : Begins before
  stuck : ∀ t us, rest = t :: us → ¬ Begins (before ++ [t])

theorem begins_nil : Begins [] :=
  ⟨[.opening .object, .closing .object], .object [], .object .done, [], rfl⟩

theorem exists_breaks_of_begins {before : List Token} (h : Begins before) (ts : List Token) :
    ∃ before' rest, Breaks (before ++ ts) before' rest := by
  induction ts generalizing before with
  | nil => exact ⟨before, [], rfl, h, nofun⟩
  | cons t ts ih =>
    by_cases ht : Begins (before ++ [t])
    · rw [List.append_cons]
      exact ih ht
    · refine ⟨before, t :: ts, rfl, h, ?_⟩
      intro t' us hrest
      rwa [← (List.cons.inj hrest).1]

/-- Every text has a point where it breaks off, at its end at the latest. -/
theorem exists_breaks (ts : List Token) : ∃ before rest, Breaks ts before rest :=
  exists_breaks_of_begins begins_nil ts

/-! ## One token more -/

section Cons

variable {room : Nat} {t : Token} {ts rest : List Token} {v : Json} {items : List Json}
  {members : List (String × Json)} {seen : List String}

/-- A value that begins with a token. -/
theorem value_cons : Value room (t :: ts) v rest ↔
    (∃ s, t.scalar = .ok s ∧ v = .scalar s ∧ ts = rest) ∨
    (∃ below items, t = .opening .array ∧ room = below + 1 ∧ v = .array items ∧
      Items below true ts items rest) ∨
    ∃ below members, t = .opening .object ∧ room = below + 1 ∧ v = .object members ∧
      Members below [] ts members rest := by
  refine ⟨fun h => ?_, fun h => ?_⟩
  · cases h with
    | scalar h => exact .inl ⟨_, h, rfl, rfl⟩
    | array h => exact .inr (.inl ⟨_, _, rfl, rfl, rfl, h⟩)
    | object h => exact .inr (.inr ⟨_, _, rfl, rfl, rfl, h⟩)
  · rcases h with ⟨s, h, rfl, rfl⟩ | ⟨below, items, rfl, rfl, rfl, h⟩ | ⟨below, members, rfl, rfl, rfl, h⟩
    · exact .scalar h
    · exact .array h
    · exact .object h

/-- A value is not empty. -/
theorem not_value_nil : ¬ Value room [] v rest := nofun

theorem not_value_closing {b : Bracket} : ¬ Value room (.closing b :: ts) v rest := by
  rw [value_cons]
  intro h
  rcases h with ⟨s, h, -⟩ | ⟨below, items, h, -⟩ | ⟨below, members, h, -⟩ <;> cases h

theorem items_closing {first : Bool} :
    Items room first (.closing .array :: ts) items rest ↔ items = [] ∧ ts = rest := by
  refine ⟨fun h => ?_, fun h => ?_⟩
  · generalize hts : Token.closing .array :: ts = us at h
    cases h with
    | done => exact ⟨rfl, (List.cons.inj hts).2⟩
    | item hv _ =>
      cases first with
      | true =>
        obtain rfl := hts
        exact absurd hv not_value_closing
      | false => cases hts
  · obtain ⟨rfl, rfl⟩ := h
    exact .done

theorem not_items_nil {first : Bool} : ¬ Items room first [] items rest := by
  intro h
  generalize hts : ([] : List Token) = us at h
  cases h with
  | done => cases hts
  | item hv _ =>
    obtain ⟨-, rfl⟩ := List.append_eq_nil_iff.mp hts.symm
    exact not_value_nil hv

/-- The first item. -/
theorem items_first (ht : t ≠ .closing .array) : Items room true (t :: ts) items rest ↔
    ∃ v more tail, items = v :: tail ∧ Value room (t :: ts) v more ∧
      Items room false more tail rest := by
  refine ⟨fun h => ?_, fun h => ?_⟩
  · generalize hts : t :: ts = us at h
    cases h with
    | done => exact absurd (List.cons.inj hts).1 ht
    | item hv hmore => exact ⟨_, _, _, rfl, hv, hmore⟩
  · obtain ⟨v, more, tail, rfl, hv, hmore⟩ := h
    exact .item hv hmore

/-- A further item. -/
theorem items_next (ht : t ≠ .closing .array) : Items room false (t :: ts) items rest ↔
    t = .comma ∧ ∃ v more tail, items = v :: tail ∧ Value room ts v more ∧
      Items room false more tail rest := by
  refine ⟨fun h => ?_, fun h => ?_⟩
  · generalize hts : t :: ts = us at h
    cases h with
    | done => exact absurd (List.cons.inj hts).1 ht
    | item hv hmore =>
      obtain ⟨rfl, rfl⟩ := List.cons.inj hts
      exact ⟨rfl, _, _, _, rfl, hv, hmore⟩
  · obtain ⟨rfl, v, more, tail, rfl, hv, hmore⟩ := h
    exact .item hv hmore

theorem members_closing :
    Members room seen (.closing .object :: ts) members rest ↔ members = [] ∧ ts = rest := by
  refine ⟨fun h => ?_, fun h => ?_⟩
  · generalize hts : Token.closing .object :: ts = us at h
    cases h with
    | done => exact ⟨rfl, (List.cons.inj hts).2⟩
    | member _ _ _ => cases seen <;> cases hts
  · obtain ⟨rfl, rfl⟩ := h
    exact .done

theorem not_members_nil : ¬ Members room seen [] members rest := by
  intro h
  generalize hts : ([] : List Token) = us at h
  cases h with
  | done => cases hts
  | member _ _ _ => simp at hts

/-- A member behind its separator. -/
theorem members_cons (ht : t ≠ .closing .object) : Members room seen (t :: ts) members rest ↔
    ∃ n us v more tail, t :: ts = separator seen.isEmpty ++ .text (some n) :: .colon :: us ∧
      n ∉ seen ∧ members = (n, v) :: tail ∧ Value room us v more ∧
      Members room (n :: seen) more tail rest := by
  refine ⟨fun h => ?_, fun h => ?_⟩
  · generalize hts : t :: ts = us at h
    cases h with
    | done => exact absurd (List.cons.inj hts).1 ht
    | member hn hv hmore => exact ⟨_, _, _, _, _, rfl, hn, rfl, hv, hmore⟩
  · obtain ⟨n, us, v, more, tail, hts, hn, rfl, hv, hmore⟩ := h
    rw [hts]
    exact .member hn hv hmore

end Cons

end Grammar

end VehiclePrivacy.Json
