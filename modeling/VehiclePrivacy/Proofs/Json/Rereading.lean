import VehiclePrivacy.Proofs.Json.Acceptance
import VehiclePrivacy.Proofs.Json.Legibility

/-!
# Reading what was read and printed

A document that was read, printed and read again is the same tree, but for its floats: each of them
is what `reread` makes of it. Members keep their names and their order, strings and integers stay
the same, and nothing is too deep or named twice that was not so before (`document_reread`). So the
two trees differ by floats that drifted, if at all (`drifted_tree`, `rereadTree_short`).

What has to be known of the tree is that it is readable: its scalars are legible, it is not too
deep, and no name is repeated. A reader gives such trees only, since its numbers are legible and a
scanner emits no words but the three that there are (`word_of_tokens`). A readable object need not
have been read itself to be read from its text (`document_render`).
-/

namespace VehiclePrivacy.Json

/-! ## Words -/

/-- The token is no word, or one of the words that there are. -/
def Token.Sound (t : Token) : Prop := ∀ v, t = .word v → v = .null ∨ ∃ b, v = .bool b

namespace Scanner

/-- All words that are emitted or under way are words that there are. -/
structure Worded (s : Scanner) : Prop where
  emitted : ∀ t ∈ s.emitted, t.Sound
  mode : ∀ owed v, s.mode = .word owed v → v = .null ∨ ∃ b, v = .bool b

variable {s : Scanner} {t : Token}

theorem Worded.emit (h : s.Worded) (ht : t.Sound) : (s.emit t).Worded :=
  ⟨List.forall_mem_cons.mpr ⟨ht, h.emitted⟩, nofun⟩

theorem Worded.fail (h : s.Worded) (ht : t.Sound) : (s.fail t).Worded :=
  ⟨List.forall_mem_cons.mpr ⟨ht, h.emitted⟩, nofun⟩

theorem Worded.enter (h : s.Worded) {m : Mode}
    (hm : ∀ owed v, m = .word owed v → v = .null ∨ ∃ b, v = .bool b) : (s.enter m).Worded :=
  ⟨h.emitted, hm⟩

theorem Worded.ite {p : Prop} [Decidable p] {r : Scanner} (hs : s.Worded) (hr : r.Worded) :
    (if p then s else r).Worded := by
  split
  · exact hs
  · exact hr

theorem Worded.begin (h : s.Worded) (c : Char) : (s.begin c).Worded := by
  have hbracket : ∀ b, (s.emit (.opening b)).Worded ∧ (s.emit (.closing b)).Worded :=
    fun b => ⟨h.emit nofun, h.emit nofun⟩
  have hword : ∀ owed v, (v = .null ∨ ∃ b, v = .bool b) → (s.enter (.word owed v)).Worded :=
    fun owed v hv => h.enter fun _ _ heq => (Mode.word.inj heq).2 ▸ hv
  unfold Scanner.begin
  refine .ite (h.enter nofun) (.ite (h.enter nofun) (.ite (h.enter nofun) (.ite (h.enter nofun)
    (.ite (h.enter nofun) ?_))))
  refine .ite (hbracket _).1 (.ite (hbracket _).2 (.ite (hbracket _).1 (.ite (hbracket _).2 ?_)))
  refine .ite (h.emit nofun) (.ite (h.emit nofun) ?_)
  refine .ite (hword _ _ (.inl rfl)) (.ite (hword _ _ (.inr ⟨true, rfl⟩))
    (.ite (hword _ _ (.inr ⟨false, rfl⟩)) ?_))
  exact h.fail nofun

theorem Worded.stepNumber (h : s.Worded) (part : NumberPart) (seen : List Char) (c : Char) :
    (s.stepNumber part seen c).Worded := by
  unfold Scanner.stepNumber
  split
  · exact h.enter nofun
  · exact .ite (Worded.begin (h.emit (t := .number seen.reverse) nofun) c) (h.fail nofun)

theorem Worded.stepPlain (h : s.Worded) (content : List Char) (paired : Bool) (c : Char) :
    (s.stepPlain content paired c).Worded := by
  unfold Scanner.stepPlain
  exact .ite (h.emit nofun) (.ite (h.enter nofun) (.ite (h.fail nofun) (h.enter nofun)))

theorem Worded.stepEscape (h : s.Worded) (content : List Char) (paired : Bool) (c : Char) :
    (s.stepEscape content paired c).Worded := by
  unfold Scanner.stepEscape
  split
  · exact h.enter nofun
  · split
    · exact h.enter nofun
    · exact h.fail nofun

theorem Worded.stepHex (h : s.Worded) (owed value : Nat) (lead : Option Nat)
    (content : List Char) (paired : Bool) (c : Char) :
    (s.stepHex owed value lead content paired c).Worded := by
  unfold Scanner.stepHex failHex endHex
  split
  · split
    · exact h.fail nofun
    · exact h.enter nofun
  · split
    · split
      · split_ifs <;> exact h.enter nofun
      · split <;> exact h.enter nofun
    · exact h.enter nofun

theorem Worded.stepText (h : s.Worded) (part : TextPart) (content : List Char) (paired : Bool)
    (c : Char) : (s.stepText part content paired c).Worded := by
  unfold Scanner.stepText
  split
  · exact h.stepPlain content paired c
  · exact h.stepEscape content paired c
  · exact h.stepHex _ _ _ content paired c
  · split
    · exact h.enter nofun
    · exact h.stepPlain content false c
  · split
    · exact h.enter nofun
    · exact h.stepEscape content false c

/-- **Step.** -/
theorem Worded.step (h : s.Worded) (c : Char) : (s.step c).Worded := by
  have hmode := h.mode
  unfold Scanner.step
  split
  · exact h.begin c
  · rename_i owed value hword
    have hvalue : Token.Sound (.word value) := fun v heq => Token.word.inj heq ▸ hmode _ _ hword
    split
    · exact (h.emit hvalue).begin c
    · split
      · exact h.emit hvalue
      · exact h.fail nofun
    · split
      · exact h.enter fun _ v heq => (Mode.word.inj heq).2 ▸ hmode _ _ hword
      · exact h.fail nofun
  · exact h.stepNumber _ _ c
  · exact h.stepText _ _ _ c
  · unfold failHex
    split
    · exact h.fail nofun
    · exact h.enter nofun
  · exact h

theorem Worded.run (h : s.Worded) (cs : List Char) : (s.run cs).Worded := by
  induction cs generalizing s with
  | nil => exact h
  | cons c cs ih => exact ih (h.step c)

theorem Worded.finish (h : s.Worded) : ∀ t ∈ s.finish, t.Sound := by
  unfold Scanner.finish
  refine List.forall_mem_append.mpr ⟨fun t ht => h.emitted t (List.mem_reverse.mp ht), ?_⟩
  split
  · exact nofun
  · exact nofun
  · exact List.forall_mem_singleton.mpr nofun
  · split <;> exact List.forall_mem_singleton.mpr nofun
  · exact List.forall_mem_singleton.mpr nofun
  · exact List.forall_mem_singleton.mpr nofun

end Scanner

/-- **A scanner emits no words but the three that there are.** -/
theorem word_of_tokens (text : String) : ∀ t ∈ tokens text, t.Sound :=
  have hstart : Scanner.Worded .start := ⟨nofun, nofun⟩
  (hstart.run text.toList).finish

/-! ## Readable values -/

/-- A reader takes legible scalars only. -/
theorem legible_of_token {t : Token} {s : Scalar} (ht : t.Sound) (h : t.scalar = .ok s) :
    Legible s := by
  cases t with
  | word v =>
    obtain rfl := Except.ok.inj h
    rcases ht v rfl with rfl | ⟨b, rfl⟩ <;> trivial
  | number lexeme =>
    rw [Token.scalar] at h
    split at h
    · rename_i number hnumber
      obtain rfl := Except.ok.inj h
      exact legible_of_value? hnumber
    · cases h
  | text content =>
    cases content with
    | none => cases h
    | some content =>
      obtain rfl := Except.ok.inj h
      trivial
  | _ => cases h

/-- A value that a reader can give: its scalars are legible, no more than `room` containers are open at
once, and no object has two members of one name. -/
inductive Readable : (room : Nat) → Json → Prop where
  | scalar {room : Nat} {s : Scalar} : Legible s → Readable room (.scalar s)
  | array {room : Nat} {items : List Json} :
      (∀ v ∈ items, Readable room v) → Readable (room + 1) (.array items)
  | object {room : Nat} {members : List (String × Json)} :
      (members.map Prod.fst).Nodup → (∀ m ∈ members, Readable room m.2) →
        Readable (room + 1) (.object members)

/-- The scalars of a readable value are legible. -/
theorem Readable.legible {room : Nat} {v : Json} (h : Readable room v) : Every Legible v := by
  induction h with
  | scalar hs => exact .scalar hs
  | array _ ih => exact .array ih
  | object _ _ ih => exact .object ih

namespace Grammar

mutual

/-- A reader gives readable values. -/
theorem Value.readable {room : Nat} {ts rest : List Token} {v : Json} :
    Value room ts v rest → (∀ t ∈ ts, t.Sound) → Readable room v ∧ ∀ t ∈ rest, t.Sound
  | .scalar hs, h =>
    have ⟨ht, hrest⟩ := List.forall_mem_cons.mp h
    ⟨.scalar (legible_of_token ht hs), hrest⟩
  | .array hitems, h =>
    have ⟨hall, hrest⟩ := hitems.readable (List.forall_mem_cons.mp h).2
    ⟨.array hall, hrest⟩
  | .object hmembers, h =>
    have ⟨hnames, _, hall, hrest⟩ := hmembers.readable (List.forall_mem_cons.mp h).2
    ⟨.object hnames hall, hrest⟩

theorem Items.readable {room : Nat} {first : Bool} {ts rest : List Token} {items : List Json} :
    Items room first ts items rest → (∀ t ∈ ts, t.Sound) →
      (∀ v ∈ items, Readable room v) ∧ ∀ t ∈ rest, t.Sound
  | .done, h => ⟨nofun, (List.forall_mem_cons.mp h).2⟩
  | .item hv hitems, h =>
    have ⟨hfirst, hmore⟩ := hv.readable (List.forall_mem_append.mp h).2
    have ⟨hall, hrest⟩ := hitems.readable hmore
    ⟨List.forall_mem_cons.mpr ⟨hfirst, hall⟩, hrest⟩

theorem Members.readable {room : Nat} {seen : List String} {ts rest : List Token}
    {members : List (String × Json)} : Members room seen ts members rest → (∀ t ∈ ts, t.Sound) →
      (members.map Prod.fst).Nodup ∧ (∀ n ∈ members.map Prod.fst, n ∉ seen) ∧
        (∀ m ∈ members, Readable room m.2) ∧ ∀ t ∈ rest, t.Sound
  | .done, h => ⟨.nil, nofun, nofun, (List.forall_mem_cons.mp h).2⟩
  | .member hn hv hmembers, h =>
    have hts := (List.forall_mem_append.mp h).2
    have ⟨hfirst, hmore⟩ :=
      hv.readable (List.forall_mem_cons.mp (List.forall_mem_cons.mp hts).2).2
    have ⟨hnames, hunseen, hall, hrest⟩ := hmembers.readable hmore
    -- the later names are apart from this one, and from those before it
    have hapart := fun k hk => not_or.mp (mt List.mem_cons.mpr (hunseen k hk))
    ⟨List.nodup_cons.mpr ⟨fun hmem => (hapart _ hmem).1 rfl, hnames⟩,
      List.forall_mem_cons.mpr ⟨hn, fun k hk => (hapart k hk).2⟩,
      List.forall_mem_cons.mpr ⟨hfirst, hall⟩, hrest⟩

end

end Grammar

/-! ## Rereading a value -/

mutual

/-- A value after it was printed and read. -/
def rereadTree : Json → Json
  | .scalar s => .scalar (rereadScalar s)
  | .array items => .array (rereadItems items)
  | .object members => .object (rereadMembers members)

/-- Items after they were printed and read. -/
def rereadItems : List Json → List Json
  | [] => []
  | v :: rest => rereadTree v :: rereadItems rest

/-- Members after they were printed and read, under the same names. -/
def rereadMembers : List (String × Json) → List (String × Json)
  | [] => []
  | (n, v) :: rest => (n, rereadTree v) :: rereadMembers rest

end

namespace Grammar

/-- The tokens of items up to the end of their array. -/
def itemsFrom (first : Bool) : List Json → List Token
  | [] => [.closing .array]
  | v :: rest => separator first ++ tokensOf v ++ itemTokens rest

/-- The tokens of members up to the end of their object. -/
def membersFrom (first : Bool) : List (String × Json) → List Token
  | [] => [.closing .object]
  | (n, v) :: rest =>
    separator first ++ .text (some n) :: .colon :: tokensOf v ++ memberTokens rest

theorem tokensOf_array (items : List Json) :
    tokensOf (.array items) = .opening .array :: itemsFrom true items := by
  cases items <;> rfl

theorem tokensOf_object (members : List (String × Json)) :
    tokensOf (.object members) = .opening .object :: membersFrom true members := by
  cases members <;> rfl

theorem itemTokens_eq (items : List Json) : itemTokens items = itemsFrom false items := by
  cases items <;> rfl

theorem memberTokens_eq (members : List (String × Json)) :
    memberTokens members = membersFrom false members := by
  cases members <;> rfl

mutual

/-- A readable value is read again from its tokens. -/
theorem value_reread {room : Nat} : ∀ v : Json, Readable room v → ∀ more : List Token,
    Value room (tokensOf v ++ more) (rereadTree v) more
  | .scalar _, .scalar hs, more => .scalar (legible_scalar hs).2
  | .array items, .array hall, more => by
    rw [tokensOf_array]
    exact .array (items_reread items hall true more)
  | .object members, .object hnames hall, more => by
    rw [tokensOf_object]
    exact .object (members_reread members hnames hall [] (fun _ _ => List.not_mem_nil) more)

theorem items_reread {room : Nat} : ∀ items : List Json, (∀ v ∈ items, Readable room v) →
    ∀ (first : Bool) (more : List Token),
      Items room first (itemsFrom first items ++ more) (rereadItems items) more
  | [], _, _, _ => .done
  | v :: rest, hall, first, more => by
    obtain ⟨hv, hall⟩ := List.forall_mem_cons.mp hall
    rw [itemsFrom, itemTokens_eq, List.append_assoc, List.append_assoc]
    exact .item (value_reread v hv _) (items_reread rest hall false more)

theorem members_reread {room : Nat} : ∀ members : List (String × Json),
    (members.map Prod.fst).Nodup → (∀ m ∈ members, Readable room m.2) →
    ∀ seen : List String, (∀ n ∈ members.map Prod.fst, n ∉ seen) → ∀ more : List Token,
      Members room seen (membersFrom seen.isEmpty members ++ more) (rereadMembers members) more
  | [], _, _, _, _, _ => .done
  | (n, v) :: rest, hnames, hall, seen, hunseen, more => by
    obtain ⟨hv, hall⟩ := List.forall_mem_cons.mp hall
    obtain ⟨hn, hunseen⟩ := List.forall_mem_cons.mp hunseen
    obtain ⟨hfresh, hnames⟩ := List.nodup_cons.mp hnames
    have hrest := members_reread rest hnames hall (n :: seen)
      (fun k hk => mt List.mem_cons.mp (not_or.mpr ⟨fun he => hfresh (he ▸ hk), hunseen k hk⟩)) more
    rw [membersFrom, memberTokens_eq, List.append_assoc, List.append_assoc]
    exact .member hn (value_reread v hv _) hrest

end

end Grammar

/-! ## What drifts -/

mutual

/-- The two values are the same but for floats that drifted. -/
inductive Drifted : Json → Json → Prop where
  | float {x y : Float} :
      Drift x y → Drifted (.scalar (.number (.real x))) (.scalar (.number (.real y)))
  | scalar (s : Scalar) : Drifted (.scalar s) (.scalar s)
  | array {items items' : List Json} :
      ItemsDrifted items items' → Drifted (.array items) (.array items')
  | object {members members' : List (String × Json)} :
      MembersDrifted members members' → Drifted (.object members) (.object members')

/-- The items are the same one by one, but for floats in them that drifted. -/
inductive ItemsDrifted : List Json → List Json → Prop where
  | nil : ItemsDrifted [] []
  | cons {v v' : Json} {rest rest' : List Json} :
      Drifted v v' → ItemsDrifted rest rest' → ItemsDrifted (v :: rest) (v' :: rest')

/-- The members have the same names in the same order, and the same values but for floats that
drifted. -/
inductive MembersDrifted : List (String × Json) → List (String × Json) → Prop where
  | nil : MembersDrifted [] []
  | cons (n : String) {v v' : Json} {rest rest' : List (String × Json)} :
      Drifted v v' → MembersDrifted rest rest' →
        MembersDrifted ((n, v) :: rest) ((n, v') :: rest')

end

theorem drifted_scalar {s : Scalar} (h : Legible s) :
    Drifted (.scalar s) (.scalar (rereadScalar s)) := by
  unfold rereadScalar
  split
  · exact .float (drift_reread h)
  · exact .scalar _

mutual

/-- A value is reread as itself but for floats that drift. -/
theorem drifted_tree : ∀ v : Json, Every Legible v → Drifted v (rereadTree v)
  | .scalar _, .scalar h => drifted_scalar h
  | .array items, .array h => .array (drifted_items items h)
  | .object members, .object h => .object (drifted_members members h)

theorem drifted_items : ∀ items : List Json, (∀ v ∈ items, Every Legible v) →
    ItemsDrifted items (rereadItems items)
  | [], _ => .nil
  | v :: rest, h =>
    have ⟨hv, hrest⟩ := List.forall_mem_cons.mp h
    .cons (drifted_tree v hv) (drifted_items rest hrest)

theorem drifted_members : ∀ members : List (String × Json), (∀ m ∈ members, Every Legible m.2) →
    MembersDrifted members (rereadMembers members)
  | [], _ => .nil
  | (n, v) :: rest, h =>
    have ⟨hv, hrest⟩ := List.forall_mem_cons.mp h
    .cons n (drifted_tree v hv) (drifted_members rest hrest)

end

mutual

/-- A value whose scalars are reread as themselves is reread as itself. -/
theorem rereadTree_eq_self : ∀ v : Json, Every (fun s => rereadScalar s = s) v → rereadTree v = v
  | .scalar _, .scalar h => congrArg Json.scalar h
  | .array items, .array h => congrArg Json.array (rereadItems_eq_self items h)
  | .object members, .object h => congrArg Json.object (rereadMembers_eq_self members h)

theorem rereadItems_eq_self : ∀ items : List Json,
    (∀ v ∈ items, Every (fun s => rereadScalar s = s) v) → rereadItems items = items
  | [], _ => rfl
  | v :: rest, h => by
    obtain ⟨hv, hrest⟩ := List.forall_mem_cons.mp h
    rw [rereadItems, rereadTree_eq_self v hv, rereadItems_eq_self rest hrest]

theorem rereadMembers_eq_self : ∀ members : List (String × Json),
    (∀ m ∈ members, Every (fun s => rereadScalar s = s) m.2) → rereadMembers members = members
  | [], _ => rfl
  | (n, v) :: rest, h => by
    obtain ⟨hv, hrest⟩ := List.forall_mem_cons.mp h
    rw [rereadMembers, rereadTree_eq_self v hv, rereadMembers_eq_self rest hrest]

end

/-- The scalar is no float, or a short one. -/
def Short (s : Scalar) : Prop := ∀ x, s = .number (.real x) → short x = true

theorem rereadScalar_short {s : Scalar} (h : Short s) : rereadScalar s = s := by
  unfold rereadScalar
  split
  · rename_i x
    rw [reread_short (h x rfl)]
  · rfl

/-- A value whose floats are short is reread as itself. -/
theorem rereadTree_short (v : Json) (h : Every Short v) : rereadTree v = v :=
  rereadTree_eq_self v (h.imp fun _ => rereadScalar_short)

/-! ## Documents -/

theorem every_spelled {v : Json} (h : Every Legible v) : Every Spelled v :=
  h.imp fun _ hs => (legible_scalar hs).1

/-- **A readable object is read from its text**, with its floats reread. -/
theorem document_render {members : List (String × Json)}
    (h : Readable Reader.maxDepth (.object members)) :
    Grammar.Document (tokens (Json.object members).render) (rereadTree (.object members)) := by
  have hreread := Grammar.value_reread (.object members) h []
  rw [List.append_nil] at hreread
  refine ⟨?_, rereadMembers members, rfl⟩
  rw [tokens_render (every_spelled h.legible) nofun]
  exact hreread

/-- A document that was read is readable. -/
theorem readable_of_document {text : String} {tree : Json}
    (h : Grammar.Document (tokens text) tree) : Readable Reader.maxDepth tree :=
  (h.1.readable (word_of_tokens text)).1

/-- **What was read as a document and printed is read again**, with its floats reread. -/
theorem document_reread {text : String} {tree : Json} (h : Grammar.Document (tokens text) tree) :
    Every Legible tree ∧ Grammar.Document (tokens tree.render) (rereadTree tree) := by
  have hreadable := readable_of_document h
  obtain ⟨-, members, rfl⟩ := h
  exact ⟨hreadable.legible, document_render hreadable⟩

end VehiclePrivacy.Json
