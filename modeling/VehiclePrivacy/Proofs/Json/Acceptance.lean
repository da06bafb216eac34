import Mathlib.Data.Fintype.EquivFin
import VehiclePrivacy.Proofs.Json.Grammar
import VehiclePrivacy.Proofs.Json.Reading

/-!
# What readers accept

A reader stands between the tokens that it has taken in and those that are to come. `Expects` says in
terms of the grammar what may come, from the open containers and the phase alone. One token more is
one step of the reader (`expects_step`), so a reader comes to the end of exactly the documents
(`done_iff`).

It also gives up no later than it could: a text has failed as soon as no document begins with it
(`failed_iff`), since whatever is open can still be closed. So the first problem in a text stands
where the reader stops, and not before.
-/

namespace VehiclePrivacy.Json

open Grammar

namespace Reader

variable {c : Reader (List Event)} {d : Demands} {stack : List Frame} {ts : List Token}
  {t : Token} {tree v : Json}

/-! ## What a reader expects -/

/-- How many containers may still be opened where so many are open. -/
def room (opened : Nat) : Nat := maxDepth - opened

/-- What closes the open containers to a tree when the innermost hole is filled with a value. -/
def Closes : List Frame → Json → List Token → Json → Prop
  | [], v, ts, tree => ts = [] ∧ v = tree
  | .item _ before :: stack, v, ts, tree =>
    ∃ items rest, Items (room (stack.length + 1)) false ts items rest ∧
      Closes stack (.array (before.reverse ++ v :: items)) rest tree
  | .member before n :: stack, v, ts, tree =>
    ∃ members rest, Members (room (stack.length + 1)) (n :: before.map Prod.fst) ts members rest ∧
      Closes stack (.object (before.reverse ++ (n, v) :: members)) rest tree

/-- A value for the innermost hole, and what closes the containers. The outermost value is an
object. -/
def Fills (stack : List Frame) (ts : List Token) (tree : Json) : Prop :=
  ∃ v rest, Value (room stack.length) ts v rest ∧
    (stack = [] → ∃ members, v = .object members) ∧ Closes stack v rest tree

/-- A member from its name on, a new one, and what closes the containers. -/
def Names (stack : List Frame) (before : List (String × Json)) (ts : List Token) (tree : Json) :
    Prop :=
  ∃ n us, ts = .text (some n) :: .colon :: us ∧ n ∉ before.map Prod.fst ∧
    Fills (.member before n :: stack) us tree

/-- What makes a document of the tokens that a reader has taken in. -/
def Expects (c : Reader (List Event)) (ts : List Token) (tree : Json) : Prop :=
  match c.phase with
  | .value => Fills c.stack ts tree
  | .items count before =>
    ∃ items rest, Items (room (c.stack.length + 1)) (count = 0) ts items rest ∧
      Closes c.stack (.array (before.reverse ++ items)) rest tree
  | .members before =>
    ∃ members rest, Members (room (c.stack.length + 1)) (before.map Prod.fst) ts members rest ∧
      Closes c.stack (.object (before.reverse ++ members)) rest tree
  | .name before => Names c.stack before ts tree
  | .colon before n => ∃ us, ts = .colon :: us ∧ Fills (.member before n :: c.stack) us tree
  | .done v => ts = [] ∧ v = tree
  | .failed _ | .stopped => False

/-- Nothing makes a document of a text that cannot be read. -/
theorem not_expects_fail (f : Fault) : ¬ (c.fail f).Expects ts tree := id

/-- A finished value leaves the containers to be closed. -/
theorem expects_fill (hframes : ∀ f ∈ c.stack, f.Sound) :
    (c.fill v).Expects ts tree ↔ Closes c.stack v ts tree := by
  obtain ⟨evs, stack, phase⟩ := c
  cases stack with
  | nil => rfl
  | cons f stack =>
    cases f with
    | item i before =>
      rw [Closes]
      simp only [fill, Expects, List.reverse_cons, List.append_assoc, List.singleton_append]
      rfl
    | member before n =>
      have hn : n ∉ before.map Prod.fst := (hframes _ List.mem_cons_self).2
      rw [Closes]
      simp only [fill, Expects, putMember_of_notMem hn, List.map_cons, List.reverse_cons,
        List.append_assoc, List.singleton_append]

theorem value_scalar {s : Scalar} (ht : t.scalar = .ok s) :
    c.value d .scribe t = c.scalar d .scribe s := by
  unfold Reader.value
  split
  · cases ht
  · rw [ht]

theorem value_fault {f : Fault} (ht : t.scalar = .error f) (hb : ∀ b, t ≠ .opening b) :
    c.value d .scribe t = c.fail f := by
  unfold Reader.value
  split
  · rename_i b
    exact absurd rfl (hb b)
  · rw [ht]

/-- A scalar fills a hole, but is no document. -/
theorem fills_scalar {s : Scalar} (ht : t.scalar = .ok s) :
    Fills stack (t :: ts) tree ↔ stack ≠ [] ∧ Closes stack (.scalar s) ts tree := by
  refine ⟨fun h => ?_, fun h => ?_⟩
  · obtain ⟨v, rest, hv, hroot, hcloses⟩ := h
    rcases value_cons.mp hv with ⟨s', hs, rfl, rfl⟩ | ⟨_, _, rfl, -⟩ | ⟨_, _, rfl, -⟩
    · obtain rfl : s' = s := Except.ok.inj (hs.symm.trans ht)
      refine ⟨fun hnil => ?_, hcloses⟩
      obtain ⟨members, h⟩ := hroot hnil
      cases h
    · cases ht
    · cases ht
  · obtain ⟨hstack, hcloses⟩ := h
    exact ⟨_, _, .scalar ht, fun hnil => absurd hnil hstack, hcloses⟩

theorem fills_array : Fills stack (.opening .array :: ts) tree ↔
    stack.length < maxDepth ∧ stack ≠ [] ∧ ∃ items rest,
      Items (room (stack.length + 1)) true ts items rest ∧ Closes stack (.array items) rest tree := by
  refine ⟨fun h => ?_, fun h => ?_⟩
  · obtain ⟨v, rest, hv, hroot, hcloses⟩ := h
    rcases value_cons.mp hv with ⟨_, hs, -⟩ | ⟨below, items, -, hroom, rfl, hitems⟩ | ⟨_, _, h, -⟩
    · cases hs
    · have hbelow : below = room (stack.length + 1) := by
        simp only [room] at hroom ⊢
        omega
      have hopen : stack.length < maxDepth := by
        simp only [room] at hroom
        omega
      refine ⟨hopen, fun hnil => ?_, items, rest, hbelow ▸ hitems, hcloses⟩
      obtain ⟨members, h⟩ := hroot hnil
      cases h
    · cases h
  · obtain ⟨hopen, hstack, items, rest, hitems, hcloses⟩ := h
    have hroom : room stack.length = room (stack.length + 1) + 1 := by
      simp only [room]
      omega
    refine ⟨.array items, rest, ?_, fun hnil => absurd hnil hstack, hcloses⟩
    rw [hroom]
    exact .array hitems

theorem fills_object : Fills stack (.opening .object :: ts) tree ↔
    stack.length < maxDepth ∧ ∃ members rest,
      Members (room (stack.length + 1)) [] ts members rest ∧
        Closes stack (.object members) rest tree := by
  refine ⟨fun h => ?_, fun h => ?_⟩
  · obtain ⟨v, rest, hv, -, hcloses⟩ := h
    rcases value_cons.mp hv with ⟨_, hs, -⟩ | ⟨_, _, h, -⟩ | ⟨below, members, -, hroom, rfl, hmembers⟩
    · cases hs
    · cases h
    · have hbelow : below = room (stack.length + 1) := by
        simp only [room] at hroom ⊢
        omega
      have hopen : stack.length < maxDepth := by
        simp only [room] at hroom
        omega
      exact ⟨hopen, members, rest, hbelow ▸ hmembers, hcloses⟩
  · obtain ⟨hopen, members, rest, hmembers, hcloses⟩ := h
    have hroom : room stack.length = room (stack.length + 1) + 1 := by
      simp only [room]
      omega
    refine ⟨.object members, rest, ?_, fun _ => ⟨members, rfl⟩, hcloses⟩
    rw [hroom]
    exact .object hmembers

/-- An opening bracket, with what is expected behind it. -/
theorem opening_cases (ho : d.objectRoot = true) (b : Bracket) :
    (c.opening d .scribe b).Expects ts tree ↔
      c.stack.length < maxDepth ∧ (c.stack = [] → b = .object) ∧
        (c.enter (match b with | .array => .items 0 [] | .object => .members [])).Expects ts tree := by
  unfold Reader.opening
  split
  · rename_i hfull
    exact ⟨fun h => absurd h (not_expects_fail _), fun h => by omega⟩
  · rename_i hopen
    rw [Nat.not_le] at hopen
    split
    · rename_i hroot
      simp only [ho, Bool.true_and, Bool.and_eq_true, List.isEmpty_iff, decide_eq_true_eq] at hroot
      refine ⟨fun h => absurd h (not_expects_fail _), fun h => ?_⟩
      rw [hroot.2] at h
      cases h.2.1 hroot.1
    · rename_i hroot
      simp only [ho, Bool.true_and, Bool.and_eq_true, List.isEmpty_iff, decide_eq_true_eq] at hroot
      have hobject : c.stack = [] → b = .object := fun hnil => by
        cases b with
        | array => exact absurd ⟨hnil, rfl⟩ hroot
        | object => rfl
      exact ⟨fun h => ⟨hopen, hobject, by cases b <;> exact h⟩,
        fun h => by cases b <;> exact h.2.2⟩

/-- A token where a value is expected. -/
theorem fills_cons (ho : d.objectRoot = true) (hframes : ∀ f ∈ c.stack, f.Sound) :
    Fills c.stack (t :: ts) tree ↔ (c.value d .scribe t).Expects ts tree := by
  cases ht : t.scalar with
  | ok s =>
    rw [fills_scalar ht, value_scalar ht]
    unfold Reader.scalar
    split
    · rename_i hroot
      have hnil : c.stack = [] := by simpa [ho] using hroot
      exact ⟨fun h => absurd hnil h.1, fun h => absurd h (not_expects_fail _)⟩
    · rename_i hroot
      have hstack : c.stack ≠ [] := by simpa [ho] using hroot
      have hfill : (fill ⟨c.listening ++ [(c.path, .scalar s)], c.stack, c.phase⟩
          (.scalar s)).Expects ts tree ↔ Closes c.stack (.scalar s) ts tree :=
        expects_fill hframes
      exact ⟨fun h => hfill.mpr h.2, fun h => ⟨hstack, hfill.mp h⟩⟩
  | error f =>
    by_cases hb : ∃ b, t = .opening b
    · obtain ⟨b, rfl⟩ := hb
      show _ ↔ (c.opening d .scribe b).Expects ts tree
      rw [opening_cases ho]
      cases b with
      | array =>
        rw [fills_array]
        refine and_congr_right fun _ => and_congr_left fun _ => ?_
        exact ⟨fun h hnil => absurd hnil h, fun h hnil => by cases h hnil⟩
      | object =>
        rw [fills_object]
        exact and_congr_right fun _ => ⟨fun h => ⟨fun _ => rfl, h⟩, fun h => h.2⟩
    · rw [value_fault ht fun b h => hb ⟨b, h⟩]
      refine ⟨fun ⟨v, rest, hv, _⟩ => ?_, fun h => absurd h (not_expects_fail f)⟩
      rcases value_cons.mp hv with ⟨s, hs, -⟩ | ⟨_, _, h, -⟩ | ⟨_, _, h, -⟩
      · cases ht.symm.trans hs
      · exact absurd ⟨_, h⟩ hb
      · exact absurd ⟨_, h⟩ hb

/-- A token where a member name is expected. -/
theorem names_cons (hd : d.distinctNames = true) {before : List (String × Json)} :
    Names c.stack before (t :: ts) tree ↔ (c.memberName d before t).Expects ts tree := by
  have hfault : ∀ f, (∀ n, t ≠ .text (some n)) →
      (Names c.stack before (t :: ts) tree ↔ (c.fail f).Expects ts tree) := by
    intro f ht
    refine ⟨fun h => ?_, fun h => absurd h (not_expects_fail f)⟩
    obtain ⟨n, us, h, -⟩ := h
    exact absurd (List.cons.inj h).1 (ht n)
  unfold memberName
  split
  · rename_i n
    split
    · rename_i hn
      simp only [hd, Bool.true_and, any_name] at hn
      refine ⟨fun h => ?_, fun h => absurd h (not_expects_fail _)⟩
      obtain ⟨m, us, h, hm, -⟩ := h
      obtain ⟨hname, -⟩ := List.cons.inj h
      obtain rfl : n = m := by simpa using hname
      exact absurd hn hm
    · rename_i hn
      simp only [hd, Bool.true_and, any_name] at hn
      refine ⟨fun h => ?_, fun h => ?_⟩
      · obtain ⟨m, us, h, hm, hfills⟩ := h
        obtain ⟨hname, hus⟩ := List.cons.inj h
        obtain rfl : n = m := by simpa using hname
        exact ⟨us, hus, hfills⟩
      · obtain ⟨us, rfl, hfills⟩ := h
        exact ⟨n, us, rfl, hn, hfills⟩
  · exact hfault _ nofun
  · exact hfault _ nofun
  · rename_i hname _ _
    exact hfault _ fun n hn => hname n hn

theorem fills_item {i : Nat} {before : List Json} :
    Fills (.item i before :: stack) ts tree ↔ ∃ v more items rest,
      Value (room (stack.length + 1)) ts v more ∧
        Items (room (stack.length + 1)) false more items rest ∧
          Closes stack (.array (before.reverse ++ v :: items)) rest tree := by
  refine ⟨fun h => ?_, fun h => ?_⟩
  · obtain ⟨v, more, hv, -, items, rest, hitems, hcloses⟩ := h
    exact ⟨v, more, items, rest, hv, hitems, hcloses⟩
  · obtain ⟨v, more, items, rest, hv, hitems, hcloses⟩ := h
    exact ⟨v, more, hv, nofun, items, rest, hitems, hcloses⟩

theorem fills_member {before : List (String × Json)} {n : String} :
    Fills (.member before n :: stack) ts tree ↔ ∃ v more members rest,
      Value (room (stack.length + 1)) ts v more ∧
        Members (room (stack.length + 1)) (n :: before.map Prod.fst) more members rest ∧
          Closes stack (.object (before.reverse ++ (n, v) :: members)) rest tree := by
  refine ⟨fun h => ?_, fun h => ?_⟩
  · obtain ⟨v, more, hv, -, members, rest, hmembers, hcloses⟩ := h
    exact ⟨v, more, members, rest, hv, hmembers, hcloses⟩
  · obtain ⟨v, more, members, rest, hv, hmembers, hcloses⟩ := h
    exact ⟨v, more, hv, nofun, members, rest, hmembers, hcloses⟩

/-- A token in an array. -/
theorem items_step (ho : d.objectRoot = true) {evs : List Event} {count : Nat}
    {before : List Json} (hbefore : SoundItems count before) (hframes : ∀ f ∈ stack, f.Sound) :
    (⟨evs, stack, .items count before⟩ : Reader (List Event)).Expects (t :: ts) tree ↔
      (step d .scribe ⟨evs, stack, .items count before⟩ t).Expects ts tree := by
  simp only [step]
  by_cases ht : t = .closing .array
  · subst ht
    rw [if_pos rfl, expects_fill (c := ⟨evs, stack, _⟩) hframes]
    refine ⟨fun h => ?_, fun hcloses => ?_⟩
    · obtain ⟨items, rest, hitems, hcloses⟩ := h
      obtain ⟨rfl, rfl⟩ := items_closing.mp hitems
      rwa [List.append_nil] at hcloses
    · refine ⟨[], ts, items_closing.mpr ⟨rfl, rfl⟩, ?_⟩
      rwa [List.append_nil]
  rw [if_neg ht]
  by_cases hcount : count = 0
  · -- the first item needs no comma, and its container is put on the stack with it
    have hnil : before = [] := List.length_eq_zero_iff.mp (hbefore.1.symm.trans hcount)
    subst hcount hnil
    have hempty : (Frame.item 0 []).Sound := ⟨rfl, by simp⟩
    rw [if_pos rfl, ← fills_cons (c := ⟨evs, .item 0 [] :: stack, _⟩) ho
      (List.forall_mem_cons.mpr ⟨hempty, hframes⟩), fills_item]
    refine ⟨fun h => ?_, fun h => ?_⟩
    · obtain ⟨items, rest, hitems, hcloses⟩ := h
      obtain ⟨v, more, tail, rfl, hv, hmore⟩ := (items_first ht).mp hitems
      exact ⟨v, more, tail, rest, hv, hmore, hcloses⟩
    · obtain ⟨v, more, tail, rest, hv, hmore, hcloses⟩ := h
      exact ⟨v :: tail, rest, (items_first ht).mpr ⟨v, more, tail, rfl, hv, hmore⟩, hcloses⟩
  · have hfirst : decide (count = 0) = false := decide_eq_false hcount
    have hitems : (⟨evs, stack, .items count before⟩ : Reader (List Event)).Expects (t :: ts) tree ↔
        t = .comma ∧ Fills (.item count before :: stack) ts tree := by
      rw [fills_item]
      refine ⟨fun h => ?_, fun h => ?_⟩
      · obtain ⟨items, rest, hitems, hcloses⟩ := h
        rw [hfirst, items_next ht] at hitems
        obtain ⟨hcomma, v, more, tail, rfl, hv, hmore⟩ := hitems
        exact ⟨hcomma, v, more, tail, rest, hv, hmore, hcloses⟩
      · obtain ⟨hcomma, v, more, tail, rest, hv, hmore, hcloses⟩ := h
        refine ⟨v :: tail, rest, ?_, hcloses⟩
        rw [hfirst, items_next ht]
        exact ⟨hcomma, v, more, tail, rfl, hv, hmore⟩
    rw [if_neg hcount, hitems]
    by_cases hcomma : t = .comma
    · rw [if_pos hcomma]
      exact ⟨fun h => h.2, fun h => ⟨hcomma, h⟩⟩
    · rw [if_neg hcomma]
      exact ⟨fun h => absurd h.1 hcomma, fun h => absurd h (not_expects_fail _)⟩

/-- What is expected in an object, where its end does not come yet. -/
theorem expects_members {evs : List Event} {before : List (String × Json)}
    (ht : t ≠ .closing .object) :
    (⟨evs, stack, .members before⟩ : Reader (List Event)).Expects (t :: ts) tree ↔
      if before.isEmpty then Names stack before (t :: ts) tree
      else t = .comma ∧ Names stack before ts tree := by
  have hseen : (before.map Prod.fst).isEmpty = before.isEmpty := List.isEmpty_map
  have hmembers : (⟨evs, stack, .members before⟩ : Reader (List Event)).Expects (t :: ts) tree ↔
      ∃ us, t :: ts = separator before.isEmpty ++ us ∧ Names stack before us tree := by
    refine ⟨fun h => ?_, fun h => ?_⟩
    · obtain ⟨members, rest, hmembers, hcloses⟩ := h
      obtain ⟨n, us, v, more, tail, hts, hn, rfl, hv, hmore⟩ := (members_cons ht).mp hmembers
      rw [hseen] at hts
      exact ⟨_, hts, n, us, rfl, hn, fills_member.mpr ⟨v, more, tail, rest, hv, hmore, hcloses⟩⟩
    · obtain ⟨_, hts, n, us, rfl, hn, hfills⟩ := h
      obtain ⟨v, more, tail, rest, hv, hmore, hcloses⟩ := fills_member.mp hfills
      refine ⟨(n, v) :: tail, rest, (members_cons ht).mpr ?_, hcloses⟩
      rw [hseen]
      exact ⟨n, us, v, more, tail, hts, hn, rfl, hv, hmore⟩
  rw [hmembers]
  cases before.isEmpty with
  | true => exact ⟨fun ⟨us, h, hnames⟩ => by rwa [h], fun h => ⟨_, rfl, h⟩⟩
  | false =>
    refine ⟨fun h => ?_, fun h => ?_⟩
    · obtain ⟨us, h, hnames⟩ := h
      obtain ⟨rfl, rfl⟩ := List.cons.inj h
      exact ⟨rfl, hnames⟩
    · obtain ⟨rfl, hnames⟩ := h
      exact ⟨ts, rfl, hnames⟩

/-- A token in an object. -/
theorem members_step (hd : d.distinctNames = true) {evs : List Event}
    {before : List (String × Json)} (hframes : ∀ f ∈ stack, f.Sound) :
    (⟨evs, stack, .members before⟩ : Reader (List Event)).Expects (t :: ts) tree ↔
      (step d .scribe ⟨evs, stack, .members before⟩ t).Expects ts tree := by
  simp only [step]
  by_cases ht : t = .closing .object
  · subst ht
    rw [if_pos rfl, expects_fill (c := ⟨evs, stack, _⟩) hframes]
    refine ⟨fun h => ?_, fun hcloses => ?_⟩
    · obtain ⟨members, rest, hmembers, hcloses⟩ := h
      obtain ⟨rfl, rfl⟩ := members_closing.mp hmembers
      rwa [List.append_nil] at hcloses
    · refine ⟨[], ts, members_closing.mpr ⟨rfl, rfl⟩, ?_⟩
      rwa [List.append_nil]
  rw [if_neg ht, expects_members ht]
  by_cases hempty : before.isEmpty = true
  · rw [if_pos hempty, if_pos hempty]
    exact names_cons (c := ⟨evs, stack, .members before⟩) hd
  · rw [if_neg hempty, if_neg hempty]
    by_cases hcomma : t = .comma
    · rw [if_pos hcomma]
      exact ⟨fun h => h.2, fun h => ⟨hcomma, h⟩⟩
    · rw [if_neg hcomma]
      exact ⟨fun h => absurd h.1 hcomma, fun h => absurd h (not_expects_fail _)⟩

/-- **Step.** What a reader expects with a token in front is what it expects after the token. -/
theorem expects_step (hd : d.distinctNames = true) (ho : d.objectRoot = true) (hc : Recounts c) :
    c.Expects (t :: ts) tree ↔ (c.step d .scribe t).Expects ts tree := by
  obtain ⟨evs, stack, phase⟩ := c
  obtain ⟨-, hframes, hphase, -⟩ := hc
  cases phase with
  | value => exact fills_cons ho hframes
  | items count before => exact items_step ho hphase hframes
  | members before => exact members_step hd hframes
  | name before => exact names_cons hd
  | colon before n =>
    simp only [step]
    by_cases ht : t = .colon
    · rw [if_pos ht]
      refine ⟨fun h => ?_, fun hfills => ?_⟩
      · obtain ⟨us, h, hfills⟩ := h
        rwa [(List.cons.inj h).2]
      · exact ⟨ts, by rw [ht], hfills⟩
    · rw [if_neg ht]
      refine ⟨fun h => ?_, fun h => absurd h (not_expects_fail _)⟩
      obtain ⟨us, h, -⟩ := h
      exact absurd (List.cons.inj h).1 ht
  | done v =>
    refine ⟨fun h => ?_, fun h => absurd h (not_expects_fail _)⟩
    exact absurd h.1 (List.cons_ne_nil t ts)
  | failed f => exact Iff.rfl
  | stopped => exact Iff.rfl

/-- At the end of the text nothing more is expected only if the value is complete. -/
theorem expects_nil : c.Expects [] tree ↔ c.phase = .done tree := by
  obtain ⟨evs, stack, phase⟩ := c
  have hfills : ¬ Fills stack [] tree := fun ⟨_, _, hv, _⟩ => not_value_nil hv
  cases phase with
  | value => exact ⟨fun h => absurd h hfills, nofun⟩
  | items count before => exact ⟨fun ⟨_, _, h, _⟩ => absurd h not_items_nil, nofun⟩
  | members before => exact ⟨fun ⟨_, _, h, _⟩ => absurd h not_members_nil, nofun⟩
  | name before => exact ⟨nofun, nofun⟩
  | colon before n => exact ⟨nofun, nofun⟩
  | done v => simp [Expects]
  | failed f => exact ⟨nofun, nofun⟩
  | stopped => exact ⟨nofun, nofun⟩

/-- **Run.** A reader comes to the end of a document exactly on what it expects. -/
theorem expects_iff (hd : d.distinctNames = true) (ho : d.objectRoot = true) (hc : Going c)
    (ts : List Token) : c.Expects ts tree ↔ (c.run d .scribe ts).phase = .done tree := by
  induction ts generalizing c with
  | nil => exact expects_nil
  | cons t ts ih =>
    have hstep : c.Expects (t :: ts) tree ↔ (c.step d .scribe t).Expects ts tree := by
      rcases hc with ⟨f, hf⟩ | hc
      · have hnone : ∀ {ts}, ¬ c.Expects ts tree := by
          unfold Expects
          rw [hf]
          exact id
        have hstays : c.step d .scribe t = c := by
          unfold step
          rw [hf]
        rw [hstays]
        exact ⟨fun h => absurd h hnone, fun h => absurd h hnone⟩
      · exact expects_step hd ho hc
    exact hstep.trans (ih (going_step hd hc t))

/-- At the start a document is expected. -/
theorem expects_start : (start []).Expects ts tree ↔ Document ts tree := by
  refine ⟨fun h => ?_, fun h => ?_⟩
  · obtain ⟨v, rest, hv, hroot, rfl, rfl⟩ := h
    exact ⟨hv, hroot rfl⟩
  · obtain ⟨hv, hroot⟩ := h
    exact ⟨tree, [], hv, fun _ => hroot, rfl, rfl⟩

/-! ## Coming to an end -/

/-- What closes the open containers at once. -/
def closers : List Frame → List Token :=
  List.map fun
    | .item _ _ => .closing .array
    | .member _ _ => .closing .object

/-- A reader comes to an end of the document with some more events. -/
def Ends (d : Demands) (c : Reader (List Event)) (more : List Token) (evs : List Event) : Prop :=
  ∃ tree, (c.run d .scribe more).phase = .done tree ∧
    (c.run d .scribe more).listening = c.listening ++ evs

theorem Ends.cons {more : List Token} {evs : List Event}
    (h : (c.step d .scribe t).Ends d more evs)
    (hquiet : (c.step d .scribe t).listening = c.listening) : c.Ends d (t :: more) evs := by
  obtain ⟨tree, hdone, htold⟩ := h
  rw [hquiet] at htold
  exact ⟨tree, hdone, htold⟩

/-- The containers can be closed around any value, and nothing is told of that. -/
theorem ends_fill (d : Demands) (c : Reader (List Event)) (v : Json) :
    (c.fill v).Ends d (closers c.stack) [] := by
  obtain ⟨evs, stack, phase⟩ := c
  -- the innermost container is closed first, and is then the value to close the others around
  induction stack generalizing phase v with
  | nil => exact ⟨v, rfl, (List.append_nil evs).symm⟩
  | cons f stack ih =>
    cases f with
    | item i before =>
      have hrest := ih (.array (v :: before).reverse) (.items (i + 1) (v :: before))
      exact hrest.cons (c := ⟨evs, stack, _⟩) (t := .closing .array) (fill_listening _ _)
    | member before n =>
      have hrest := ih (.object (putMember n v before).reverse) (.members (putMember n v before))
      exact hrest.cons (c := ⟨evs, stack, _⟩) (t := .closing .object) (fill_listening _ _)

/-- A scalar fills a hole, and the containers can be closed around it. -/
theorem ends_scalar (d : Demands) {c : Reader (List Event)} (hphase : c.phase = .value)
    (hstack : c.stack ≠ []) (b : Bool) :
    c.Ends d (.word (.bool b) :: closers c.stack) [(c.path, .scalar (.bool b))] := by
  obtain ⟨tree, hdone, htold⟩ := ends_fill d
    ⟨c.listening ++ [(c.path, .scalar (.bool b))], c.stack, c.phase⟩ (.scalar (.bool b))
  have hroot : (d.objectRoot && c.stack.isEmpty) = false := by simp [hstack]
  have hstep : c.step d .scribe (.word (.bool b)) =
      fill ⟨c.listening ++ [(c.path, .scalar (.bool b))], c.stack, c.phase⟩
        (.scalar (.bool b)) := by
    unfold step
    rw [hphase]
    show c.scalar d .scribe (.bool b) = _
    rw [scalar, hroot, if_neg Bool.false_ne_true]
    rfl
  refine ⟨tree, ?_, ?_⟩
  · show ((c.step d .scribe _).run d .scribe _).phase = _
    rw [hstep, hdone]
  · show ((c.step d .scribe _).run d .scribe _).listening = _
    rw [hstep, htold]
    simp

/-- A member can be given any truth value. -/
theorem ends_colon (d : Demands) {evs : List Event} {before : List (String × Json)} {n : String}
    (b : Bool) :
    (⟨evs, stack, .colon before n⟩ : Reader (List Event)).Ends d
      (.colon :: .word (.bool b) :: closers (.member before n :: stack))
      [(pathOf (.member before n :: stack), .scalar (.bool b))] :=
  have hscalar := ends_scalar d (c := ⟨evs, .member before n :: stack, .value⟩) rfl
    (List.cons_ne_nil _ _) b
  hscalar.cons rfl

/-- A text that has not failed can go on to a document. What has to be told on the way is nothing,
or the document itself, or a value in the place where the text breaks off, and any truth value is
one. -/
theorem exists_ends (d : Demands) (hc : ∀ f, c.phase ≠ .failed f) (hs : c.phase ≠ .stopped) :
    (∃ more evs, c.Ends d more evs ∧ (evs = [] ∨ evs = [([], .opening .object)])) ∨
      ∃ p, ∀ b, ∃ more, c.Ends d more [(p, .scalar (.bool b))] := by
  obtain ⟨evs, stack, phase⟩ := c
  cases phase with
  | value =>
    cases stack with
    | nil =>
      refine .inl ⟨[.opening .object, .closing .object], _, ⟨.object [], ?_, ?_⟩, .inr rfl⟩ <;>
        rcases d with ⟨_, _ | _⟩ <;> rfl
    | cons f stack =>
      exact .inr ⟨_, fun b => ⟨_, ends_scalar d rfl (List.cons_ne_nil f stack) b⟩⟩
  | items count before =>
    have hclosed := ends_fill d ⟨evs, stack, .items count before⟩ (.array before.reverse)
    exact .inl ⟨.closing .array :: closers stack, [], hclosed.cons (fill_listening _ _), .inl rfl⟩
  | members before =>
    have hclosed := ends_fill d ⟨evs, stack, .members before⟩ (.object before.reverse)
    exact .inl ⟨.closing .object :: closers stack, [], hclosed.cons (fill_listening _ _), .inl rfl⟩
  | name before =>
    obtain ⟨n, hn⟩ := Infinite.exists_notMem_finset (before.map Prod.fst).toFinset
    rw [List.mem_toFinset] at hn
    have hnew : (d.distinctNames && before.any fun m => m.1 == n) = false := by
      rw [Bool.and_eq_false_iff, ← Bool.not_eq_true (before.any _), any_name]
      exact .inr hn
    have hname : (⟨evs, stack, .name before⟩ : Reader (List Event)).step d .scribe
        (.text (some n)) = ⟨evs, stack, .colon before n⟩ := by
      show memberName d _ before (.text (some n)) = _
      rw [memberName, hnew]
      rfl
    have hcolon : ∀ b, Ends d ⟨evs, stack, .name before⟩ _ _ := fun b =>
      Ends.cons (hname ▸ ends_colon d b) (hname ▸ rfl)
    exact .inr ⟨_, fun b => ⟨_, hcolon b⟩⟩
  | colon before n => exact .inr ⟨_, fun b => ⟨_, ends_colon d b⟩⟩
  | done v => exact .inl ⟨[], [], ⟨v, rfl, (List.append_nil evs).symm⟩, .inl rfl⟩
  | failed f => exact absurd rfl (hc f)
  | stopped => exact absurd rfl hs

/-- The scribe never has enough. -/
theorem scribe_goes_on (hs : c.phase ≠ .stopped) (ts : List Token) :
    (c.run d .scribe ts).phase ≠ .stopped := by
  intro h
  have := stopsFor_run (d := d) (l := .scribe) (fun h => absurd h hs) ts h
  cases this

/-- A document is what takes a reader from the start over any beginning to its end. -/
theorem document_append_iff (hd : d.distinctNames = true) (ho : d.objectRoot = true)
    (ts more : List Token) (tree : Json) : Document (ts ++ more) tree ↔
      (((start []).run d .scribe ts).run d .scribe more).phase = .done tree := by
  rw [← expects_start, expects_iff hd ho going_start, run_append]

/--
**A reader gives up at the first token that rules a document out.** It has failed after some tokens
exactly if no document begins with them.
-/
theorem failed_iff (hd : d.distinctNames = true) (ho : d.objectRoot = true) (ts : List Token) :
    (∃ f, ((start []).run d .scribe ts).phase = .failed f) ↔ ¬ Begins ts := by
  have hdone := document_append_iff hd ho ts
  simp only [Begins, hdone]
  refine ⟨fun hfailed hmore => ?_, fun h => ?_⟩
  · obtain ⟨f, hf⟩ := hfailed
    obtain ⟨more, tree, h⟩ := hmore
    rw [run_failed hf, hf] at h
    cases h
  · by_contra hf
    rw [not_exists] at hf
    have hgoes := scribe_goes_on (d := d) (show (start []).phase ≠ .stopped from nofun) ts
    rcases exists_ends d hf hgoes with ⟨more, evs, ⟨tree, hend, -⟩, -⟩ | ⟨p, hp⟩
    · exact h ⟨more, tree, hend⟩
    · obtain ⟨more, tree, hend, -⟩ := hp true
      exact h ⟨more, tree, hend⟩

/-! ## What is told on the way -/

/-- More tokens tell more. -/
theorem listening_append (c : Reader (List Event)) (ts more : List Token) :
    (c.run d .scribe ts).listening <+: (c.run d .scribe (ts ++ more)).listening := by
  rw [run_append]
  generalize c.run d .scribe ts = c
  induction more generalizing c with
  | nil => exact List.prefix_rfl
  | cons t more ih =>
    obtain ⟨evs, hevs⟩ := scribe_step d c t
    have hstep : c.listening <+: (c.step d .scribe t).listening := ⟨evs, hevs.symm⟩
    exact hstep.trans (ih (c.step d .scribe t))

/-- A text that begins a document tells the beginning of what the document tells. -/
theorem listening_of_document (hd : d.distinctNames = true) (ho : d.objectRoot = true)
    {more : List Token} (h : Document (ts ++ more) tree) :
    ((start []).run d .scribe ts).listening <+: events [] tree := by
  rw [← expects_start, expects_iff hd ho going_start] at h
  rw [← (listening_run hd h).1]
  exact listening_append _ ts more

theorem Ends.document (hd : d.distinctNames = true) (ho : d.objectRoot = true) {more : List Token}
    {evs : List Event} (h : ((start []).run d .scribe ts).Ends d more evs) :
    ∃ tree, Document (ts ++ more) tree ∧
      events [] tree = ((start []).run d .scribe ts).listening ++ evs := by
  obtain ⟨tree, hdone, htold⟩ := h
  refine ⟨tree, (document_append_iff hd ho ts more tree).mpr hdone, ?_⟩
  rw [← run_append] at hdone htold
  rw [← (listening_run hd hdone).1, htold]

/-- Documents with the same beginning may differ in what comes next: a text that begins a document
begins one that tells no more but of itself, or two that tell of different values. -/
theorem documents_apart (hd : d.distinctNames = true) (ho : d.objectRoot = true)
    (h : Begins ts) :
    (∃ more tree evs, Document (ts ++ more) tree ∧
        events [] tree = ((start []).run d .scribe ts).listening ++ evs ∧
        (evs = [] ∨ evs = [([], .opening .object)])) ∨
      ∃ p, ∀ b, ∃ more tree, Document (ts ++ more) tree ∧
        events [] tree = ((start []).run d .scribe ts).listening ++ [(p, .scalar (.bool b))] := by
  have hgoes := scribe_goes_on (d := d) (show (start []).phase ≠ .stopped from nofun) ts
  have hgood : ∀ f, ((start []).run d .scribe ts).phase ≠ .failed f :=
    fun f hf => (failed_iff hd ho ts).mp ⟨f, hf⟩ h
  rcases exists_ends d hgood hgoes with ⟨more, evs, hends, hevs⟩ | ⟨p, hp⟩
  · obtain ⟨tree, hdocument, htold⟩ := hends.document hd ho
    exact .inl ⟨more, tree, evs, hdocument, htold, hevs⟩
  · refine .inr ⟨p, fun b => ?_⟩
    obtain ⟨more, hends⟩ := hp b
    obtain ⟨tree, hdocument, htold⟩ := hends.document hd ho
    exact ⟨more, tree, hdocument, htold⟩

/-- From the token on that rules a document out, nothing is told any more. -/
theorem listening_breaks (hd : d.distinctNames = true) (ho : d.objectRoot = true)
    {before rest : List Token} (h : Breaks ts before rest) :
    ((start []).run d .scribe ts).listening = ((start []).run d .scribe before).listening := by
  rw [h.split]
  cases rest with
  | nil => rw [List.append_nil]
  | cons t rest =>
    obtain ⟨f, hf⟩ := (failed_iff hd ho (before ++ [t])).mpr (h.stuck t rest rfl)
    rw [List.append_cons, run_append, run_failed hf]
    rw [run_append] at hf ⊢
    rcases writes_step d ((start []).run d .scribe before) t with hquiet | ⟨e, -, hgoes⟩
    · exact hquiet
    · exact absurd hf (hgoes f)

end Reader

/-- A text is read as a document exactly if its tokens are one. -/
theorem done_iff {d : Demands} (hd : d.distinctNames = true) (ho : d.objectRoot = true)
    {text : String} {tree : Json} :
    (scribed d text).phase = .done tree ↔ Document (tokens text) tree := by
  rw [scribed, ← Reader.expects_iff hd ho Reader.going_start, Reader.expects_start]

/-- What a reader reads as a value is a document. -/
theorem read_iff {d : Demands} (hd : d.distinctNames = true) (ho : d.objectRoot = true)
    {text : String} {tree : Json} :
    read d .idle () text = ((), .value tree) ↔ Document (tokens text) tree := by
  rw [← done_iff hd ho]
  exact ⟨fun h => (scribed_of_read rfl h).1, read_idle⟩

end VehiclePrivacy.Json
