import VehiclePrivacy.Proofs.Json.Hearing
import VehiclePrivacy.Proofs.Json.Structure

/-!
# What a reading yields

A reader that insists on distinct names ends with a value without repeated names, and what its
listener was told is that value in document order. Both follow from one invariant of the scribe's
reader, `Recounts`: what it has written is told by the open containers and the phase, and nothing
in either repeats a name.

The main statements are about whole texts. `read_eq_heed` says how a reading with any listener
ends where one without a listener ends with a value, `idle_of_read` is the way back, and
`parse_of_read` says that a reader that insists on more reads the same value.
-/

namespace VehiclePrivacy.Json

/-! ## What open containers tell -/

/-- The bracket that opened a container, and what was told of its parts so far. -/
def Frame.told (path : Path) : Frame → List Event
  | .item _ before => (path, .opening .array) :: itemEvents path 0 before.reverse
  | .member before _ => (path, .opening .object) :: memberEvents path before.reverse

/-- The path of the innermost hole of a stack. -/
def Reader.pathOf (stack : List Frame) : Path := (stack.map Frame.step).reverse

/-- What was told of the open containers, the outermost first. -/
def toldByStack : List Frame → List Event
  | [] => []
  | f :: stack => toldByStack stack ++ f.told (Reader.pathOf stack)

/-- What was told of the container or the value at hand. -/
def Phase.told (path : Path) : Phase → List Event
  | .items _ before => (path, .opening .array) :: itemEvents path 0 before.reverse
  | .members before | .name before | .colon before _ =>
    (path, .opening .object) :: memberEvents path before.reverse
  | .done v => events path v
  | .value | .failed _ | .stopped => []

/-- Items read so far, last first: they are counted, and none repeats a name. -/
def SoundItems (count : Nat) (before : List Json) : Prop :=
  count = before.length ∧ ∀ v ∈ before, Distinct v

/-- Members read so far, last first: none has the name of another, and none repeats a name. -/
def SoundMembers (before : List (String × Json)) : Prop :=
  (before.map Prod.fst).Nodup ∧ ∀ m ∈ before, Distinct m.2

/-- A container with a hole whose name, if it has one, is new. -/
def Frame.Sound : Frame → Prop
  | .item i before => SoundItems i before
  | .member before n => SoundMembers before ∧ n ∉ before.map Prod.fst

/-- A phase in which no name is repeated. -/
def Phase.Sound : Phase → Prop
  | .items count before => SoundItems count before
  | .members before | .name before => SoundMembers before
  | .colon before n => SoundMembers before ∧ n ∉ before.map Prod.fst
  | .done v => Distinct v
  | .value | .failed _ | .stopped => True

namespace Reader

/-- What the scribe has written is what the open containers and the phase tell. -/
structure Recounts (c : Reader (List Event)) : Prop where
  written : c.listening = toldByStack c.stack ++ c.phase.told (pathOf c.stack)
  frames : ∀ f ∈ c.stack, f.Sound
  phase : c.phase.Sound
  /-- A finished value stands outside all containers. -/
  closed : ∀ v, c.phase = .done v → c.stack = []

/-- A reading that has failed, or whose scribe has written what there is to tell. -/
def Going (c : Reader (List Event)) : Prop := (∃ f, c.phase = .failed f) ∨ Recounts c

theorem pathOf_cons (f : Frame) (stack : List Frame) :
    pathOf (f :: stack) = pathOf stack ++ [f.step] := by
  simp [pathOf]

theorem any_name {before : List (String × Json)} {n : String} :
    (before.any fun m => m.1 == n) = true ↔ n ∈ before.map Prod.fst := by
  simp only [List.any_eq_true, beq_iff_eq, List.mem_map]

/-- A member of a new name replaces none. -/
theorem putMember_of_notMem {before : List (String × Json)} {n : String} {v : Json}
    (hn : n ∉ before.map Prod.fst) : putMember n v before = (n, v) :: before := by
  rw [putMember, if_neg ((not_congr any_name).mpr hn)]

theorem going_fail (c : Reader (List Event)) (f : Fault) : Going (c.fail f) := .inl ⟨f, rfl⟩

/-- A finished value fills the innermost hole. -/
theorem going_fill {c : Reader (List Event)} {v : Json} (hv : Distinct v)
    (hframes : ∀ f ∈ c.stack, f.Sound)
    (hwritten : c.listening = toldByStack c.stack ++ events (pathOf c.stack) v) :
    Going (c.fill v) := by
  obtain ⟨evs, stack, phase⟩ := c
  refine .inr ?_
  cases stack with
  | nil => exact ⟨hwritten, by simp [fill, enter], hv, fun _ _ => rfl⟩
  | cons f stack =>
    have hrest : ∀ f ∈ stack, f.Sound := fun g hg => hframes g (List.mem_cons_of_mem _ hg)
    have hf := hframes f List.mem_cons_self
    have hevs : evs = toldByStack stack ++ (f.told (pathOf stack) ++
        events (pathOf stack ++ [f.step]) v) := by
      rw [← List.append_assoc, ← pathOf_cons]
      exact hwritten
    cases f with
    | item i before =>
      obtain ⟨rfl, hitems⟩ := hf
      refine ⟨?_, hrest, ⟨rfl, ?_⟩, by simp [fill]⟩
      · show evs = toldByStack stack ++ (_ :: itemEvents (pathOf stack) 0 (v :: before).reverse)
        rw [List.reverse_cons, itemEvents_snoc, List.length_reverse, hevs]
        rfl
      · exact List.forall_mem_cons.mpr ⟨hv, hitems⟩
    | member before n =>
      obtain ⟨⟨hnames, hmembers⟩, hn⟩ := hf
      have hput : putMember n v before = (n, v) :: before := putMember_of_notMem hn
      have hfill : (⟨evs, .member before n :: stack, phase⟩ : Reader (List Event)).fill v =
          ⟨evs, stack, .members ((n, v) :: before)⟩ := by
        rw [← hput]
        rfl
      rw [hfill]
      refine ⟨?_, hrest, ⟨?_, ?_⟩, by simp⟩
      · show evs = toldByStack stack ++
          (_ :: memberEvents (pathOf stack) ((n, v) :: before).reverse)
        rw [List.reverse_cons, memberEvents_snoc, hevs]
        rfl
      · exact List.nodup_cons.mpr ⟨hn, hnames⟩
      · exact List.forall_mem_cons.mpr ⟨hv, hmembers⟩

/-- A token where a value is expected. -/
theorem going_value (d : Demands) {c : Reader (List Event)} (hframes : ∀ f ∈ c.stack, f.Sound)
    (hwritten : c.listening = toldByStack c.stack) (t : Token) :
    Going (c.value d .scribe t) := by
  obtain ⟨evs, stack, phase⟩ := c
  obtain rfl : evs = toldByStack stack := hwritten
  unfold Reader.value
  split
  · unfold Reader.opening
    split
    · exact going_fail _ _
    · split
      · exact going_fail _ _
      · refine .inr ?_
        rename_i b _ _
        cases b with
        | array => exact ⟨rfl, hframes, ⟨rfl, by simp⟩, by intro v hv; cases hv⟩
        | object => exact ⟨rfl, hframes, ⟨.nil, by simp⟩, by intro v hv; cases hv⟩
  · split
    · unfold Reader.scalar
      split
      · exact going_fail _ _
      · exact going_fill (c := ⟨_, stack, phase⟩) (.scalar _) hframes rfl
    · exact going_fail _ _

/-- A token where a member name is expected, to readers that insist on distinct names. -/
theorem going_memberName {d : Demands} (hd : d.distinctNames = true) {c : Reader (List Event)}
    {before : List (String × Json)} (hframes : ∀ f ∈ c.stack, f.Sound)
    (hbefore : SoundMembers before)
    (hwritten : c.listening = toldByStack c.stack ++ (Phase.name before).told (pathOf c.stack))
    (t : Token) : Going (c.memberName d before t) := by
  unfold memberName
  split
  · rename_i n
    split
    · exact going_fail _ _
    · rename_i hnew
      refine .inr ⟨hwritten, hframes, ⟨hbefore, ?_⟩, by intro v hv; cases hv⟩
      intro hn
      refine hnew ?_
      rw [hd, Bool.true_and, any_name]
      exact hn
  all_goals exact going_fail _ _

/-- One token keeps the invariant. -/
theorem going_step {d : Demands} (hd : d.distinctNames = true) {c : Reader (List Event)}
    (hc : Going c) (t : Token) : Going (c.step d .scribe t) := by
  rcases hc with ⟨f, hf⟩ | hc
  · refine .inl ⟨f, ?_⟩
    unfold step
    rw [hf]
    exact hf
  -- what the open containers and the phase tell after the token, phase by phase
  obtain ⟨evs, stack, phase⟩ := c
  obtain ⟨hwritten, hframes, hphase, hclosed⟩ := hc
  cases phase with
  | value => exact going_value d hframes (hwritten.trans (List.append_nil _)) t
  | items count before =>
    simp only [step]
    split
    · refine going_fill (.array ?_) hframes hwritten
      intro v hv
      exact hphase.2 v (List.mem_reverse.mp hv)
    · split
      · -- the first item: its container is open, and nothing was told of its parts
        rename_i hcount
        have hnil : before = [] := List.length_eq_zero_iff.mp (hphase.1.symm.trans hcount)
        subst hnil
        have hempty : (Frame.item 0 []).Sound := ⟨rfl, by simp⟩
        exact going_value d (List.forall_mem_cons.mpr ⟨hempty, hframes⟩) hwritten t
      · split
        · -- the items so far become a frame, which tells what the phase told
          refine .inr ⟨?_, ?_, trivial, by intro v hv; cases hv⟩
          · exact hwritten.trans (List.append_nil _).symm
          · exact List.forall_mem_cons.mpr ⟨hphase, hframes⟩
        · exact going_fail _ _
  | members before =>
    simp only [step]
    split
    · refine going_fill (.object ?_ ?_) hframes hwritten
      · rw [List.map_reverse]
        exact (List.reverse_perm _).nodup_iff.mpr hphase.1
      · intro m hm
        exact hphase.2 m (List.mem_reverse.mp hm)
    · split
      · exact going_memberName hd hframes hphase hwritten t
      · split
        · exact .inr ⟨hwritten, hframes, hphase, by intro v hv; cases hv⟩
        · exact going_fail _ _
  | name before => exact going_memberName hd hframes hphase hwritten t
  | colon before n =>
    simp only [step]
    split
    · refine .inr ⟨?_, ?_, trivial, by intro v hv; cases hv⟩
      · exact hwritten.trans (List.append_nil _).symm
      · exact List.forall_mem_cons.mpr ⟨hphase, hframes⟩
    · exact going_fail _ _
  | done v => exact going_fail _ _
  | failed f => exact .inl ⟨f, rfl⟩
  | stopped => exact .inr ⟨hwritten, hframes, hphase, hclosed⟩

theorem going_run {d : Demands} (hd : d.distinctNames = true) {c : Reader (List Event)}
    (hc : Going c) (ts : List Token) : Going (c.run d .scribe ts) := by
  induction ts generalizing c with
  | nil => exact hc
  | cons t ts ih => exact ih (going_step hd hc t)

theorem going_start : Going (start []) :=
  .inr ⟨rfl, by simp [start], trivial, by intro v hv; cases hv⟩

end Reader

/-! ## Whole texts -/

theorem outcome_eq_value {p : Phase} {v : Json} : p.outcome = .value v ↔ p = .done v := by
  cases p <;> simp [Phase.outcome]

section Text

variable {σ : Type} {d : Demands} {l : Listener σ} {s s' : σ} {text : String} {v : Json}

open Reader

/-- The scribe's reader at the end of a text. -/
def scribed (d : Demands) (text : String) : Reader (List Event) :=
  (Reader.start []).run d .scribe (tokens text)

theorem follows_text (d : Demands) (hs : l.stop s = false) (text : String) :
    Follows l s (scribed d text) ((Reader.start s).run d l (tokens text)) :=
  follows_run d hs (.of_eq (c := Reader.start []) hs rfl) _

/-- A reading with a listener is told by the scribe's: the listener has heard what the scribe wrote,
up to where it had enough. -/
theorem read_eq_scribed (hs : l.stop s = false) :
    read d l s text =
      (heed l s (scribed d text).listening,
        if l.stop (heed l s (scribed d text).listening) then .stopped
        else (scribed d text).phase.outcome) := by
  have hf := follows_text d hs text
  rw [read]
  cases hstop : l.stop (heed l s (scribed d text).listening) with
  | true =>
    obtain ⟨hlistening, hphase⟩ := hf.stopped hstop
    rw [hlistening, hphase]
    rfl
  | false =>
    rw [hf.going hstop]
    rfl

/-- A reading that ends with a value: so does the scribe's, and its listener did not stop. -/
theorem scribed_of_read (hs : l.stop s = false) (h : read d l s text = (s', .value v)) :
    (scribed d text).phase = .done v ∧ s' = heed l s (scribed d text).listening ∧
      l.stop s' = false := by
  obtain ⟨hs', hv⟩ := Prod.mk.inj h
  have hdone := outcome_eq_value.mp hv
  have hf := follows_text d hs text
  cases hstop : l.stop (heed l s (scribed d text).listening) with
  | true =>
    rw [(hf.stopped hstop).2] at hdone
    cases hdone
  | false =>
    rw [hf.going hstop] at hs' hdone
    exact ⟨hdone, hs'.symm, by rw [← hs']; exact hstop⟩

/-- What the scribe has written when the value is complete. -/
theorem listening_run (hd : d.distinctNames = true) {ts : List Token}
    (h : ((start []).run d .scribe ts).phase = .done v) :
    ((start []).run d .scribe ts).listening = events [] v ∧ Distinct v := by
  rcases going_run hd going_start ts with ⟨f, hf⟩ | hc
  · exact absurd (hf.symm.trans h) (by simp)
  · have hwritten := hc.written
    have hv := hc.phase
    rw [h] at hwritten hv
    rw [hc.closed v h] at hwritten
    exact ⟨hwritten, hv⟩

theorem listening_scribed (hd : d.distinctNames = true) (h : (scribed d text).phase = .done v) :
    (scribed d text).listening = events [] v ∧ Distinct v :=
  listening_run hd h

theorem read_idle (h : (scribed d text).phase = .done v) :
    read d .idle () text = ((), .value v) := by
  have hf := (follows_text (l := .idle) (s := ()) d rfl text).going rfl
  rw [read, hf]
  exact Prod.ext rfl (outcome_eq_value.mpr h)

/-- A value that a reader reads with a listener, it reads without one. -/
theorem idle_of_read (hs : l.stop s = false) (h : read d l s text = (s', .value v)) :
    read d .idle () text = ((), .value v) :=
  read_idle (scribed_of_read hs h).1

/-- A reader that insists on distinct names reads values without repeated names. -/
theorem distinct_of_read (hd : d.distinctNames = true) (hs : l.stop s = false)
    (h : read d l s text = (s', .value v)) : Distinct v :=
  (listening_scribed hd (scribed_of_read hs h).1).2

/-- What a listener knows that did not stop a reading. -/
theorem heed_of_read (hd : d.distinctNames = true) (hs : l.stop s = false)
    (h : read d l s text = (s', .value v)) : s' = heed l s (events [] v) ∧ l.stop s' = false := by
  obtain ⟨hdone, hheed, hstop⟩ := scribed_of_read hs h
  rw [(listening_scribed hd hdone).1] at hheed
  exact ⟨hheed, hstop⟩

/--
**Listening while reading is listening to the finished value.** Where the text is read as a value,
a reading with a listener leaves it as if it were told of the events of that value, and the reading
stops exactly if the listener has enough of them.
-/
theorem read_eq_heed (hd : d.distinctNames = true) (hs : l.stop s = false)
    (h : read d .idle () text = ((), .value v)) :
    read d l s text =
      (heed l s (events [] v),
        if l.stop (heed l s (events [] v)) then .stopped else .value v) := by
  have hdone := (scribed_of_read rfl h).1
  rw [read_eq_scribed hs, (listening_scribed hd hdone).1, outcome_eq_value.mpr hdone]

end Text

/-! ## Who ends a reading -/

section Stop

variable {σ : Type} {d : Demands} {l : Listener σ}

namespace Reader

/-- A reader stops for its listener only. -/
def StopsFor (l : Listener σ) (r : Reader σ) : Prop :=
  r.phase = .stopped → l.stop r.listening = true

theorem stopsFor_enter (r : Reader σ) {p : Phase} (hp : p ≠ .stopped) : (r.enter p).StopsFor l :=
  fun h => absurd h hp

theorem stopsFor_fail (r : Reader σ) (f : Fault) : (r.fail f).StopsFor l :=
  r.stopsFor_enter nofun

theorem stopsFor_fill (r : Reader σ) (v : Json) : (r.fill v).StopsFor l := by
  unfold fill
  split
  · exact r.stopsFor_enter nofun
  · intro h
    cases h
  · intro h
    cases h

theorem stopsFor_tell (r : Reader σ) (x : Head) {next : Reader σ → Reader σ}
    (hnext : ∀ r, (next r).StopsFor l) : (r.tell l x next).StopsFor l := by
  unfold tell
  dsimp only
  split
  · rename_i h
    exact fun _ => h
  · exact hnext _

theorem stopsFor_value (r : Reader σ) (t : Token) : (r.value d l t).StopsFor l := by
  unfold Reader.value
  split
  · rename_i b
    unfold Reader.opening
    split
    · exact r.stopsFor_fail _
    · split
      · exact r.stopsFor_fail _
      · exact r.stopsFor_tell _ fun r => r.stopsFor_enter (by cases b <;> nofun)
  · split
    · unfold Reader.scalar
      split
      · exact r.stopsFor_fail _
      · exact r.stopsFor_tell _ fun r => r.stopsFor_fill _
    · exact r.stopsFor_fail _

theorem stopsFor_memberName (r : Reader σ) (before : List (String × Json)) (t : Token) :
    (r.memberName d before t).StopsFor l := by
  unfold memberName
  split
  · split
    · exact r.stopsFor_fail _
    · exact r.stopsFor_enter nofun
  all_goals exact r.stopsFor_fail _

theorem stopsFor_step {r : Reader σ} (hr : r.StopsFor l) (t : Token) :
    (r.step d l t).StopsFor l := by
  unfold step
  split
  · exact r.stopsFor_value t
  · split
    · exact r.stopsFor_fill _
    · split
      · exact stopsFor_value _ t
      · split
        · intro h
          cases h
        · exact r.stopsFor_fail _
  · split
    · exact r.stopsFor_fill _
    · split
      · exact r.stopsFor_memberName _ t
      · split
        · exact r.stopsFor_enter nofun
        · exact r.stopsFor_fail _
  · exact r.stopsFor_memberName _ t
  · split
    · intro h
      cases h
    · exact r.stopsFor_fail _
  · exact r.stopsFor_fail _
  all_goals exact hr

theorem stopsFor_run {r : Reader σ} (hr : r.StopsFor l) (ts : List Token) :
    (r.run d l ts).StopsFor l := by
  induction ts generalizing r with
  | nil => exact hr
  | cons t ts ih => exact ih (stopsFor_step hr t)

end Reader

/-- A reading that was stopped was stopped by its listener. -/
theorem stop_of_read {text : String} {s s' : σ} (h : read d l s text = (s', .stopped)) :
    l.stop s' = true := by
  obtain ⟨hs', hphase⟩ := Prod.mk.inj h
  rw [← hs']
  refine Reader.stopsFor_run (r := Reader.start s) nofun (tokens text) ?_
  generalize ((Reader.start s).run d l (tokens text)).phase = p at hphase
  cases p <;> first | rfl | cases hphase

end Stop

/-! ## Insisting on less -/

section Lenient

variable {σ : Type} {d : Demands} {l : Listener σ}

/-- The demands of a reader that takes every value the grammar allows. -/
def Demands.least : Demands := ⟨false, false⟩

namespace Reader

/-- A reader has failed, or another one stands at the same point. -/
def Fails (r r' : Reader σ) : Prop := (∃ f, r.phase = .failed f) ∨ r' = r

theorem value_least (r : Reader σ) (t : Token) :
    Fails (r.value d l t) (r.value .least l t) := by
  unfold Reader.value
  split
  · unfold Reader.opening
    split
    · exact .inr rfl
    · split
      · exact .inl ⟨_, rfl⟩
      · exact .inr rfl
  · split
    · unfold Reader.scalar
      split
      · exact .inl ⟨_, rfl⟩
      · exact .inr rfl
    · exact .inr rfl

theorem memberName_least (r : Reader σ) (before : List (String × Json)) (t : Token) :
    Fails (r.memberName d before t) (r.memberName .least before t) := by
  unfold memberName
  split
  · split
    · exact .inl ⟨_, rfl⟩
    · exact .inr rfl
  all_goals exact .inr rfl

theorem step_least (r : Reader σ) (t : Token) : Fails (r.step d l t) (r.step .least l t) := by
  unfold step
  split
  · exact value_least r t
  · split
    · exact .inr rfl
    · split
      · exact value_least { r with stack := .item 0 [] :: r.stack } t
      · split <;> exact .inr rfl
  · split
    · exact .inr rfl
    · split
      · exact memberName_least r _ t
      · split <;> exact .inr rfl
  · exact memberName_least r _ t
  · split <;> exact .inr rfl
  all_goals exact .inr rfl

/-- A reading that has failed stays failed. -/
theorem run_failed {r : Reader σ} {f : Fault} (h : r.phase = .failed f) (ts : List Token) :
    r.run d l ts = r := by
  induction ts with
  | nil => rfl
  | cons t ts ih =>
    have hstep : r.step d l t = r := by
      unfold step
      rw [h]
    rw [run, List.foldl_cons, hstep]
    exact ih

/-- A reading that does not fail is the reading of a reader that insists on nothing. -/
theorem run_least {r : Reader σ} {ts : List Token} (h : ∀ f, (r.run d l ts).phase ≠ .failed f) :
    r.run .least l ts = r.run d l ts := by
  induction ts generalizing r with
  | nil => rfl
  | cons t ts ih =>
    show (r.step .least l t).run .least l ts = (r.step d l t).run d l ts
    rcases step_least (d := d) (l := l) r t with ⟨f, hf⟩ | hstep
    · -- a fault would stay to the end
      refine absurd ?_ (h f)
      show ((r.step d l t).run d l ts).phase = _
      rw [run_failed hf, hf]
    · rw [hstep]
      exact ih h

end Reader

/-- What a reader reads, one that insists on nothing reads as the same value. -/
theorem parse_of_read {text : String} {v : Json} (h : read d .idle () text = ((), .value v)) :
    parse text = .ok v := by
  have hdone := outcome_eq_value.mp (Prod.mk.inj h).2
  have hrun : (Reader.start ()).run .least .idle (tokens text) =
      (Reader.start ()).run d .idle (tokens text) :=
    Reader.run_least fun f hf => by rw [hdone] at hf; cases hf
  have hread : read ⟨false, false⟩ .idle () text = ((), .value v) := by
    rw [read, show (⟨false, false⟩ : Demands) = .least from rfl, hrun]
    exact h
  rw [parse, hread]

end Lenient

end VehiclePrivacy.Json
