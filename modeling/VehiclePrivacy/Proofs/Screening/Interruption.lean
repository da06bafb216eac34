import VehiclePrivacy.Proofs.Json.Acceptance
import VehiclePrivacy.Proofs.Screening.Review

/-!
# Screening a text that breaks off

A text that cannot be read to its end still begins with some members, and a screening hears of them
before the place where the reading breaks off. `met` lists the recognised ones, each known by the
first token of its value. It takes no filters to say what is met: it is what is told by a reading
that nobody stops. Of a text that can be read these are its recognised members (`met_of_document`),
and of any other text they are what all documents with its beginning share (`met_of_breaks`).

A reading that is screened ends early exactly if a review of the members met comes to a reason to
reject the message, and otherwise it ends as it would without a screening (`read_met`).
-/

namespace VehiclePrivacy

/-- A value without parts that begins with the given token. -/
def Json.Head.value : Json.Head → Json
  | .scalar s => .scalar s
  | .opening .array => .array []
  | .opening .object => .object []

@[simp] theorem Json.head_value (h : Json.Head) : Json.head h.value = h := by
  rcases h with s | b
  · rfl
  · cases b <;> rfl

/-- A recognised member as it is known when its value begins. -/
def Sighting.ofEvent? (e : Json.Event) : Option Sighting :=
  (Field.at? e.1).map (⟨·, e.1, e.2.value⟩)

/-- A recognised member, of its value only how it begins. -/
def Sighting.begun (x : Sighting) : Sighting := { x with value := (Json.head x.value).value }

namespace Screening

variable {f : Filters} {s : Screening} {message : String}

/-- The recognised members whose values begin before the message ends or cannot be read further. -/
def met (message : String) : List Sighting :=
  (Json.scribed demands message).listening.filterMap Sighting.ofEvent?

/-- A screening that is told of some values takes in the recognised ones. -/
theorem heed_eq_noticeAll (hs : s.verdict.retains = true) (evs : List Json.Event) :
    Json.heed (listener f) s evs = s.noticeAll f (evs.filterMap Sighting.ofEvent?) := by
  have hstop : (listener f).stop s = false := by
    show (!s.verdict.retains) = false
    rw [hs]
    rfl
  have hskip : ∀ (s : Screening) (e : Json.Event), Sighting.ofEvent? e = none →
      (listener f).hear s e.1 e.2 = s := by
    intro s e he
    show hear f s e.1 e.2 = s
    rw [hear, Option.map_eq_none_iff.mp he]
  have htake : ∀ (s : Screening) (e : Json.Event) x, Sighting.ofEvent? e = some x →
      (listener f).hear s e.1 e.2 = notice f s x := by
    intro s e x hx
    obtain ⟨field, hfield, rfl⟩ := Option.map_eq_some_iff.mp hx
    show hear f s e.1 e.2 = _
    rw [hear, hfield, notice, Json.head_value]
  exact Json.stepUntil_filterMap hskip htake hstop evs

/-- **Reading on until there is a reason to stop.** A screened reading finds what a review of the
members met finds. If that comes to a reason, the reading is stopped; if not, it ends as a reading
that nobody stops. -/
theorem read_met (f : Filters) (message : String) :
    ∃ found, read f message = (found,
        if (Review.walk f {} (met message)).2.isSome then .stopped
        else (Json.scribed demands message).phase.outcome) ∧
      Review.Agree (Review.walk f {} (met message)) found := by
  have hagree := Review.agree_walk (f := f) Review.matches_start rfl (met message)
  refine ⟨_, ?_, hagree⟩
  rw [read, Json.read_eq_scribed rfl, heed_eq_noticeAll rfl]
  have hstop : (listener f).stop (noticeAll f {} (met message)) =
      (Review.walk f {} (met message)).2.isSome := by
    show (!(noticeAll f {} (met message)).verdict.retains) = _
    rw [hagree.verdict]
    cases hreason : (Review.walk f {} (met message)).2 with
    | none => rfl
    | some reason =>
      have hne : reason ≠ .success := fun h => hagree.reason (by rw [hreason, h])
      simp [Verdict.retains, hne]
  rw [← hstop]
  rfl

/-! ## What is met -/

theorem filterMap_ofEvent? (evs : List Json.Event) :
    evs.filterMap Sighting.ofEvent? =
      (evs.filterMap Field.recognise).map fun e => ⟨e.1, e.2.1, e.2.2.value⟩ := by
  rw [List.map_filterMap]
  refine congrArg (List.filterMap · evs) (funext fun e => ?_)
  rw [Sighting.ofEvent?, Field.recognise, Option.map_map]
  rfl

theorem ofEvent?_events (tree : Json) :
    (Json.events [] tree).filterMap Sighting.ofEvent? = (sightings [] tree).map Sighting.begun := by
  have hroot : Field.recognise ([], Json.head tree) = none := rfl
  rw [filterMap_ofEvent?, Json.events, List.filterMap_cons_none hroot, recognise_partEvents rfl,
    List.map_map]
  rfl

/-- Of a document, all recognised members are met. -/
theorem met_of_document {tree : Json} (h : Json.Grammar.Document (Json.tokens message) tree) :
    met message = (sightings [] tree).map Sighting.begun := by
  have hdone := (Json.done_iff (d := demands) rfl rfl).mpr h
  rw [met, (Json.listening_scribed rfl hdone).1, ofEvent?_events]

/-- Of another text, those are met that stand before the first token that rules a document out: they
are what all documents with this beginning have in common. -/
theorem met_of_breaks {before rest : List Json.Token} {xs : List Sighting}
    (h : Json.Grammar.Breaks (Json.tokens message) before rest) :
    xs <+: met message ↔ ∀ more tree, Json.Grammar.Document (before ++ more) tree →
      xs <+: (sightings [] tree).map Sighting.begun := by
  have hbegins := h.begins
  rw [met, Json.scribed, Json.Reader.listening_breaks rfl rfl h]
  refine ⟨fun h more tree hdocument => ?_, fun h => ?_⟩
  · rw [← ofEvent?_events]
    exact h.trans ((Json.Reader.listening_of_document rfl rfl hdocument).filterMap _)
  · rcases Json.Reader.documents_apart (d := demands) rfl rfl hbegins with
      ⟨more, tree, evs, hdocument, htold, hevs⟩ | ⟨p, hp⟩
    · have hcommon := h more tree hdocument
      have hnone : evs.filterMap Sighting.ofEvent? = [] := by
        rcases hevs with rfl | rfl <;> rfl
      rwa [← ofEvent?_events, htold, List.filterMap_append, hnone, List.append_nil] at hcommon
    · have hcommon : ∀ b, xs <+: (((Json.Reader.start []).run demands .scribe before).listening ++
          [(p, Json.Head.scalar (.bool b))]).filterMap Sighting.ofEvent? := by
        intro b
        obtain ⟨more, tree, hdocument, htold⟩ := hp b
        rw [← htold, ofEvent?_events]
        exact h more tree hdocument
      have hfalse := hcommon false
      have htrue := hcommon true
      rw [List.filterMap_append] at hfalse htrue
      cases hfield : Field.at? p with
      | none =>
        have hnone : Sighting.ofEvent? (p, Json.Head.scalar (.bool true)) = none := by
          rw [Sighting.ofEvent?, hfield]
          rfl
        rwa [List.filterMap_cons_none hnone, List.filterMap_nil, List.append_nil] at htrue
      | some field =>
        have hsome : ∀ b, Sighting.ofEvent? (p, Json.Head.scalar (.bool b)) =
            some ⟨field, p, .scalar (.bool b)⟩ := by
          intro b
          rw [Sighting.ofEvent?, hfield]
          rfl
        rw [List.filterMap_cons_some (hsome _), List.filterMap_nil, List.prefix_concat_iff]
          at hfalse htrue
        rcases hfalse with hfalse | hfalse
        · rcases htrue with htrue | htrue
          · -- the two documents tell of different values, so both cannot be common
            have hsame := (List.append_cancel_left (hfalse.symm.trans htrue))
            simp at hsame
          · exact htrue
        · exact hfalse

end Screening

namespace Review

variable {f : Filters} {r : Review}

/-- The reasons to reject a message before its end. -/
def reasons : List Verdict := [.speed, .geoposition, .other]

theorem reason_of_ask {reason : Verdict} (h : (r.askGeofence f).2 = some reason) :
    reason ∈ reasons := by
  unfold askGeofence at h
  split at h
  · split at h
    · dsimp only at h
      split at h
      · cases h
      · cases h
        decide
    · cases h
  · cases h

theorem reason_of_number {n : Float} {field : Field} {reason : Verdict}
    (h : (r.recordNumber f n field).2 = some reason) : reason ∈ reasons := by
  unfold recordNumber at h
  split at h
  · dsimp only at h
    split at h
    · cases h
      decide
    · cases h
  · exact reason_of_ask h
  · exact reason_of_ask h
  · cases h

theorem reason_of_visit {x : Sighting} {reason : Verdict} (h : (r.visit f x).2 = some reason) :
    reason ∈ reasons := by
  unfold visit at h
  split at h
  · cases h
  · split at h
    · cases h
    · split at h
      · cases h
        decide
      · cases h
        decide
      · cases h
      · unfold visitScalar at h
        split at h
        · cases h
        · split at h
          · exact reason_of_number h
          · cases h
            decide

theorem reason_of_walk {xs : List Sighting} {reason : Verdict}
    (h : (r.walk f xs).2 = some reason) : reason ∈ reasons := by
  induction xs generalizing r with
  | nil => cases h
  | cons x xs ih =>
    rw [walk] at h
    generalize hvisit : r.visit f x = result at h
    obtain ⟨r', _ | reason'⟩ := result
    · exact ih h
    · obtain rfl : reason' = reason := Option.some.inj h
      exact reason_of_visit (congrArg Prod.snd hvisit)

/-- At the end of a message, a verdict of its own is that a field is missing or that part II is no
block. -/
theorem conclude_cases (r : Review) (f : Filters) (xs : List Sighting) :
    r.conclude f xs = .success ∨ r.conclude f xs = .missing ∨
      r.conclude f xs = .other ∧ f.active.has .partIIRedaction = true ∧
        hasScalarPartII xs = true := by
  rw [conclude]
  split
  · exact .inr (.inl rfl)
  · split
    · exact .inr (.inl rfl)
    · split
      · rename_i h
        exact .inr (.inr ⟨rfl, Bool.and_eq_true_iff.mp h⟩)
      · exact .inl rfl

/-- If the speed is the reason, then a speed is recorded that is not accepted. -/
def Refuses (f : Filters) (result : Review × Option Verdict) : Prop :=
  result.2 = some .speed → ∃ v, result.1.speed = some v ∧ f.speeds.accepts v = false

theorem refuses_ask (r : Review) : Refuses f (r.askGeofence f) := by
  unfold askGeofence
  split
  · split
    · split <;> nofun
    · nofun
  · nofun

theorem refuses_number (r : Review) (n : Float) (field : Field) :
    Refuses f (r.recordNumber f n field) := by
  unfold recordNumber
  split
  · intro h
    split at h
    · rename_i hrefused
      obtain ⟨-, hrefused⟩ := Bool.and_eq_true _ _ ▸ hrefused
      exact ⟨n, rfl, (Bool.not_eq_true' _).mp hrefused⟩
    · cases h
  · exact refuses_ask _
  · exact refuses_ask _
  · nofun

theorem refuses_visit (r : Review) (x : Sighting) : Refuses f (r.visit f x) := by
  unfold visit
  split
  · nofun
  · split
    · nofun
    · split
      · nofun
      · nofun
      · nofun
      · unfold visitScalar
        split
        · nofun
        · split
          · exact refuses_number r _ _
          · nofun

/-- A walk that ends for the speed has recorded one that is not accepted. -/
theorem refuses_walk (r : Review) (xs : List Sighting) : Refuses f (r.walk f xs) := by
  induction xs generalizing r with
  | nil => nofun
  | cons x xs ih =>
    have hvisit := refuses_visit (f := f) r x
    rw [walk]
    generalize r.visit f x = result at hvisit
    obtain ⟨r', _ | reason⟩ := result
    · exact ih r'
    · exact hvisit

end Review

end VehiclePrivacy
