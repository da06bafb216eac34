import VehiclePrivacy.Feed
import VehiclePrivacy.Proofs.Text.Trimming

/-!
# The lines of a feed

Octets are cut behind each line feed, and nothing is lost. There is one way to do so (`cut_iff`). A
line is then a message, or blank, or no text at all (`Line.of`).
-/

namespace VehiclePrivacy.Feed

variable {octets more : List UInt8} {ls ls' : List (List UInt8)} {l : List UInt8}

/-- Octets cut behind each line feed. -/
structure Cut (ls : List (List UInt8)) (octets : List UInt8) : Prop where
  /-- Together the lines are the octets. -/
  flatten : ls.flatten = octets
  /-- A line has some octets. -/
  inhabited : ∀ l ∈ ls, l ≠ []
  /-- A line feed can only be at the end of a line. -/
  inner : ∀ l ∈ ls, lineFeed ∉ l.dropLast
  /-- All lines but the last one end in a line feed. -/
  ended : ∀ l ∈ ls.dropLast, l.getLast? = some lineFeed

theorem lines_cons (b : UInt8) (octets : List UInt8) :
    lines (b :: octets) =
      if b = lineFeed then [b] :: lines octets
      else match lines octets with
        | [] => [[b]]
        | l :: more => (b :: l) :: more := rfl

theorem Cut.cons_lineFeed (h : Cut ls octets) :
    Cut ([lineFeed] :: ls) (lineFeed :: octets) where
  flatten := congrArg (lineFeed :: ·) h.flatten
  inhabited := by simpa using h.inhabited
  inner := by simpa using h.inner
  ended := by
    cases ls with
    | nil => simp
    | cons l ls => simpa using h.ended

theorem Cut.cons_first {b : UInt8} (hb : b ≠ lineFeed) (h : Cut (l :: ls) octets) :
    Cut ((b :: l) :: ls) (b :: octets) where
  flatten := congrArg (b :: ·) h.flatten
  inhabited := by
    have hrest := fun l' hl' => h.inhabited l' (List.mem_cons_of_mem l hl')
    simpa using hrest
  inner := by
    have hne : l ≠ [] := h.inhabited l List.mem_cons_self
    have hfirst := h.inner l List.mem_cons_self
    have hrest := fun l' hl' => h.inner l' (List.mem_cons_of_mem l hl')
    simpa [List.dropLast_cons_of_ne_nil hne, hfirst, hb.symm] using hrest
  ended := by
    cases ls with
    | nil => simp
    | cons l' ls =>
      have hne : l ≠ [] := h.inhabited l List.mem_cons_self
      have hended := h.ended
      rw [List.dropLast_cons_cons, List.forall_mem_cons] at hended ⊢
      rw [List.getLast?_cons_of_ne_nil hne]
      exact hended

/-- The lines are the octets, cut behind each line feed. -/
theorem cut_lines (octets : List UInt8) : Cut (lines octets) octets := by
  induction octets with
  | nil => exact ⟨rfl, nofun, nofun, nofun⟩
  | cons b octets ih =>
    rw [lines_cons]
    split
    · rename_i hb
      subst hb
      exact ih.cons_lineFeed
    · rename_i hb
      cases hlines : lines octets with
      | nil =>
        have hnone : octets = [] := by
          rw [← ih.flatten, hlines]
          rfl
        subst hnone
        exact ⟨rfl, by simp, by simp, by simp⟩
      | cons l more =>
        rw [hlines] at ih
        exact ih.cons_first hb

theorem Cut.of_cons_lineFeed (h : Cut (l :: ls) (lineFeed :: octets)) :
    l = [lineFeed] ∧ Cut ls octets := by
  obtain ⟨hflatten, hinhabited, hinner, hended⟩ := h
  rw [List.forall_mem_cons] at hinhabited hinner
  obtain ⟨b, l', rfl⟩ := List.exists_cons_of_ne_nil hinhabited.1
  obtain ⟨rfl, hrest⟩ := List.cons.inj hflatten
  -- else the line feed would stand inside of the line
  have hl' : l' = [] := by
    cases l' with
    | nil => rfl
    | cons c l' => exact absurd List.mem_cons_self hinner.1
  subst hl'
  refine ⟨rfl, hrest, hinhabited.2, hinner.2, ?_⟩
  intro l hl
  cases ls with
  | nil => cases hl
  | cons l' ls =>
    refine hended l ?_
    rw [List.dropLast_cons_cons]
    exact List.mem_cons_of_mem _ hl

theorem Cut.of_cons {b : UInt8} (hb : b ≠ lineFeed) (h : Cut (l :: ls) (b :: octets)) :
    l = [b] ∧ ls = [] ∧ octets = [] ∨ ∃ l', l = b :: l' ∧ Cut (l' :: ls) octets := by
  obtain ⟨hflatten, hinhabited, hinner, hended⟩ := h
  have hfirst := List.forall_mem_cons.mp hinhabited
  obtain ⟨b, l', rfl⟩ := List.exists_cons_of_ne_nil hfirst.1
  obtain ⟨rfl, hrest⟩ := List.cons.inj hflatten
  cases l' with
  | nil =>
    have hls : ls = [] := by
      cases ls with
      | nil => rfl
      | cons l' ls =>
        have hlast := hended [b] List.mem_cons_self
        exact absurd (Option.some.inj hlast) hb
    subst hls
    exact .inl ⟨rfl, rfl, hrest.symm⟩
  | cons c l' =>
    refine .inr ⟨c :: l', rfl, hrest, ?_, ?_, ?_⟩
    · exact List.forall_mem_cons.mpr ⟨List.cons_ne_nil _ _, hfirst.2⟩
    · have hin := List.forall_mem_cons.mp hinner
      rw [List.dropLast_cons_cons, List.mem_cons, not_or] at hin
      exact List.forall_mem_cons.mpr ⟨hin.1.2, hin.2⟩
    · cases ls with
      | nil => exact nofun
      | cons l'' ls =>
        rw [List.dropLast_cons_cons, List.forall_mem_cons] at hended ⊢
        rw [List.getLast?_cons_cons] at hended
        exact hended

/-- There is no other way to cut octets behind each line feed. -/
theorem Cut.eq_lines (h : Cut ls octets) : ls = lines octets := by
  induction octets generalizing ls with
  | nil =>
    cases ls with
    | nil => rfl
    | cons l ls =>
      have hflatten := h.flatten
      rw [List.flatten_cons, List.append_eq_nil_iff] at hflatten
      exact absurd hflatten.1 (h.inhabited l List.mem_cons_self)
  | cons b octets ih =>
    cases ls with
    | nil => cases h.flatten
    | cons l ls =>
      -- the first octet alone is a line, or it is put in front of the first line of the others
      rw [lines_cons]
      by_cases hb : b = lineFeed
      · subst hb
        obtain ⟨rfl, hrest⟩ := h.of_cons_lineFeed
        rw [if_pos rfl, ← ih hrest]
      · rw [if_neg hb]
        rcases h.of_cons hb with ⟨rfl, rfl, rfl⟩ | ⟨l', rfl, hrest⟩
        · rfl
        · rw [← ih hrest]

/-- The lines are the octets, cut behind each line feed. -/
theorem cut_iff : Cut ls octets ↔ ls = lines octets :=
  ⟨Cut.eq_lines, fun h => h ▸ cut_lines octets⟩

/-! ## What a line holds -/

/-- What a line holds: octets that are no text, nothing but blanks, or a message. -/
inductive Line where
  | unreadable
  | blank
  | message (text : String)
  deriving DecidableEq

/-- A text without the line breaks at its end. -/
def withoutBreaks (text : List Char) : List Char :=
  Text.dropEndWhile (fun c => c = '\n' || c = '\r') text

/-- What a line holds. -/
def Line.of (octets : List UInt8) : Line :=
  match String.fromUTF8? octets.toByteArray with
  | none => .unreadable
  | some text =>
    if Text.trimChars (withoutBreaks text.toList) = [] then .blank
    else .message (String.ofList (withoutBreaks text.toList))

theorem message?_eq (text : String) :
    Run.message? text =
      if Text.trimChars (withoutBreaks text.toList) = [] then none
      else some (String.ofList (withoutBreaks text.toList)) :=
  if_congr Text.trimChars_eq_nil_iff.symm rfl rfl

end VehiclePrivacy.Feed
