import Mathlib.Data.List.DropRight
import Mathlib.Data.List.TakeWhile
import VehiclePrivacy.Text.Blank

/-!
# Trimmed texts, and texts cut into pieces

Blanks around a text make no difference once it is trimmed (`trimChars_padded`), and a text is cut
at its separators and nowhere else (`cut_append_sep`): into the pieces that it was joined of
(`pieces_intercalate`).
-/

namespace VehiclePrivacy.Text

variable {a b s t : List Char} {c sep : Char} {p : Char → Bool}

/-! ## Trimming -/

theorem dropWhile_append_cons (hc : p c = false) :
    (s ++ c :: t).dropWhile p = s.dropWhile p ++ c :: t := by
  have hstop : (c :: t).dropWhile p = c :: t := List.dropWhile_cons_of_neg (by simp [hc])
  rw [List.dropWhile_append, hstop]
  split
  · rename_i hnone
    rw [List.isEmpty_iff.mp hnone, List.nil_append]
  · rfl

theorem dropEndWhile_append_cons (hc : p c = false) :
    dropEndWhile p (s ++ c :: t) = s ++ c :: dropEndWhile p t := by
  rw [dropEndWhile, List.reverse_append, List.reverse_cons, List.append_assoc,
    List.singleton_append, dropWhile_append_cons hc, dropEndWhile]
  simp

theorem dropEndWhile_append_of_pos (h : ∀ c ∈ t, p c = true) :
    dropEndWhile p (s ++ t) = dropEndWhile p s := by
  rw [dropEndWhile, List.reverse_append, List.dropWhile_append_of_pos, ← dropEndWhile]
  simpa using h

/-- **Blanks around a text make no difference** once it is trimmed. -/
theorem trimChars_padded (ha : ∀ c ∈ a, isBlank c = true) (hb : ∀ c ∈ b, isBlank c = true) :
    trimChars (a ++ s ++ b) = trimChars s := by
  rw [trimChars, List.append_assoc, List.dropWhile_append_of_pos ha, List.dropWhile_append,
    trimChars]
  split
  · rename_i hnone
    rw [List.isEmpty_iff.mp hnone, List.dropWhile_eq_nil_iff.mpr hb]
  · exact dropEndWhile_append_of_pos hb

theorem trimChars_append_of_blank (hb : ∀ c ∈ b, isBlank c = true) :
    trimChars (s ++ b) = trimChars s :=
  trimChars_padded (List.forall_mem_nil _) hb

/-- The blanks before a text may be gone already. -/
theorem trimChars_dropWhile (s : List Char) : trimChars (s.dropWhile isBlank) = trimChars s := by
  rw [trimChars, List.dropWhile_idempotent, trimChars]

/-- The blanks behind a text may be gone already. -/
theorem trimChars_dropEndWhile (s : List Char) :
    trimChars (dropEndWhile isBlank s) = trimChars s := by
  have hs : dropEndWhile isBlank s ++ s.rtakeWhile isBlank = s :=
    List.rdropWhile_append_rtakeWhile
  conv_rhs => rw [← hs]
  exact (trimChars_append_of_blank fun c hc => List.mem_rtakeWhile_imp hc).symm

/-- A text keeps what is around a character that is not blank. -/
theorem trimChars_append_cons (hc : isBlank c = false) :
    trimChars (s ++ c :: t) = s.dropWhile isBlank ++ c :: dropEndWhile isBlank t := by
  rw [trimChars, dropWhile_append_cons hc, dropEndWhile_append_cons hc]

theorem trimChars_sublist_dropWhile (s : List Char) :
    (trimChars s).Sublist (s.dropWhile isBlank) := by
  have hend := (List.dropWhile_sublist isBlank (l := (s.dropWhile isBlank).reverse)).reverse
  rwa [List.reverse_reverse] at hend

theorem trimChars_sublist (s : List Char) : (trimChars s).Sublist s :=
  (trimChars_sublist_dropWhile s).trans (List.dropWhile_sublist isBlank)

/-- What is trimmed does not begin with a blank. -/
theorem dropWhile_of_trimmed (h : trimChars s = s) : s.dropWhile isBlank = s := by
  have hs := trimChars_sublist_dropWhile s
  rw [h] at hs
  exact (List.dropWhile_sublist isBlank).antisymm hs

/-- Behind the blanks before it, a trimmed text begins as it does without them. -/
theorem head?_dropWhile_padded (hs : trimChars s = s) (ha : ∀ c ∈ a, isBlank c = true)
    (hb : ∀ c ∈ b, isBlank c = true) : ((a ++ s ++ b).dropWhile isBlank).head? = s.head? := by
  rw [List.append_assoc, List.dropWhile_append_of_pos ha, List.dropWhile_append,
    dropWhile_of_trimmed hs]
  split
  · rename_i hnone
    rw [List.dropWhile_eq_nil_iff.mpr hb, List.isEmpty_iff.mp hnone]
  · rename_i hsome
    exact List.head?_append_of_ne_nil s fun hnil => hsome (List.isEmpty_iff.mpr hnil)

/-- What is blank is nothing when trimmed. -/
theorem trimChars_eq_nil_iff : trimChars s = [] ↔ s.all isBlank = true := by
  rw [trimChars, dropEndWhile, List.reverse_eq_nil_iff, List.dropWhile_eq_nil_iff,
    List.all_eq_true]
  refine ⟨fun h => ?_, fun h c hc => ?_⟩
  · -- the rest begins with what is not blank, if it begins at all
    have hrest : s.dropWhile isBlank = [] := by
      cases hdrop : s.dropWhile isBlank with
      | nil => rfl
      | cons c rest =>
        have hfirst := List.head?_dropWhile_not isBlank s
        rw [hdrop] at h hfirst
        have hblank : isBlank c = true := h c (by simp)
        simp [hblank] at hfirst
    exact List.dropWhile_eq_nil_iff.mp hrest
  · rw [List.mem_reverse] at hc
    exact h c ((List.dropWhile_sublist _).mem hc)

/-! ## Cutting -/

theorem cut_cons_sep (sep : Char) (s : List Char) : cut sep (sep :: s) = [] :: cut sep s := by
  rw [cut, List.foldr_cons, if_pos rfl]
  rfl

theorem cut_cons (hc : c ≠ sep) {piece : List Char} {more : List (List Char)}
    (h : cut sep s = piece :: more) : cut sep (c :: s) = (c :: piece) :: more := by
  rw [cut, List.foldr_cons, if_neg hc, ← cut, h]

/-- A text is not cut within a piece without separators. -/
theorem cut_append (hs : sep ∉ s) {piece : List Char} {more : List (List Char)}
    (h : cut sep t = piece :: more) : cut sep (s ++ t) = (s ++ piece) :: more := by
  induction s with
  | nil => exact h
  | cons c s ih =>
    have hc : c ≠ sep := fun heq => hs (heq ▸ List.mem_cons_self)
    exact cut_cons hc (ih fun hmem => hs (List.mem_cons_of_mem _ hmem))

/-- Without separators there is one piece. -/
theorem cut_eq_singleton (hs : sep ∉ s) : cut sep s = [s] := by
  have hnil : cut sep [] = [[]] := rfl
  have h := cut_append hs hnil
  rwa [List.append_nil] at h

/-- **The first separator ends the first piece.** -/
theorem cut_append_sep (hs : sep ∉ s) (t : List Char) :
    cut sep (s ++ sep :: t) = s :: cut sep t := by
  rw [cut_append hs (cut_cons_sep sep t), List.append_nil]

/-- **A text is cut where its pieces were joined.** -/
theorem cut_intercalate {ps : List (List Char)} (hne : ps ≠ []) (h : ∀ s ∈ ps, sep ∉ s) :
    cut sep ([sep].intercalate ps) = ps := by
  induction ps with
  | nil => exact absurd rfl hne
  | cons s rest ih =>
    obtain ⟨hs, hrest⟩ := List.forall_mem_cons.mp h
    cases rest with
    | nil => rw [List.intercalate_singleton, cut_eq_singleton hs]
    | cons t more =>
      rw [List.intercalate_cons_cons, List.append_assoc, List.singleton_append, cut_append_sep hs,
        ih (List.cons_ne_nil _ _) hrest]

/-- The pieces of a text between its separators. -/
def pieces (sep : Char) (text : String) : List String := (cut sep text.toList).map String.ofList

theorem pieces_intercalate {ps : List String} (hne : ps ≠ []) (h : ∀ s ∈ ps, sep ∉ s.toList) :
    pieces sep ((String.singleton sep).intercalate ps) = ps := by
  have hlists : ∀ s ∈ ps.map String.toList, sep ∉ s := by simpa using h
  rw [pieces, String.toList_intercalate, String.toList_singleton,
    cut_intercalate (by simpa using hne) hlists, List.map_map]
  simp

/-- Trimmed pieces are chosen as lists of characters or as texts. -/
theorem filter_pieces {p : List Char → Bool} {q : String → Bool}
    (h : ∀ s, p s = q (String.ofList s)) (sep : Char) (text : String) :
    (((cut sep text.toList).map trimChars).filter p).map String.ofList =
      ((pieces sep text).map trim).filter q := by
  have htrim : ∀ s : List Char, trim (String.ofList s) = String.ofList (trimChars s) := fun s => by
    rw [trim, String.toList_ofList]
  have hp : p = q ∘ String.ofList := funext h
  rw [hp, ← List.filter_map, List.map_map, pieces, List.map_map]
  congr 2
  exact funext fun s => (htrim s).symm

theorem isEmpty_ofList (s : List Char) : (!s.isEmpty) = decide (String.ofList s ≠ "") := by
  cases s <;> simp

/-- The items of a list are its trimmed pieces, without blank ones. -/
theorem listItems_eq (text : String) :
    listItems text = ((pieces ',' text).map trim).filter (· ≠ "") :=
  filter_pieces isEmpty_ofList ',' text

end VehiclePrivacy.Text
