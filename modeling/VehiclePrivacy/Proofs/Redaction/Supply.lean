import Mathlib.Data.List.Nodup
import VehiclePrivacy.Redaction.MemberList
import VehiclePrivacy.Proofs.Text.Trimming

/-!
# What a list of members was supplied with

A list is made of names, of the lines of a text, or of an earlier list and more names. All the time
it has the names that it was supplied with, each once, in the order in which they first were
(`MemberList.firstSupplied_afterAll`), and there is only one such list (`FirstSupplied.unique`). So
names that are added come behind those that are there, as far as they are new
(`MemberList.names_addAll`).
-/

namespace VehiclePrivacy

/-- The names that were supplied, each once, in the order in which they first were. The empty text
is no name. -/
structure FirstSupplied (supply names : List String) : Prop where
  mem_iff : ∀ n, n ∈ names ↔ n ∈ supply ∧ n ≠ ""
  order : names.Pairwise fun m n => supply.idxOf m < supply.idxOf n

namespace FirstSupplied

variable {supply names names' : List String} {n : String}

theorem nil : FirstSupplied [] [] := ⟨by simp, .nil⟩

theorem nodup (h : FirstSupplied supply names) : names.Nodup :=
  h.order.imp fun {m n} hlt heq => by
    subst heq
    exact absurd hlt (Nat.lt_irrefl _)

/-- **There is one such list.** -/
theorem unique (h : FirstSupplied supply names) (h' : FirstSupplied supply names') :
    names = names' := by
  -- the same names, in an order that leaves no choice
  have hperm : names.Perm names' := (List.perm_ext_iff_of_nodup h.nodup h'.nodup).mpr fun n => by
    rw [h.mem_iff, h'.mem_iff]
  exact hperm.eq_of_pairwise (fun m n _ _ hmn hnm => absurd hmn hnm.asymm) h.order h'.order

/-- What is supplied later leaves the order of what was there. -/
theorem order_append (h : FirstSupplied supply names) (more : List String) :
    names.Pairwise fun m n => (supply ++ more).idxOf m < (supply ++ more).idxOf n := by
  refine h.order.imp_of_mem fun {m n} hm hn hlt => ?_
  rw [List.idxOf_append_of_mem ((h.mem_iff m).mp hm).1,
    List.idxOf_append_of_mem ((h.mem_iff n).mp hn).1]
  exact hlt

/-- A name that is empty, or there already, changes nothing. -/
theorem again (h : FirstSupplied supply names) (hn : n = "" ∨ n ∈ names) :
    FirstSupplied (supply ++ [n]) names where
  mem_iff m := by
    have hold : n = "" ∨ n ∈ supply := hn.imp_right fun hmem => ((h.mem_iff n).mp hmem).1
    rw [h.mem_iff, List.mem_append, List.mem_singleton]
    refine and_congr_left fun hm => (or_iff_left_of_imp fun heq => ?_).symm
    exact heq ▸ hold.resolve_left (heq ▸ hm)
  order := h.order_append [n]

/-- A new name comes behind the others. -/
theorem snoc (h : FirstSupplied supply names) (hne : n ≠ "") (hn : n ∉ names) :
    FirstSupplied (supply ++ [n]) (names ++ [n]) where
  mem_iff m := by
    rw [List.mem_append, List.mem_append, List.mem_singleton, h.mem_iff, or_and_right]
    exact or_congr_right (and_iff_left_of_imp fun heq => heq ▸ hne).symm
  order := by
    have hnew : n ∉ supply := fun hmem => hn ((h.mem_iff n).mpr ⟨hmem, hne⟩)
    refine List.pairwise_append.mpr ⟨h.order_append [n], List.pairwise_singleton _ _, ?_⟩
    intro m hm n' hn'
    obtain rfl := List.mem_singleton.mp hn'
    have hsupply : m ∈ supply := ((h.mem_iff m).mp hm).1
    rw [List.idxOf_append_of_mem hsupply, List.idxOf_append_of_notMem hnew]
    exact Nat.lt_add_right _ (List.idxOf_lt_length_of_mem hsupply)

end FirstSupplied

namespace MemberList

variable {l : MemberList} {supply ns : List String} {n : String}

theorem add_of_old (h : n = "" ∨ n ∈ l.names) : l.add n = l := by
  rw [add, if_pos]
  simpa using h

theorem add_of_new (hne : n ≠ "") (hn : n ∉ l.names) : l.add n = ⟨l.names ++ [n]⟩ := by
  rw [add, if_neg]
  simp [hne, hn]

/-- Adding a name keeps the list to what was supplied. -/
theorem firstSupplied_add (h : FirstSupplied supply l.names) (n : String) :
    FirstSupplied (supply ++ [n]) (l.add n).names := by
  by_cases hold : n = "" ∨ n ∈ l.names
  · rw [add_of_old hold]
    exact h.again hold
  · obtain ⟨hne, hn⟩ := not_or.mp hold
    rw [add_of_new hne hn]
    exact h.snoc hne hn

/-- So does adding several. -/
theorem firstSupplied_addAll (h : FirstSupplied supply l.names) (ns : List String) :
    FirstSupplied (supply ++ ns) (l.addAll ns).names := by
  -- what was supplied so far goes along with the list
  induction ns generalizing l supply with
  | nil => rwa [List.append_nil]
  | cons n rest ih =>
    have hrest := ih (firstSupplied_add h n)
    rwa [List.append_assoc, List.singleton_append] at hrest

theorem firstSupplied_ofList (ns : List String) : FirstSupplied ns (ofList ns).names :=
  firstSupplied_addAll .nil ns

theorem addAll_append (l : MemberList) (ns more : List String) :
    l.addAll (ns ++ more) = (l.addAll ns).addAll more :=
  List.foldl_append

theorem addAll_concat (l : MemberList) (ns : List String) (n : String) :
    l.addAll (ns ++ [n]) = (l.addAll ns).add n :=
  addAll_append l ns [n]

theorem ofList_concat (ns : List String) (n : String) : ofList (ns ++ [n]) = (ofList ns).add n :=
  addAll_concat {} ns n

/-- **The names that are new to a list** come behind it, each once, in their order. -/
theorem names_addAll (l : MemberList) (ns : List String) :
    (l.addAll ns).names = l.names ++ (ofList (ns.filter (· ∉ l.names))).names := by
  -- on the last name, which both lists are asked for: the one here, and that of the new names
  induction ns using List.reverseRecOn with
  | nil => exact (List.append_nil _).symm
  | append_singleton ns n ih =>
    rw [addAll_concat, List.filter_append]
    set fresh := ns.filter (· ∉ l.names)
    by_cases hn : n ∈ l.names
    · have hfilter : [n].filter (· ∉ l.names) = [] := by simp [hn]
      have hold : n ∈ (l.addAll ns).names := ih ▸ List.mem_append_left _ hn
      rw [hfilter, List.append_nil, add_of_old (.inr hold), ih]
    · have hfilter : [n].filter (· ∉ l.names) = [n] := by simp [hn]
      have hmem : n ∈ (l.addAll ns).names ↔ n ∈ (ofList fresh).names := by
        rw [ih, List.mem_append, or_iff_right hn]
      rw [hfilter, ofList_concat]
      by_cases hold : n = "" ∨ n ∈ (ofList fresh).names
      · rw [add_of_old (hold.imp_right hmem.mpr), add_of_old hold, ih]
      · obtain ⟨hne, hnew⟩ := not_or.mp hold
        rw [add_of_new hne (mt hmem.mp hnew), add_of_new hne hnew, ih, List.append_assoc]

/-- **A list stays as it is** just if all the names are empty or there already. -/
theorem addAll_eq_self_iff : l.addAll ns = l ↔ ∀ n ∈ ns, n = "" ∨ n ∈ l.names := by
  have hnames : l.addAll ns = l ↔ (l.addAll ns).names = l.names :=
    ⟨congrArg names, congrArg MemberList.mk⟩
  rw [hnames, names_addAll, List.append_right_eq_self, List.eq_nil_iff_forall_not_mem]
  simp only [(firstSupplied_ofList _).mem_iff, List.mem_filter, decide_eq_true_eq]
  refine forall_congr' fun n => ?_
  tauto

/-! ## Calls -/

/-- A call that makes a list, or that adds to the list at hand. -/
inductive Call where
  | ofList (ns : List String)
  | parse (text : String)
  | addAll (ns : List String)

/-- The list after a call. -/
def after (l : MemberList) : Call → MemberList
  | .ofList ns => ofList ns
  | .parse text => parse text
  | .addAll ns => l.addAll ns

/-- The list after some calls, of which there is none at first. -/
def afterAll (calls : List Call) : MemberList := calls.foldl after {}

/-- The names that lines list: what is left of each when trimmed, unless that is nothing or a
comment. -/
def namesOf (lines : List String) : List String :=
  (lines.map Text.trim).filter fun n => n ≠ "" ∧ n.toList.head? ≠ some '#'

/-- The names that the list at hand was supplied with, after a call. -/
def Call.supplied (before : List String) : Call → List String
  | .ofList ns => ns
  | .parse text => namesOf (Text.pieces '\n' text)
  | .addAll ns => before ++ ns

/-- The names that the list after some calls was supplied with. -/
def suppliedBy (calls : List Call) : List String := calls.foldl Call.supplied []

theorem parse_eq_ofList (text : String) :
    parse text = ofList (namesOf (Text.pieces '\n' text)) := by
  refine congrArg ofList (Text.filter_pieces (fun s => ?_) '\n' text)
  have hmark : (s.head? != some '#') = decide (s.head? ≠ some '#') := by
    by_cases h : s.head? = some '#' <;> simp [h]
  rw [Text.isEmpty_ofList, String.toList_ofList, Bool.decide_and, hmark]

/-- **A text lists what its lines list.** -/
theorem parse_intercalate {lines : List String} (h : ∀ s ∈ lines, '\n' ∉ s.toList) :
    parse ("\n".intercalate lines) = ofList (namesOf lines) := by
  cases lines with
  | nil => rfl
  | cons s rest =>
    rw [parse_eq_ofList]
    exact congrArg (ofList ∘ namesOf) (Text.pieces_intercalate (List.cons_ne_nil s rest) h)

theorem firstSupplied_after (h : FirstSupplied supply l.names) (call : Call) :
    FirstSupplied (call.supplied supply) (l.after call).names := by
  cases call with
  | ofList ns => exact firstSupplied_ofList ns
  | parse text =>
    rw [after, parse_eq_ofList]
    exact firstSupplied_ofList _
  | addAll ns => exact firstSupplied_addAll h ns

/-- **After any calls**, a list has the names that it was supplied with. -/
theorem firstSupplied_afterAll (calls : List Call) :
    FirstSupplied (suppliedBy calls) (afterAll calls).names := by
  induction calls using List.reverseRecOn with
  | nil => exact .nil
  | append_singleton calls call ih =>
    rw [suppliedBy, afterAll, List.foldl_concat, List.foldl_concat]
    exact firstSupplied_after ih call

end MemberList

end VehiclePrivacy
