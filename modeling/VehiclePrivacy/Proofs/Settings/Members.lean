import VehiclePrivacy.Proofs.Redaction.Supply
import VehiclePrivacy.Proofs.Settings.Words

/-!
# The members that settings list

Members of part II are listed in a file, or inline under a key of their own, or in both places. The
list of the settings begins with those in the file, and those inline that are not in the file come
behind them (`Settings.members_firstSupplied`).
-/

namespace VehiclePrivacy.Settings

open MemberList

variable {files : FileSource} {p : Properties} {s : Settings} {l : MemberList}

/-- The members that are listed in the file that is named, of which there are none if none is. -/
inductive ListedInFile (files : FileSource) (p : Properties) : MemberList → Prop
  | unnamed (h : nonBlank? p .partIIFile = none) : ListedInFile files p {}
  | named {path text : String} (h : nonBlank? p .partIIFile = some path)
      (htext : files.text path = .ok text) : ListedInFile files p (.parse text)

/-- The names that are listed inline: what is left of each piece between commas when trimmed, unless
that is nothing. -/
def inlineNames (p : Properties) : List String :=
  ((Text.pieces ',' ((p.get? Key.partIIFields.text).getD "")).map Text.trim).filter (· ≠ "")

theorem items_partIIFields (p : Properties) : items p .partIIFields = inlineNames p := by
  have hnone : Text.listItems "" = [] := by decide
  rw [items, inlineNames, ← Text.listItems_eq]
  cases p.get? Key.partIIFields.text with
  | none => exact hnone.symm
  | some text => rfl

/-- The names in the file come first, the names inline are added to them. -/
theorem memberListOf_eq_ok (h : memberListOf files p = .ok l) :
    ∃ listed, ListedInFile files p listed ∧ l = listed.addAll (inlineNames p) := by
  rw [memberListOf, items_partIIFields] at h
  cases hpath : nonBlank? p .partIIFile with
  | none =>
    rw [hpath] at h
    exact ⟨{}, .unnamed hpath, (Except.ok.inj h).symm⟩
  | some path =>
    simp only [hpath, MemberList.load] at h
    cases htext : files.text path with
    | error e =>
      rw [htext] at h
      cases h
    | ok text =>
      rw [htext] at h
      exact ⟨.parse text, .named hpath htext, (Except.ok.inj h).symm⟩

theorem memberListOf_of_ofProperties (h : ofProperties files p = .ok s) :
    memberListOf files p = .ok s.rules.partII := by
  obtain ⟨hsound, hwords⟩ := ofProperties_ok_iff.mp h
  exact memberListOf_ok_iff.mpr ⟨hsound .partIIFile, hwords ▸ rfl⟩

/--
**A list has what it was supplied with, each name once, in the order of the first supply.** This
fixes the list after any calls that make one or add to it. A text supplies what its lines list. To
add names and then more is to add all of them, and a list stays as it is just if every name is empty
or there already. So the list of the settings is made of the names in the file, in their order, and
then of the names inline that are not in the file, in theirs.
-/
theorem members_firstSupplied :
    (∀ calls : List Call,
      (∀ names, names = (afterAll calls).names ↔ FirstSupplied (suppliedBy calls) names) ∧
      "" ∉ (afterAll calls).names ∧ (afterAll calls).names.Nodup) ∧
    (∀ lines : List String, (∀ s ∈ lines, '\n' ∉ s.toList) →
      parse ("\n".intercalate lines) = ofList (namesOf lines)) ∧
    (∀ (l : MemberList) (ns more : List String),
      (l.addAll ns).addAll more = l.addAll (ns ++ more)) ∧
    (∀ (l : MemberList) (ns : List String),
      l.addAll ns = l ↔ ∀ n ∈ ns, n = "" ∨ n ∈ l.names) ∧
    ∀ (files : FileSource) (p : Properties) (s : Settings), ofProperties files p = .ok s →
      ∃ listed fresh, ListedInFile files p listed ∧
        s.rules.partII.names = listed.names ++ fresh ∧
        FirstSupplied ((inlineNames p).filter (· ∉ listed.names)) fresh := by
  refine ⟨fun calls => ?_, fun _ => parse_intercalate, fun l ns more => (addAll_append ..).symm,
    fun _ _ => addAll_eq_self_iff, fun files p s h => ?_⟩
  · have hcalls := firstSupplied_afterAll calls
    have hempty : "" ∉ (afterAll calls).names := fun hmem => ((hcalls.mem_iff "").mp hmem).2 rfl
    exact ⟨fun names => ⟨fun heq => heq ▸ hcalls, fun h => h.unique hcalls⟩, hempty, hcalls.nodup⟩
  · obtain ⟨listed, hlisted, hl⟩ := memberListOf_eq_ok (memberListOf_of_ofProperties h)
    exact ⟨listed, _, hlisted, hl ▸ names_addAll .., firstSupplied_ofList _⟩

/-- Here one member is listed in both places, and comes first for being first in the file. -/
theorem members_firstSupplied_of_two_places :
    let lines := ["vendorId\r", "# optional", " classDetails", "vendorId", ""]
    let files : FileSource := fun _ => .ok ("\n".intercalate lines).toUTF8
    let p : Properties := ⟨[("privacy.redaction.partII.fields", "weatherReport, vendorId,"),
      ("privacy.redaction.properties", "members.txt")]⟩
    let s : Settings :=
      { rules := { partII := ⟨["vendorId", "classDetails", "weatherReport"]⟩ } }
    ofProperties files p = .ok s ∧
      parse ("\n".intercalate lines) = ofList ["vendorId", "classDetails", "vendorId"] ∧
      ∃ listed fresh, ListedInFile files p listed ∧
        s.rules.partII.names = listed.names ++ fresh ∧
        FirstSupplied ((inlineNames p).filter (· ∉ listed.names)) fresh := by
  intro lines files p s
  have hs : ofProperties files p = .ok s := by decide +kernel
  have hlines : ∀ line ∈ lines, '\n' ∉ line.toList := by decide
  obtain ⟨-, hparse, -, -, hsettings⟩ := members_firstSupplied
  exact ⟨hs, hparse lines hlines, hsettings files p s hs⟩

end VehiclePrivacy.Settings
