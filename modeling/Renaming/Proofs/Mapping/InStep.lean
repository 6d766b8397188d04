import Renaming.Mapping.Load
import Renaming.Proofs.Mapping.Renames

/-!
# `Proofs/Mapping/InStep` — two look-ups in a table that was loaded

Whatever rows a text holds, its table is that of its renames, so what a rename says can be looked up
by its source in two ways, and the two are in step (`inStep_table`). They are so for symbols of
which the renames say one thing. The rest is the price of three decisions: fields change by name
alone and their entries are found by type as well, entries are kept by what they lead to, and a key
is one text. Where a text makes use of them, the two look-ups part ways (`lookups_out_of_step`).
-/

set_option autoImplicit false

namespace Renaming

namespace Mapping

/-- **What is looked up in a loaded table is in step.** -/
theorem inStep_table {m : Mapping} {source target : Option Text} {t : Table}
    (ht : m.table source target = .ok t) :
    ∃ renames, m.renames source target = .ok renames ∧ t.InStep renames := by
  rw [table_eq] at ht
  cases hrenames : m.renames source target with
  | error f =>
    rw [hrenames] at ht
    cases ht
  | ok renames =>
    rw [hrenames] at ht
    cases ht
    exact ⟨renames, rfl, Table.inStep_ofRenames⟩

/-- A method that is renamed twice, and two fields that differ in nothing but their type. -/
theorem inStep_table_repeated :
    let names (s t : String) : List (Option Text) := twoNames s.toList t.toList
    let row (s t d : String) : MemberRow := ⟨names s t, some d.toList, none⟩
    let m : Mapping := ⟨.srg, twoTiers, [], .ofList [("A".toList, ⟨names "A" "B", true, none,
      [row "f" "g" "I", row "f" "g" "J"], [row "m" "x" "()V", row "m" "y" "()V"]⟩)]⟩
    let owner := "A".toList
    let member (kind : MemberKind) (s t d : String) : Entry :=
      .ofMember kind (.ofKey ⟨owner, s.toList, some d.toList⟩)
        (.ofKey ⟨"B".toList, t.toList, some d.toList⟩) .null
    let renames : List Entry := [.ofClass owner "B".toList .null, member .field "f" "g" "I",
      member .field "f" "g" "J", member .method "m" "x" "()V", member .method "m" "y" "()V"]
    let long := some "J".toList
    let void := some "()V".toList
    ofSrg ("CL: A B\nFD: A/f I B/g I\nFD: A/f J B/g J\n" ++
      "MD: A/m ()V B/x ()V\nMD: A/m ()V B/y ()V").toList = .ok m ∧
    m.renames none none = .ok renames ∧
    ∃ t, m.table none none = .ok t ∧ t.InStep renames ∧
      (∃ e, t.findClassEntry? owner = some e ∧ e.targetName = "B".toList ∧
        t.classes.get? owner = some "B".toList) ∧
      (∃ e, t.findFieldEntry? owner "f".toList long = some e ∧ e.targetName = "g".toList ∧
        t.mapField owner "f".toList long = "g".toList) ∧
      ∃ e, t.findMethodEntry? owner "m".toList void = some e ∧ e.targetName = "y".toList ∧
        t.mapMethod owner "m".toList void = "y".toList := by
  intro names row m owner member renames long void
  have hrenames : m.renames none none = .ok renames := rfl
  have ht : m.table none none = .ok _ := rfl
  obtain ⟨renames', hrenames', hstep⟩ := inStep_table ht
  obtain rfl : renames = renames' := Except.ok.inj (hrenames.symm.trans hrenames')
  refine ⟨rfl, hrenames, _, ht, hstep, ⟨_, rfl, ?_⟩, ⟨_, rfl, ?_⟩, ⟨_, rfl, ?_⟩⟩
  · exact hstep.classes (.agreed (by decide +kernel)) rfl
  · refine hstep.fields (by decide +kernel) (.agreed (by decide +kernel)) ?_ rfl
    intro d hd
    obtain rfl : "J".toList = d := Option.some.inj hd
    exact .agreed (by decide +kernel)
  · have hsplit : renames = renames.take 4 ++ ([] ++ member .method "m" "y" "()V" :: []) := rfl
    have hsteady : Table.Steady renames (.ofMethod, qualifiedKey owner "m".toList "()V".toList)
        "y".toList :=
      .settled hsplit (by decide +kernel) (by decide +kernel) (by decide +kernel)
    exact hstep.methods (by decide) hsteady rfl

/-- Rows whose look-ups part ways: two fields of one name and different types, a field with a blank
in its name, a class and a method that another one follows to the first of its two new names, and a
method that comes back to its first new name. -/
theorem lookups_out_of_step :
    let load (format : Format) (tier : Option Text) (text : String) :=
      Table.ofFormat .refuses format ⟨tier, none, false⟩ text.toList
    let a := "A".toList
    let void := some "()V".toList
    (∃ t, load .srg none "FD: A/f I B/x I\nFD: A/f J B/y J" = .ok t ∧
      (∃ e, t.findFieldEntry? a "f".toList (some "I".toList) = some e ∧ e.targetName = "x".toList) ∧
      t.mapField a "f".toList (some "I".toList) = "y".toList) ∧
    (∃ t, load .tiny1 none "v1\to\tn\nFIELD\tA\tI\tf x\ty" = .ok t ∧
      (∃ e, t.findFieldEntry? a "f".toList (some "x I".toList) = some e ∧
        e.targetName = "y".toList) ∧
      t.mapField a "f".toList (some "x I".toList) = "f".toList) ∧
    (∃ t, load .tiny1 (some "o".toList)
        "v1\tf\to\tn\nCLASS\t1\tA\tX\nCLASS\t2\tA\tY\nCLASS\t3\tB\tY" = .ok t ∧
      (∃ e, t.findClassEntry? a = some e ∧ e.targetName = "X".toList) ∧
      t.classes.get? a = some "Y".toList) ∧
    (∃ t, load .csrg none "A B\nA m ()V x\nA m ()V y\nA k ()V y" = .ok t ∧
      (∃ e, t.findMethodEntry? a "m".toList void = some e ∧ e.targetName = "x".toList) ∧
      t.mapMethod a "m".toList void = "y".toList) ∧
    (∃ t, load .csrg none "A B\nA m ()V x\nA m ()V y\nA m ()V x" = .ok t ∧
      (∃ e, t.findMethodEntry? a "m".toList void = some e ∧ e.targetName = "y".toList) ∧
      t.mapMethod a "m".toList void = "x".toList) := by
  intro load a void
  refine ⟨⟨_, rfl, ?_⟩, ⟨_, rfl, ?_⟩, ⟨_, rfl, ?_⟩, ⟨_, rfl, ?_⟩, ⟨_, rfl, ?_⟩⟩ <;>
    exact ⟨Option.map_eq_some_iff.1 (by decide +kernel), by decide +kernel⟩

end Mapping

end Renaming
