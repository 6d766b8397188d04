import Renaming.Proofs.Mapping.ReportMember

/-!
# `Proofs/Mapping/Report` — a report and the mapping it describes

A report speaks of classes in readable names and shows their types as source code does, with line
numbers around its members; the mapping leads from obfuscated to readable names. What is reported
can be written in a notation of many names as well, with the obfuscated names as the first ones, and
then every descriptor has to be in obfuscated names (`ReportClass.tiered`).

The reader finds the obfuscated name of a class only when it comes to the block of the class, and a
type may be used long before. It translates all descriptors at the end, so that

> a report makes the table of the classes it describes, in whatever order they come
> (`ofFormat_report`).
-/

set_option autoImplicit false

namespace Renaming

namespace Mapping

/-! ## What is reported -/

/-- A class as a report shows it, with dotted names. -/
structure ReportClass where
  readable : Text
  obfuscated : Text
  members : List ReportMember
deriving DecidableEq, Repr

def reportTiers : List Text := ["obfuscated".toList, "original".toList]

/-- The class with its names, the obfuscated one first. -/
def ReportClass.tiered (rename : Text → Text) (c : ReportClass) : TieredClass :=
  ⟨Descriptor.internalName c.obfuscated, [Descriptor.internalName c.readable],
    c.members.map (ReportMember.tiered rename)⟩

/-- The obfuscated name of a class that is listed. Others keep their names. -/
def obfuscatedName (classes : List ReportClass) (name : Text) : Text :=
  match classes.find? fun c => Descriptor.internalName c.readable = name with
  | some c => Descriptor.internalName c.obfuscated
  | none => name

structure ReportClass.IsPlain (c : ReportClass) : Prop where
  readable : c.readable.IsWordWithout DisplayType.marks
  obfuscated : c.obfuscated.IsWordWithout DisplayType.marks
  members : ∀ x ∈ c.members, x.IsPlain

/-- The row of a class with those of its members below it. -/
def ReportClass.lines (indent : Text) (c : ReportClass) : List Text :=
  wordRow [c.readable, ['-', '>'], c.obfuscated ++ [':']] :: c.members.map (ReportMember.row indent)

/-! ## Reading a class -/

theorem isLead_of_isWordWithout {w : Text} (hw : w.IsWordWithout DisplayType.marks) :
    w.IsLead := by
  refine ⟨hw.1, fun h => ?_⟩
  exact hw.2 '#' (by decide) (List.mem_of_mem_head? h)

/-- What is read so far, with a class and its members added. -/
def ReportClass.into (s : ReportReading) (c : ReportClass) : ReportReading :=
  ⟨(c.tiered id).item.into s.mapping,
    s.obfuscated.insert (Descriptor.internalName c.readable) (Descriptor.internalName c.obfuscated),
    some (Descriptor.internalName c.obfuscated)⟩

section Class

variable {c : ReportClass} (hc : c.IsPlain)

include hc

theorem isField_classWords :
    ∀ w ∈ [c.readable, ['-', '>'], c.obfuscated ++ [':']], Text.IsField w := by
  simp only [List.forall_mem_cons, List.not_mem_nil, false_implies, implies_true, and_true]
  exact ⟨hc.readable.1, by decide,
    Text.isField_append hc.obfuscated.1 (show Text.IsField [':'] by decide).2⟩

theorem classRow?_row :
    ProGuard.classRow? (Text.trimRight (wordRow [c.readable, ['-', '>'], c.obfuscated ++ [':']])) =
      some (c.readable, c.obfuscated) := by
  have hwords := isField_classWords hc
  have htrim : Text.trimRight (wordRow [c.readable, ['-', '>'], c.obfuscated ++ [':']]) =
      wordRow [c.readable, ['-', '>'], c.obfuscated ++ [':']] := by
    have hend : wordRow [c.readable, ['-', '>'], c.obfuscated ++ [':']] =
        (c.readable ++ [' ', '-', '>', ' ']) ++ (c.obfuscated ++ [':']) := by
      simp [wordRow, Text.joinWith]
    rw [hend, Text.trimRight_append _ (hwords _ (by simp))]
  obtain ⟨rest, hrest⟩ := Text.exists_joinWith_eq_append ' ' c.readable
    [['-', '>'], c.obfuscated ++ [':']]
  have hfields := fields_wordRow hwords
  rw [htrim]
  rw [wordRow, hrest] at hfields ⊢
  obtain ⟨d, r, hreadable⟩ := List.exists_cons_of_ne_nil hc.readable.1.1
  have hd : Text.isBlank d = false := hc.readable.1.2 d (by rw [hreadable]; exact List.mem_cons_self)
  unfold ProGuard.classRow?
  rw [hreadable] at hfields ⊢
  dsimp only [List.cons_append] at hfields ⊢
  rw [hd, if_neg Bool.false_ne_true, hfields]
  -- the colon comes off the end of the last word
  obtain ⟨e, q, hobfuscated⟩ := List.exists_cons_of_ne_nil
    (List.reverse_ne_nil_iff.2 hc.obfuscated.1.1)
  have hreverse : (c.obfuscated ++ [':']).reverse = ':' :: e :: q := by
    rw [List.reverse_append, hobfuscated]
    rfl
  split
  · rename_i heq
    cases heq
    rw [hreverse]
    show some (_, (e :: q).reverse) = _
    rw [← hobfuscated, List.reverse_reverse]
  · rename_i hnot
    exact absurd rfl (hnot _ _)

theorem isRow_classRow : (wordRow [c.readable, ['-', '>'], c.obfuscated ++ [':']]).IsRow := by
  have hwords := isField_classWords hc
  exact isRow_wordRow (isLead_of_isWordWithout hc.readable) (List.forall_mem_cons.1 hwords).2

theorem proguardStep_class (s : ReportReading) (n : Nat) :
    proguardStep s (n, wordRow [c.readable, ['-', '>'], c.obfuscated ++ [':']]) =
      .ok ⟨s.mapping.enter (Descriptor.internalName c.obfuscated) ((c.tiered id).names.map some),
        s.obfuscated.insert (Descriptor.internalName c.readable)
          (Descriptor.internalName c.obfuscated),
        some (Descriptor.internalName c.obfuscated)⟩ := by
  obtain ⟨rest, hrest⟩ := Text.exists_joinWith_eq_append ' ' c.readable
    [['-', '>'], c.obfuscated ++ [':']]
  have hsign : Text.startsWith ['#'] (Text.trimLeft
      (wordRow [c.readable, ['-', '>'], c.obfuscated ++ [':']])) = false := by
    have htrim := Text.trimLeft_append (show Text.isBlankText [] = true from rfl) hc.readable.1
      (t := rest)
    rw [List.nil_append] at htrim
    rw [wordRow, hrest, htrim]
    exact startsWith_append_of_notMem hc.readable.1.1 (hc.readable.2 '#' (by decide)) rest
  have hne : Descriptor.internalName c.obfuscated ≠ [] :=
    (DisplayType.isField_internalName hc.obfuscated.1).1
  have hdeclare := declare_eq_enter s.mapping hne [some (Descriptor.internalName c.readable)]
  unfold proguardStep
  dsimp only
  rw [hsign, if_neg Bool.false_ne_true, classRow?_row hc]
  dsimp only
  rw [twoNames, hdeclare]
  rfl

omit hc in
theorem reads_members {indent : Text} (hindent : IsIndent indent) {members : List ReportMember}
    (hmembers : ∀ x ∈ members, x.IsPlain) (m : Mapping) (obfuscated : OrderedMap Text Text)
    (owner : Text) :
    Reads proguardStep ⟨m, obfuscated, some owner⟩ (members.map (ReportMember.row indent))
      ⟨((members.map (ReportMember.tiered id)).map TieredMember.row).foldl
        (fun m p => m.addMember owner p) m, obfuscated, some owner⟩ := by
  induction members generalizing m with
  | nil => exact .nil _
  | cons x members ih =>
    rw [List.forall_mem_cons] at hmembers
    exact .row (isRow_row hmembers.1 hindent)
      (proguardStep_member hmembers.1 hindent m obfuscated owner) (ih hmembers.2 _)

/-- **The lines of a class lead to the class and its members.** -/
theorem reads_class {indent : Text} (hindent : IsIndent indent) (s : ReportReading) :
    Reads proguardStep s (c.lines indent) (c.into s) :=
  .row (isRow_classRow hc) (proguardStep_class hc s)
    (reads_members hindent hc.members _ _ _)

end Class

/-! ## Renaming what was read -/

section Renamed

variable (rename : Text → Text)

theorem renameDescriptors_addMember (m : Mapping) (owner : Text) {x : ReportMember}
    (hx : x.IsPlain) :
    (m.addMember owner (x.tiered id).row).renameDescriptors rename =
      (m.renameDescriptors rename).addMember owner (x.tiered rename).row := by
  have hrow : renameRow rename (x.tiered id).row.2 = (x.tiered rename).row.2 := by
    have hdescriptor := MemberType.rename_descriptor hx.type rename
    show MemberRow.mk _ (some (Descriptor.rename rename (x.type.descriptor id))) _ = _
    rw [hdescriptor]
    rfl
  have hkind : (x.tiered id).row.1 = x.kind := rfl
  have hkind' : (x.tiered rename).row.1 = x.kind := rfl
  unfold addMember addField addMethod
  rw [hkind, hkind', ← hrow]
  cases x.kind with
  | field =>
    apply renameDescriptors_onOwner
    intro c
    simp only [ClassRow.renameRows, List.map_append, List.map_cons, List.map_nil]
  | method =>
    apply renameDescriptors_onOwner
    intro c
    simp only [ClassRow.renameRows, List.map_append, List.map_cons, List.map_nil]

theorem renameDescriptors_addMembers (m : Mapping) (owner : Text) {members : List ReportMember}
    (hmembers : ∀ x ∈ members, x.IsPlain) :
    (((members.map (ReportMember.tiered id)).map TieredMember.row).foldl
        (fun m p => m.addMember owner p) m).renameDescriptors rename =
      ((members.map (ReportMember.tiered rename)).map TieredMember.row).foldl
        (fun m p => m.addMember owner p) (m.renameDescriptors rename) := by
  induction members generalizing m with
  | nil => rfl
  | cons x members ih =>
    rw [List.forall_mem_cons] at hmembers
    have hmember := renameDescriptors_addMember rename m owner hmembers.1
    have hrest := ih (m.addMember owner (x.tiered id).row) hmembers.2
    rw [hmember] at hrest
    exact hrest

theorem renameDescriptors_into (m : Mapping) {c : ReportClass} (hc : c.IsPlain) :
    ((c.tiered id).item.into m).renameDescriptors rename =
      (c.tiered rename).item.into (m.renameDescriptors rename) := by
  have henter : (m.enter (c.tiered id).first ((c.tiered id).names.map some)).renameDescriptors
      rename = (m.renameDescriptors rename).enter (c.tiered id).first
        ((c.tiered id).names.map some) :=
    renameDescriptors_onOwner m _ _ _ fun _ => rfl
  have hmembers := renameDescriptors_addMembers rename
    (m.enter (c.tiered id).first ((c.tiered id).names.map some)) (c.tiered id).first hc.members
  rw [henter] at hmembers
  exact hmembers

theorem renameDescriptors_ofItems {classes : List ReportClass} (hclasses : ∀ c ∈ classes, c.IsPlain)
    (format : Format) (namespaces : List Text) :
    (ofItems format namespaces (classes.map fun c => (c.tiered id).item)).renameDescriptors rename =
      ofItems format namespaces (classes.map fun c => (c.tiered rename).item) := by
  have hfold : ∀ m, ((classes.map fun c => (c.tiered id).item).foldl Item.into m).renameDescriptors
      rename = (classes.map fun c => (c.tiered rename).item).foldl Item.into
        (m.renameDescriptors rename) := by
    induction classes with
    | nil => exact fun _ => rfl
    | cons c classes ih =>
      rw [List.forall_mem_cons] at hclasses
      intro m
      rw [List.map_cons, List.map_cons, List.foldl_cons, List.foldl_cons, ih hclasses.2,
        renameDescriptors_into rename m hclasses.1]
  exact hfold (ofNamespaces format namespaces)

end Renamed

/-! ## The whole report -/

section Report

variable {classes : List ReportClass} (hclasses : ∀ c ∈ classes, c.IsPlain)

/-- The readable and the obfuscated name of a class. -/
def ReportClass.pair (c : ReportClass) : Text × Text :=
  (Descriptor.internalName c.readable, Descriptor.internalName c.obfuscated)

/-- The map that is read is complete, and a class is listed once. -/
theorem getD_pairs (hdistinct : (classes.map fun c => Descriptor.internalName c.readable).Nodup)
    (name : Text) :
    (OrderedMap.ofList (classes.map ReportClass.pair)).getD name name =
      obfuscatedName classes name := by
  have hnodup : ((classes.map ReportClass.pair).map Prod.fst).Nodup := by
    rw [List.map_map]
    exact hdistinct
  have hfunctional := OrderedMap.functional_of_nodup hnodup
  unfold obfuscatedName OrderedMap.getD
  cases hfind : classes.find? fun c => decide (Descriptor.internalName c.readable = name) with
  | some c =>
    have hname : Descriptor.internalName c.readable = name := by
      simpa using List.find?_some hfind
    have hget : (OrderedMap.ofList (classes.map ReportClass.pair)).get? name =
        some (Descriptor.internalName c.obfuscated) := by
      rw [OrderedMap.get?_ofList_iff hfunctional, ← hname]
      exact List.mem_map_of_mem (List.mem_of_find?_eq_some hfind)
    rw [hget]
    rfl
  | none =>
    have hget : (OrderedMap.ofList (classes.map ReportClass.pair)).get? name = none := by
      cases h : (OrderedMap.ofList (classes.map ReportClass.pair)).get? name with
      | none => rfl
      | some v =>
        obtain ⟨c, hc, hpair⟩ := List.mem_map.1 (OrderedMap.mem_of_get?_ofList h)
        have hnot := List.find?_eq_none.1 hfind c hc
        have hname : ReportClass.pair c = (name, v) → Descriptor.internalName c.readable = name :=
          congrArg Prod.fst
        exact absurd (hname hpair) (by simpa using hnot)
    rw [hget]
    rfl

include hclasses

theorem reads_report {indent : Text} (hindent : IsIndent indent) (s : ReportReading) :
    Reads proguardStep s (classes.flatMap (ReportClass.lines indent))
      (classes.foldl ReportClass.into s) := by
  induction classes generalizing s with
  | nil => exact .nil s
  | cons c classes ih =>
    rw [List.forall_mem_cons] at hclasses
    rw [List.flatMap_cons, List.foldl_cons]
    exact (reads_class hclasses.1 hindent s).append (ih hclasses.2 _)

/-- **A report is read as its classes with their descriptors in obfuscated names.** -/
theorem ofProGuard_lines {indent : Text} (hindent : IsIndent indent)
    (hdistinct : (classes.map fun c => Descriptor.internalName c.readable).Nodup) :
    ofProGuard (Text.ofLines (classes.flatMap (ReportClass.lines indent))) =
      .ok (ofItems .proguard reportTiers
        (classes.map fun c => (c.tiered (obfuscatedName classes)).item)) := by
  let start : ReportReading := ⟨ofNamespaces .proguard reportTiers, .empty, none⟩
  have hmapping : (classes.foldl ReportClass.into start).mapping =
      ofItems .proguard reportTiers (classes.map fun c => (c.tiered id).item) := by
    rw [ofItems, List.foldl_map]
    exact (List.foldl_hom ReportReading.mapping fun _ _ => rfl).symm
  have hobfuscated : (classes.foldl ReportClass.into start).obfuscated =
      .ofList (classes.map ReportClass.pair) := by
    rw [OrderedMap.ofList, List.foldl_map]
    exact (List.foldl_hom ReportReading.obfuscated fun _ _ => rfl).symm
  have hrename : (fun name => (classes.foldl ReportClass.into start).obfuscated.getD name name) =
      obfuscatedName classes := by
    funext name
    rw [hobfuscated, getD_pairs hdistinct]
  have hread := (reads_report hclasses hindent start).readLines_ofLines
  show (readLines proguardStep start _ >>= fun s =>
    pure (s.mapping.renameDescriptors fun name => s.obfuscated.getD name name)) = _
  rw [hread]
  show Except.ok _ = _
  rw [hrename, hmapping, renameDescriptors_ofItems _ hclasses]

/-- Only the tiers of a mapping can be asked for, and they are asked for in their order. -/
def AsksForTiers (namespaces : List Text) (step : Step) : Prop :=
  (step.source = none ∨ step.source = namespaces.head?) ∧
    (step.target = none ∨ step.target = namespaces.getLast?)

omit hclasses in
theorem tableBetween_ofItems (format format' : Format) (namespaces : List Text) (items : List Item)
    (s t : Nat) : (ofItems format namespaces items).tableBetween s t =
      (ofItems format' namespaces items).tableBetween s t := by
  rw [ofItems_eq format, ofItems_eq format', tableBetween_eq, tableBetween_eq]
  rfl

theorem isField_obfuscatedName {name : Text} (hname : name.IsField) :
    (obfuscatedName classes name).IsField := by
  unfold obfuscatedName
  split
  · rename_i c hfind
    have hc := hclasses c (List.mem_of_find?_eq_some hfind)
    exact DisplayType.isField_internalName hc.obfuscated.1
  · exact hname

omit hclasses in
theorem ReportMember.IsPlain.tiered {x : ReportMember} (hx : x.IsPlain) {rename : Text → Text}
    (hrename : ∀ name : Text, name.IsField → (rename name).IsField) :
    (x.tiered rename).IsPlain reportTiers.length where
  length := rfl
  names := by
    show ∀ w ∈ [x.obfuscated, x.readable], Text.IsField w
    simp only [List.forall_mem_cons, List.not_mem_nil, false_implies, implies_true, and_true]
    exact ⟨hx.obfuscated.1, hx.readable.1⟩
  descriptor := hx.type.isField_descriptor hrename
  kind := by
    refine (MemberType.startsWith_descriptor rename x.type).trans ?_
    show _ = decide ((if x.type.parameters.isSome then MemberKind.method else .field) = .method)
    cases x.type.parameters <;> rfl

theorem isPlain_tiered :
    ∀ c ∈ classes.map (ReportClass.tiered (obfuscatedName classes)),
      c.IsPlain reportTiers.length := by
  intro c' hc'
  obtain ⟨c, hc, rfl⟩ := List.mem_map.1 hc'
  have hplain := hclasses c hc
  have hobfuscated := DisplayType.isField_internalName hplain.obfuscated.1
  constructor
  · rfl
  · refine ⟨hobfuscated, fun h => ?_⟩
    have hsign := DisplayType.notMem_internalName (by decide) (hplain.obfuscated.2 '#' (by decide))
    exact hsign (List.mem_of_mem_head? h)
  · show ∀ w ∈ [Descriptor.internalName c.readable], Text.IsField w
    rw [List.forall_mem_singleton]
    exact DisplayType.isField_internalName hplain.readable.1
  · intro x' hx'
    obtain ⟨x, hx, rfl⟩ := List.mem_map.1 hx'
    exact (hplain.members x hx).tiered fun _ hname => isField_obfuscatedName hclasses hname

omit hclasses in
/-- The tiers of a report are asked for by their names or by default. -/
theorem tiers_of_asksForTiers (items : List Item) {step : Step}
    (hstep : AsksForTiers reportTiers step) :
    (ofItems .tiny1 reportTiers items).tiers step.source step.target = .ok (0, 1) := by
  unfold tiers tierIndex
  rw [isTiered_ofItems, namespaces_ofItems]
  rcases hstep with ⟨hsource | hsource, htarget | htarget⟩ <;> rw [hsource, htarget] <;> rfl

/-- **A report makes the table of the classes that it describes.** Its member rows may have line
numbers, its classes may be used before they are listed, and what is asked for in a report that has
no namespaces to choose from does not count. -/
theorem ofFormat_report {indent : Text} (hindent : IsIndent indent)
    (hdistinct : (classes.map fun c => Descriptor.internalName c.readable).Nodup) :
    ∃ table, ∀ read,
      (∀ step, Table.ofFormat read .proguard step
        (Text.ofLines (classes.flatMap (ReportClass.lines indent))) = .ok table) ∧
      ∀ step, AsksForTiers reportTiers step → Table.ofFormat read .tiny1 step
        (Text.ofLines (tiny1Header reportTiers ::
          (classes.map (ReportClass.tiered (obfuscatedName classes))).flatMap
            TieredClass.tiny1Lines)) = .ok table := by
  let items : List Item := classes.map fun c => (c.tiered (obfuscatedName classes)).item
  have hitems : (classes.map (ReportClass.tiered (obfuscatedName classes))).map TieredClass.item =
      items := by
    rw [List.map_map]
    rfl
  have hnamespaces : ∀ format, (ofItems format reportTiers items).namespaces ≠ [] := by
    intro format
    rw [namespaces_ofItems]
    exact List.cons_ne_nil _ _
  refine ⟨(ofItems .proguard reportTiers items).tableBetween 0 1, fun read => ⟨?_, ?_⟩⟩
  · intro step
    show (ofProGuard _ >>= fun m => m.table step.source step.target) = _
    rw [ofProGuard_lines hclasses hindent hdistinct]
    show (ofItems .proguard reportTiers items).table step.source step.target = _
    rw [table_eq_of_namespaces fun _ => hnamespaces .proguard]
    unfold tiers
    rw [isTiered_ofItems]
    rfl
  · intro step hstep
    show (ofTiny1 _ >>= fun m => m.table step.source step.target) = _
    rw [ofTiny1_lines (by decide) (by decide) (isPlain_tiered hclasses), hitems]
    show (ofItems .tiny1 reportTiers items).table step.source step.target = _
    rw [table_eq_of_namespaces fun _ => hnamespaces .tiny1, tiers_of_asksForTiers items hstep]
    exact congrArg Except.ok (tableBetween_ofItems .tiny1 .proguard reportTiers items 0 1)

end Report

/-- A class that is used in arrays before its own block, with line numbers on both sides. -/
def carReport : List ReportClass :=
  [⟨"p.Car".toList, "a".toList,
    [⟨⟨none, .array (.array (.named "p.Wheel".toList))⟩, "wheels".toList, "b".toList, none, []⟩,
      ⟨⟨some [.array (.named "p.Wheel".toList), .primitive .int], .primitive .void⟩, "add".toList,
        "a".toList, some ("1".toList, "2".toList), ["3".toList, "4".toList]⟩]⟩,
    ⟨"p.Wheel".toList, "b".toList, []⟩]

theorem ofFormat_report_carReport :
    (∀ c ∈ carReport, c.IsPlain) ∧ IsIndent "    ".toList ∧
      (carReport.map fun c => Descriptor.internalName c.readable).Nodup ∧
      AsksForTiers reportTiers .default ∧
      ∃ table, ∀ read,
        Table.ofFormat read .proguard .default
          (Text.ofLines (carReport.flatMap (ReportClass.lines "    ".toList))) = .ok table ∧
        Table.ofFormat read .tiny1 .default (Text.ofLines (tiny1Header reportTiers ::
          (carReport.map (ReportClass.tiered (obfuscatedName carReport))).flatMap
            TieredClass.tiny1Lines)) = .ok table := by
  have hindent : IsIndent "    ".toList := by simp [IsIndent]
  have hdistinct : (carReport.map fun c => Descriptor.internalName c.readable).Nodup := by decide
  have hfield : ReportMember.IsPlain ⟨⟨none, .array (.array (.named "p.Wheel".toList))⟩,
      "wheels".toList, "b".toList, none, []⟩ :=
    ⟨⟨by rintro _ ⟨⟩, by decide⟩, by decide, by decide, by decide, by rintro _ ⟨⟩,
      ⟨by decide, by rintro _ ⟨⟩⟩, fun _ => rfl⟩
  have hmethod : ReportMember.IsPlain
      ⟨⟨some [.array (.named "p.Wheel".toList), .primitive .int], .primitive .void⟩, "add".toList,
        "a".toList, some ("1".toList, "2".toList), ["3".toList, "4".toList]⟩ :=
    ⟨⟨by rintro _ ⟨⟩; decide, by decide⟩, by decide, by decide, by decide, by rintro _ ⟨⟩; decide,
      by decide, by rintro ⟨⟩⟩
  have hclasses : ∀ c ∈ carReport, c.IsPlain := by
    simp only [carReport, List.forall_mem_cons, List.not_mem_nil, false_implies, implies_true,
      and_true]
    refine ⟨⟨by decide, by decide, ?_⟩, ⟨by decide, by decide, by rintro _ ⟨⟩⟩⟩
    simp only [List.forall_mem_cons, List.not_mem_nil, false_implies, implies_true, and_true]
    exact ⟨hfield, hmethod⟩
  obtain ⟨table, htable⟩ := ofFormat_report hclasses hindent hdistinct
  exact ⟨hclasses, hindent, hdistinct, ⟨.inl rfl, .inl rfl⟩, table, fun read =>
    ⟨(htable read).1 .default, (htable read).2 .default ⟨.inl rfl, .inl rfl⟩⟩⟩

example : carReport.flatMap (ReportClass.lines "    ".toList) =
    ["p.Car -> a:".toList, "    p.Wheel[][] wheels -> b".toList,
      "    1:2:void add(p.Wheel[],int):3:4 -> a".toList, "p.Wheel -> b:".toList] := by decide +kernel

example : (carReport.map (ReportClass.tiered (obfuscatedName carReport))).flatMap
    TieredClass.tiny1Lines =
    ["CLASS\ta\tp/Car".toList, "FIELD\ta\t[[Lb;\tb\twheels".toList,
      "METHOD\ta\t([Lb;I)V\ta\tadd".toList, "CLASS\tb\tp/Wheel".toList] := by decide +kernel

end Mapping

end Renaming
