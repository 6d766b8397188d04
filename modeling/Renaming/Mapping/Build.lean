import Renaming.Mapping.Basic
import Renaming.Table.Reverse

/-!
# `Mapping/Build` — from rows to a table

Two tiers are chosen, the first and the last unless others are asked for, and every row becomes a
rename from its name in the one to its name in the other. Descriptors, which are in first-tier
names, are carried over into the source tier for the keys and into the target tier for the
entries. A class without a target name follows the class around it; a member without one keeps its
name; a row without a source name is left out.
-/

set_option autoImplicit false

namespace Renaming

namespace Mapping

/-- Whether the notation holds a header of namespaces to choose from. -/
def isTiered (m : Mapping) : Bool :=
  m.format = .tsrg2 ∨ m.format = .tiny1 ∨ m.format = .tiny2

/-- The place of a namespace, or a default when none is asked for. -/
def tierIndex (m : Mapping) (requested : Option Text) (default : Nat) : Except Fault Nat :=
  match requested with
  | none => .ok default
  | some name =>
    match m.namespaces.idxOf? name with
    | some i => .ok i
    | none => .error (.namespaceNotFound name m.namespaces)

/-- The source and the target tier. Notations without a header have just these two. -/
def tiers (m : Mapping) (source target : Option Text) : Except Fault (Nat × Nat) :=
  if m.isTiered then do
    let s ← m.tierIndex source 0
    let t ← m.tierIndex target (m.namespaces.length - 1)
    return (s, t)
  else .ok (0, 1)

/-- The target names of the declared classes that have both names, by their source names. -/
def namedClasses (m : Mapping) (s t : Nat) : OrderedMap Text Text :=
  m.classes.values.foldl (fun named c =>
    match c.declared, nameAt c.names s, nameAt c.names t with
    | true, some source, some target => named.insert source target
    | _, _, _ => named) .empty

/-- The declared classes with a source name: first, source and target name, and comment. -/
def classRenames (m : Mapping) (s t : Nat) : List (Text × Text × Text × Option Text) :=
  let named := m.namedClasses s t
  m.classes.toList.filterMap fun (first, c) =>
    if c.declared then
      (nameAt c.names s).map fun source =>
        let target := (nameAt c.names t).getD (resolveNested named.get? source)
        (first, source, target, c.comment)
    else none

/-- The classes of a mapping as they are called in the source and in the target tier. -/
structure TierNames where
  toSource : OrderedMap Text Text
  toTarget : OrderedMap Text Text

/-- The names of the declared classes in both tiers, by their first names. -/
def tierNames (m : Mapping) (s t : Nat) : TierNames :=
  let renames := m.classRenames s t
  { toSource := .ofList (renames.map fun r => (r.1, r.2.1))
    toTarget := .ofList (renames.map fun r => (r.1, r.2.2.1)) }

/-- The key of a member row in the source tier, if it has a name there. -/
def sourceKey? (n : TierNames) (s : Nat) (owner : Text) (row : MemberRow) : Option MemberKey :=
  (nameAt row.names s).map fun name =>
    ⟨owner, name, row.descriptor.map (Descriptor.rename fun c => n.toSource.getD c c)⟩

/-- The key of a member row in the target tier. Without a name there it keeps the source name. -/
def targetKey (n : TierNames) (s t : Nat) (owner : Text) (row : MemberRow) : MemberKey :=
  ⟨owner, ((nameAt row.names t).or (nameAt row.names s)).getD [],
    row.descriptor.map (Descriptor.rename fun c => n.toTarget.getD c c)⟩

/-- Adds the rename of a field row. A field is keyed by its name alone. -/
def addFieldRow (n : TierNames) (s t : Nat) (source target : Text) (r : Table) (row : MemberRow) :
    Table :=
  match sourceKey? n s source row with
  | none => r
  | some k =>
    let k' := targetKey n s t target row
    (r.addField k.bare.format k'.name).addEntry
      (.ofMember .field (.ofKey k) (.ofKey k') (.ofText? row.comment))

/-- Adds the rename of a method row. A method needs a descriptor. -/
def addMethodRow (n : TierNames) (s t : Nat) (source target : Text) (r : Table) (row : MemberRow) :
    Table :=
  match sourceKey? n s source row with
  | some ⟨owner, name, some d⟩ =>
    let k : MemberKey := ⟨owner, name, some d⟩
    let k' := targetKey n s t target row
    (r.addMethod k.format k'.name).addEntry
      (.ofMember .method (.ofKey k) (.ofKey k') (.ofText? row.comment))
  | _ => r

/-- Adds the members of a class. An owner without a name in a tier is called what the class around
it is called there. -/
def addMembers (n : TierNames) (s t : Nat) (r : Table) (p : Text × ClassRow) : Table :=
  let source := (nameAt p.2.names s).getD (resolveNested n.toSource.get? p.1)
  let target := (nameAt p.2.names t).getD (resolveNested n.toTarget.get? p.1)
  let r := p.2.fields.foldl (addFieldRow n s t source target) r
  p.2.methods.foldl (addMethodRow n s t source target) r

/-- The table of the renames from tier `s` to tier `t`: packages, then declared classes, then the
members class by class, all in the order of the mapping. -/
def tableBetween (m : Mapping) (s t : Nat) : Table :=
  let r := m.packages.foldl (fun r p => r.addPackage p.1 p.2) Table.empty
  let r := (m.classRenames s t).foldl
    (fun r (_, source, target, comment) => r.addClass source target (.ofText? comment)) r
  m.classes.toList.foldl (addMembers (m.tierNames s t) s t) r

/-- The first and the last of the names of a row, which has to have one. -/
def outerNames (names : List (Option Text)) : Except Fault (List (Option Text)) :=
  match names.head?, names.getLast? with
  | some first, some last => .ok [first, last]
  | _, _ => .error (.value .nothingThere)

/-- A member row with its first and its last name alone. -/
def outerRow (row : MemberRow) : Except Fault MemberRow := do
  return { row with names := ← outerNames row.names }

/-- A mapping in which every row has its first and its last name alone. -/
def outermost (m : Mapping) : Except Fault Mapping := do
  let classes ← m.classes.toList.foldlM (fun cs p => do
    let c : ClassRow :=
      { p.2 with
        names := ← outerNames p.2.names
        fields := ← p.2.fields.mapM outerRow
        methods := ← p.2.methods.mapM outerRow }
    return cs.insert p.1 c) .empty
  return { m with classes := classes }

/-- The table of the renames between two namespaces, the first and the last by default. Where there
are no namespaces to choose from, the last is that of each row. -/
def table (m : Mapping) (source target : Option Text) : Except Fault Table := do
  let (s, t) ← m.tiers source target
  if m.isTiered && m.namespaces.isEmpty then return (← m.outermost).tableBetween 0 1
  else return m.tableBetween s t

end Mapping

end Renaming
