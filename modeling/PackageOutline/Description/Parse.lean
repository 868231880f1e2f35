import PackageOutline.Description.Basic
import PackageOutline.Notice
import PackageOutline.Yaml.Display
import PackageOutline.Yaml.Document

/-! # Descriptions in YAML

A description is a mapping with the name of the package and a mapping of groups, each with a list of
items.  An item is a mapping with one key for its kind, whose value is its name, and perhaps a list
of items below it.

Reading is lenient in one way only: entries of a list of items that are not items, and further keys
at the top, are reported and passed over. -/

namespace PackageOutline

namespace Description

/-- Reads a part of a description. -/
abbrev Parse := Traced DescriptionError

/-- Reports something about a description. -/
def report (level : Level) (text : String) : Notice := ⟨level, .description, text⟩

/-- Fails with an error unless a condition holds. -/
def ensure (condition : Bool) (e : DescriptionError) : Parse Unit :=
  if condition then pure () else throw e

/-- The value in an optional, or an error. -/
def expect {α : Type} (a : Option α) (e : DescriptionError) : Parse α :=
  match a with
  | some a => pure a
  | none => throw e

/-! ### Items -/

/-- The kind of item that a key declares. -/
def kindOfKey? (key : String) : Option Kind :=
  if key = "executable" then some .executable
  else if key = "filegroup" then some .fileGroup
  else if key = "folder" then some .folder
  else if key = "file" then some .file
  else none

/-- A key with its value, and how the value is read as the items below an item. -/
structure Field where
  key : Yaml
  value : Yaml
  items : Kind → String → Parse (List Declaration)

/-- What the keys of an entry say. -/
structure Header where
  declared : Option (Kind × String) := none
  nested : Option Field := none

/-- Reads the keys of an entry one by one, up to one that no item has. -/
def Header.read : Header → List Field → Except Notice Header
  | h, [] => .ok h
  | h, f :: fs =>
    match f.key.text? with
    | none => .error (report .debug ("Skipping item entry with non-string key: " ++ f.key.display))
    | some key =>
      if key = "items" then Header.read { h with nested := some f } fs
      else match kindOfKey? key, f.value.text?, h.declared with
        | some kind, some name, none => Header.read { h with declared := some (kind, name) } fs
        | _, _, _ => .error (report .warn s!"Skipping item entry with unexpected key '{key}'")

/-- Reads an entry of a list of items; nothing if it is no item. -/
def itemOf (entry : Yaml) (fields : List Field) : Parse (Option Declaration) := do
  match Header.read {} fields with
  | .error notice => Traced.note notice; return none
  | .ok header =>
    match header.declared with
    | none =>
      Traced.note (report .debug ("Skipping item entry without a kind: " ++ entry.display))
      return none
    | some (kind, name) =>
      ensure (Identifier.isValid name) (.invalidName name)
      let items ← match header.nested with
        | some f => f.items kind name
        | none => pure []
      return some { kind, name, items }

mutual

/-- Reads the items below an item or group. -/
def itemsOf : Yaml → Kind → String → Parse (List Declaration)
  | .sequence entries, kind, parent => entriesOf entries kind parent []
  | .scalar .null, _, _ => return []
  | _, _, parent => throw (.itemsNotSequence parent)

/-- Reads the entries of a list of items, where some names have been declared before. -/
def entriesOf : List Yaml → Kind → String → (seen : List String) → Parse (List Declaration)
  | [], _, _, _ => return []
  | entry :: entries, kind, parent, seen => do
    match ← entryOf entry with
    | none => entriesOf entries kind parent seen
    | some d =>
      ensure (kind.admits d.kind) (.misplaced d.kind d.name parent)
      ensure (!seen.contains d.name) (.duplicate d.name parent)
      return d :: (← entriesOf entries kind parent (d.name :: seen))

/-- Reads an entry of a list of items; nothing if it is no item. -/
def entryOf : Yaml → Parse (Option Declaration)
  | .mapping entries => itemOf (.mapping entries) (fieldsOf entries)
  | entry => do
    Traced.note (report .debug ("Skipping invalid item entry: " ++ entry.display))
    return none

/-- The keys and values of a mapping, with the ways in which the values are read. -/
def fieldsOf : List (Yaml × Yaml) → List Field
  | [] => []
  | (key, value) :: entries => ⟨key, value, itemsOf value⟩ :: fieldsOf entries

end

/-! ### Groups and the top level -/

/-- Reads the groups one by one, where some names have been declared before. -/
def groupListOf : List (Yaml × Yaml) → (seen : List String) → Parse (List GroupDeclaration)
  | [], _ => return []
  | (key, value) :: entries, seen => do
    let name ← expect key.text? .groupsNotMapping
    ensure (Identifier.isGroup name) (.unknownGroup name)
    ensure (!seen.contains name) (.duplicate name "groups")
    let items ← itemsOf value .group name
    return { name, items } :: (← groupListOf entries (name :: seen))

/-- Reads the mapping of groups. -/
def groupsOf (value : Yaml) : Parse (List GroupDeclaration) := do
  groupListOf (← expect value.mapping? .groupsNotMapping) []

/-- What the keys at the top have said. -/
structure Top where
  package : Option String := none
  groups : List GroupDeclaration := []

/-- Reads the keys at the top one by one. -/
def Top.read : Top → List (Yaml × Yaml) → Parse Top
  | top, [] => return top
  | top, (key, value) :: entries => do
    match key.text? with
    | some "package" => Top.read { top with package := value.text? } entries
    | some "groups" => Top.read { top with groups := ← groupsOf value } entries
    | _ =>
      Traced.note (report .debug ("Ignoring unknown description key: " ++ key.display))
      Top.read top entries

/-- The description that a YAML value is. -/
def ofYaml (value : Yaml) : Parse Description := do
  let top ← Top.read {} (← expect value.mapping? .notMapping)
  let package ← expect (top.package.filter (!Text.isBlank ·)) .noPackage
  return { package, groups := top.groups }

/-- The description in the first of the documents of a text. -/
def ofString (s : String) : Parse Description := do
  let documents ← expect (Yaml.ofText? s) .malformed
  ofYaml (← expect documents.head? .noDocument)

end Description

end PackageOutline
