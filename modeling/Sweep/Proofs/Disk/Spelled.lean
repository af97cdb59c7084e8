import Sweep.Disk.Locate
/-!
# Disks written out

A disk is written out as what stands at its paths, for instance

    .ofLeaves [("/w/a", .ofContent ""), ("/w/l", .link (Path.ofText "a").bytes)]

for a directory `/w` with an empty file `a` and a link `l` to it. The directories above a path need
no mention; one that is to have rights of its own stands before what it holds.

## Main results

* `Node.at?_plant` — what is planted at a place stands there.
-/

namespace Sweep.Disk

/-- The name `-`, in place of one that is misspelled. -/
instance : Inhabited Name where
  default := ⟨Text.Utf8.encode ['-'], by decide⟩

/-- The name that a text spells. -/
def Name.ofText (text : String) : Name :=
  (Name.ofBytes? (Text.Utf8.encode text.toList)).getD default

/-- The place whose names are the steps of a path. -/
def Place.ofText (text : String) : Place :=
  (Path.ofText text).steps.map fun step => (Name.ofBytes? step).getD default

namespace Node

/-- A file with a text in it. -/
def ofContent (content : String) : Node :=
  .file .ofFile (Text.Utf8.encode content.toList)

/-- A directory that holds nothing. -/
def empty : Node :=
  .directory .ofDirectory []

/-- Puts a node at a place below another, and makes the directories that are missing on the way. -/
def plant (leaf : Node) : Place → Node → Node
  | [], _ => leaf
  | name :: rest, .directory rights entries =>
    .directory rights
      (insertByName name (leaf.plant rest ((entries.lookup name).getD empty)) entries)
  | name :: rest, _ => .directory .ofDirectory [(name, leaf.plant rest empty)]

theorem lookup_insertByName_self {α : Type} (name : Name) (x : α) (entries : List (Name × α)) :
    (insertByName name x entries).lookup name = some x := by
  induction entries with
  | nil => exact List.lookup_cons_self
  | cons entry entries ih =>
      rw [insertByName]
      split
      · exact List.lookup_cons_self
      · rename_i hne
        split
        · exact List.lookup_cons_self
        · have hother : (name == entry.1) = false := beq_eq_false_iff_ne.2 hne
          rw [List.lookup_cons, hother]
          exact ih

/-- What is planted at a place stands there. -/
theorem at?_plant (leaf : Node) (place : Place) (node : Node) :
    (leaf.plant place node).at? place = some leaf := by
  induction place generalizing node with
  | nil => cases node <;> rfl
  | cons name rest ih =>
      have halone : (directory .ofDirectory [(name, leaf.plant rest empty)]).at? (name :: rest) =
          some leaf := by
        rw [at?_cons, entry?, List.lookup_cons_self]
        exact ih empty
      cases node with
      | directory rights entries =>
          rw [plant, at?_cons, entry?, lookup_insertByName_self]
          exact ih _
      | file rights content => exact halone
      | link target => exact halone

end Node

/-- The disk that holds these nodes at these paths, and the directories above them. -/
def ofLeaves (leaves : List (String × Node)) : Disk :=
  ⟨leaves.foldl (fun node leaf => leaf.2.plant (.ofText leaf.1) node) .empty, []⟩

end Sweep.Disk
