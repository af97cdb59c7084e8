import Sweep.Path.Basic
/-!
# What a disk holds

A node is a file with its content, a symbolic link with its target, or a directory with named nodes.
A *place* is a list of names, the way from a node down to one below it. Nodes are known by what
stands at each place, `Node.at?`; where a directory holds a name twice, the first one counts.

Everything belongs to the user, so of the rights on a node only those of its owner are kept.

## Main results

* `pairwise_sorted` — a listing is strictly ordered by the bytes of the names.
* `at?_append` — the node at a place is found step by step.
-/

namespace Sweep.Disk

/-- The greatest length of a name in bytes. -/
def nameLimit : Nat := 255

/-- Whether bytes can name an entry of a directory. -/
def IsProper (bytes : Bytes) : Prop :=
  bytes ≠ [] ∧ bytes ≠ dot ∧ bytes ≠ dotDot ∧ slash ∉ bytes ∧ 0 ∉ bytes ∧ bytes.length ≤ nameLimit

instance (bytes : Bytes) : Decidable (IsProper bytes) :=
  inferInstanceAs (Decidable (_ ∧ _ ∧ _ ∧ _ ∧ _ ∧ _))

/-- The name of an entry of a directory. -/
structure Name where
  bytes : Bytes
  proper : IsProper bytes
deriving DecidableEq

/-- The name with the given bytes, if they can be a name. -/
def Name.ofBytes? (bytes : Bytes) : Option Name :=
  if h : IsProper bytes then some ⟨bytes, h⟩ else none

/-- A name as text, with replacement characters where it is not UTF-8. -/
def Name.text (name : Name) : String :=
  String.ofList (Text.Utf8.lossy name.bytes)

/-- Whether a name comes before another in a listing. -/
def Name.before (a b : Name) : Bool :=
  decide (a.bytes < b.bytes)

/-- The way from a node down to a node below it. -/
abbrev Place := List Name

/-- What the owner may do with a node. -/
structure Rights where
  /-- Read a file, or list a directory. -/
  read : Bool
  /-- Change a file, or the entries of a directory. -/
  write : Bool
  /-- Look up the entries of a directory. -/
  search : Bool
deriving DecidableEq, Repr

def Rights.ofDirectory : Rights := ⟨true, true, true⟩

def Rights.ofFile : Rights := ⟨true, true, false⟩

inductive Kind where
  | file
  | link
  | directory
deriving DecidableEq, Repr

/-- A file, a symbolic link, or a directory with all that is below it. -/
inductive Node where
  | file (rights : Rights) (content : Bytes)
  | link (target : Bytes)
  | directory (rights : Rights) (entries : List (Name × Node))
deriving Inhabited

/-- An entry as a listing shows it. -/
abbrev Listing := List (Name × Kind)

/-! ## Entries by name -/

/-- Puts an entry where its name belongs in an ordered list; it replaces one of the same name. -/
def insertByName {α : Type} (name : Name) (x : α) : List (Name × α) → List (Name × α)
  | [] => [(name, x)]
  | entry :: rest =>
    if name = entry.1 then (name, x) :: rest
    else if name.before entry.1 then (name, x) :: entry :: rest
    else entry :: insertByName name x rest

/-- Entries ordered by name, of each name the first one. -/
def sortByName {α : Type} (entries : List (Name × α)) : List (Name × α) :=
  entries.foldr (fun entry sorted => insertByName entry.1 entry.2 sorted) []

namespace Node

def kind : Node → Kind
  | file .. => .file
  | link _ => .link
  | directory .. => .directory

/-- The entry of a directory with a given name. -/
def entry? (name : Name) : Node → Option Node
  | directory _ entries => entries.lookup name
  | _ => none

/-- The node at a place below a node. -/
def at? (node : Node) : Place → Option Node
  | [] => some node
  | name :: rest =>
    match node.entry? name with
    | none => none
    | some entry => entry.at? rest

@[simp] theorem at?_nil (node : Node) : node.at? [] = some node := rfl

@[simp] theorem at?_cons (node : Node) (name : Name) (rest : Place) :
    node.at? (name :: rest) = (node.entry? name).bind (·.at? rest) := by
  rw [at?]
  cases node.entry? name <;> rfl

/-- The node at a place is found step by step. -/
theorem at?_append (node : Node) (place rest : Place) :
    node.at? (place ++ rest) = (node.at? place).bind (·.at? rest) := by
  induction place generalizing node with
  | nil => simp
  | cons name place ih =>
    simp only [List.cons_append, at?_cons]
    cases node.entry? name with
    | none => rfl
    | some entry => exact ih entry

/-- What the entries of a directory are, in the order of their names. -/
def listing (entries : List (Name × Node)) : Listing :=
  sortByName (entries.map fun entry => (entry.1, entry.2.kind))

mutual

/-- All nodes below a node, with their places. -/
def contents : Node → List (Place × Node)
  | directory _ entries => contentsOf entries
  | _ => []
termination_by structural node => node

/-- All nodes at and below the entries of a directory, with their places. -/
def contentsOf : List (Name × Node) → List (Place × Node)
  | [] => []
  | (name, node) :: rest =>
    ([name], node) :: node.contents.map (fun inner => (name :: inner.1, inner.2)) ++
      contentsOf rest
termination_by structural entries => entries

end

/-! ## Changing one node -/

/-- Changes the node at a place. -/
def modify (f : Node → Node) : Place → Node → Node
  | [], node => f node
  | name :: rest, directory rights entries =>
    directory rights (entries.map fun entry =>
      if entry.1 = name then (entry.1, modify f rest entry.2) else entry)
  | _ :: _, node => node

/-- A directory without the entry of a name. -/
def eraseEntry (name : Name) : Node → Node
  | directory rights entries => directory rights (entries.filter (·.1 ≠ name))
  | node => node

/-- A directory with an entry under a name, in place of any entry it had there. -/
def putEntry (holder : Node) (name : Name) (entry : Node) : Node :=
  match holder with
  | directory rights entries =>
    directory rights (insertByName name entry (entries.filter (·.1 ≠ name)))
  | node => node

def withRights (rights : Rights) : Node → Node
  | file _ content => file rights content
  | directory _ entries => directory rights entries
  | node => node

end Node

/-! ## Order of a listing -/

theorem Name.before_trans {a b c : Name} (hab : a.before b = true) (hbc : b.before c = true) :
    a.before c = true := by
  simp only [Name.before, decide_eq_true_eq] at *
  exact List.lt_trans hab hbc

theorem Name.before_of_not {a b : Name} (hne : a ≠ b) (h : a.before b = false) :
    b.before a = true := by
  simp only [Name.before, decide_eq_false_iff_not, decide_eq_true_eq] at *
  refine Std.lt_of_le_of_ne (List.not_lt.1 h) fun heq => hne ?_
  cases a
  cases b
  simp_all

theorem mem_insertByName {α : Type} {name : Name} {x : α} {entries : List (Name × α)}
    {entry : Name × α} (h : entry ∈ insertByName name x entries) :
    entry = (name, x) ∨ entry ∈ entries := by
  induction entries with
  | nil => simpa [insertByName] using h
  | cons first rest ih =>
    rw [insertByName] at h
    split at h
    · simp only [List.mem_cons] at h ⊢
      exact h.imp id Or.inr
    · split at h
      · simpa using h
      · simp only [List.mem_cons] at h ⊢
        rcases h with h | h
        · exact Or.inr (Or.inl h)
        · exact (ih h).imp id Or.inr

theorem pairwise_insertByName {α : Type} {name : Name} {x : α} {entries : List (Name × α)}
    (h : entries.Pairwise fun a b => a.1.before b.1 = true) :
    (insertByName name x entries).Pairwise fun a b => a.1.before b.1 = true := by
  induction entries with
  | nil => simp [insertByName]
  | cons first rest ih =>
    rw [List.pairwise_cons] at h
    rw [insertByName]
    split
    · rename_i hname
      exact List.pairwise_cons.2 ⟨fun b hb => hname ▸ h.1 b hb, h.2⟩
    · rename_i hname
      split
      · rename_i hbefore
        refine List.pairwise_cons.2 ⟨fun b hb => ?_, List.pairwise_cons.2 h⟩
        rcases List.mem_cons.1 hb with rfl | hb
        · exact hbefore
        · exact Name.before_trans hbefore (h.1 b hb)
      · rename_i hbefore
        refine List.pairwise_cons.2 ⟨fun b hb => ?_, ih h.2⟩
        rcases mem_insertByName hb with rfl | hb
        · exact Name.before_of_not hname (by simpa using hbefore)
        · exact h.1 b hb

/-- A listing is strictly ordered by the bytes of the names. -/
theorem pairwise_sorted {α : Type} (entries : List (Name × α)) :
    (sortByName entries).Pairwise fun a b => a.1.before b.1 = true := by
  induction entries with
  | nil => exact List.Pairwise.nil
  | cons entry rest ih => exact pairwise_insertByName ih

end Sweep.Disk
