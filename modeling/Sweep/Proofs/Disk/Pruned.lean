import Sweep.Disk.Removal
/-!
# Pruned trees

Removing from a disk takes nodes away and changes nothing else. To say so, nodes are compared by
their *surface*: what a node is without what it holds, that is its kind, its rights, and the content
of a file or the target of a link. A tree is *pruned within* a set of places if at each place there
is the surface that was there before, or the place is in the set and holds nothing any more.

Pruning composes, so a run that removes many entries is followed one removal at a time. That nothing
is ever changed in place is also what makes looking things up predictable: what a pruned tree still
holds, it held before.

## Main results

* `Node.PrunedWithin.trans` — pruning twice is pruning.
* `Node.prunedWithin_modify` — a change to one node prunes the tree as it prunes that node.
* `remove_prunedWithin`, `clear_prunedWithin` — removing prunes, also where it fails half way.
-/

namespace Sweep.Disk

/-! ## Surfaces -/

namespace Node

/-- What a node is without what it holds. -/
def surface : Node → Node
  | file rights content => file rights content
  | link target => link target
  | directory rights _ => directory rights []

/-- The surface of the node at a place. -/
def surfaceAt (root : Node) (place : Place) : Option Node :=
  (root.at? place).map surface

/-- One tree comes from another by taking away nodes at places that satisfy `p`. -/
def PrunedWithin (p : Place → Prop) (old new : Node) : Prop :=
  ∀ place, new.surfaceAt place = old.surfaceAt place ∨ new.at? place = none ∧ p place

/-- The kind of a node shows on its surface. -/
theorem kind_eq_of_surface {a b : Node} (h : a.surface = b.surface) : a.kind = b.kind := by
  cases a <;> cases b <;> simp_all [surface, kind]

theorem surface_eq_link {node : Node} {target : Bytes} (h : node.surface = (link target).surface) :
    node = link target := by
  cases node <;> simp_all [surface]

theorem surface_eq_directory {node : Node} {rights : Rights} {entries : List (Name × Node)}
    (h : node.surface = (directory rights entries).surface) :
    ∃ held, node = directory rights held := by
  cases node <;> simp_all [surface]

theorem surfaceAt_eq_none {root : Node} {place : Place} :
    root.surfaceAt place = none ↔ root.at? place = none := by
  simp [surfaceAt]

/-- Below a place that holds nothing there is nothing. -/
theorem at?_append_eq_none {root : Node} {place : Place} (h : root.at? place = none)
    (rest : Place) : root.at? (place ++ rest) = none := by
  rw [at?_append, h]
  rfl

/-- One step below a directory is what it holds under the name. -/
theorem at?_concat {root : Node} {place : Place} {rights : Rights} {entries : List (Name × Node)}
    (h : root.at? place = some (directory rights entries)) (name : Name) :
    root.at? (place ++ [name]) = entries.lookup name := by
  rw [at?_append, h]
  simp only [Option.bind_some, at?_cons, entry?]
  cases entries.lookup name <;> rfl

/-! ## Pruning -/

namespace PrunedWithin

variable {p q : Place → Prop} {old mid new : Node}

theorem refl (p : Place → Prop) (node : Node) : PrunedWithin p node node :=
  fun _ => Or.inl rfl

theorem mono (h : PrunedWithin p old new) (hpq : ∀ place, p place → q place) :
    PrunedWithin q old new := by
  intro place
  exact (h place).imp id fun hgone => ⟨hgone.1, hpq place hgone.2⟩

/-- Pruning twice is pruning. -/
theorem trans (hfirst : PrunedWithin p old mid) (hsecond : PrunedWithin p mid new) :
    PrunedWithin p old new := by
  intro place
  rcases hsecond place with hsame | hgone
  · rcases hfirst place with hbefore | ⟨hnone, hp⟩
    · exact Or.inl (hsame.trans hbefore)
    · refine Or.inr ⟨?_, hp⟩
      rw [← surfaceAt_eq_none, hsame, surfaceAt_eq_none]
      exact hnone
  · exact Or.inr hgone

/-- What a pruned tree holds was there before, with the same surface. -/
theorem at?_eq_some (h : PrunedWithin p old new) {place : Place} {node : Node}
    (hnode : new.at? place = some node) :
    ∃ before, old.at? place = some before ∧ before.surface = node.surface := by
  rcases h place with hsame | ⟨hnone, -⟩
  · simp only [surfaceAt, hnode, Option.map_some] at hsame
    exact Option.map_eq_some_iff.1 hsame.symm
  · rw [hnode] at hnone
    cases hnone

theorem at?_directory (h : PrunedWithin p old new) {place : Place} {rights : Rights}
    {entries : List (Name × Node)} (hnode : new.at? place = some (directory rights entries)) :
    ∃ held, old.at? place = some (directory rights held) := by
  obtain ⟨before, hbefore, hsurface⟩ := h.at?_eq_some hnode
  obtain ⟨held, rfl⟩ := surface_eq_directory hsurface
  exact ⟨held, hbefore⟩

theorem at?_link (h : PrunedWithin p old new) {place : Place} {target : Bytes}
    (hnode : new.at? place = some (link target)) : old.at? place = some (link target) := by
  obtain ⟨before, hbefore, hsurface⟩ := h.at?_eq_some hnode
  rw [hbefore, surface_eq_link hsurface]

/-- Where there was nothing, there is nothing. -/
theorem at?_eq_none (h : PrunedWithin p old new) {place : Place} (hold : old.at? place = none) :
    new.at? place = none := by
  cases hnode : new.at? place with
  | none => rfl
  | some node =>
      obtain ⟨before, hbefore, -⟩ := h.at?_eq_some hnode
      rw [hold] at hbefore
      cases hbefore

end PrunedWithin

/-- A node that keeps its surface is pruned as the nodes that it holds are. -/
theorem prunedWithin_of_entries {p : Place → Prop} {old new : Node}
    (hsurface : new.surface = old.surface)
    (h : ∀ name rest, new.surfaceAt (name :: rest) = old.surfaceAt (name :: rest) ∨
      new.at? (name :: rest) = none ∧ p (name :: rest)) : PrunedWithin p old new := by
  intro place
  cases place with
  | nil => exact Or.inl (by simp [surfaceAt, hsurface])
  | cons name rest => exact h name rest

/-! ## Changing one node -/

theorem lookup_cons_ite {α : Type} (key a : Name) (x : α) (rest : List (Name × α)) :
    List.lookup a ((key, x) :: rest) = if a = key then some x else rest.lookup a := by
  by_cases ha : a = key
  · simp [ha]
  · simp [List.lookup_cons, beq_eq_false_iff_ne.2 ha, ha]

theorem lookup_map_at {entries : List (Name × Node)} (f : Node → Node) (name a : Name) :
    (entries.map fun entry => if entry.1 = name then (entry.1, f entry.2) else entry).lookup a =
      if a = name then (entries.lookup a).map f else entries.lookup a := by
  induction entries with
  | nil => simp
  | cons entry rest ih =>
      obtain ⟨key, node⟩ := entry
      rw [List.map_cons, lookup_cons_ite]
      by_cases hkey : key = name
      · rw [if_pos hkey, lookup_cons_ite, ih]
        by_cases ha : a = name <;> simp [ha, hkey]
      · rw [if_neg hkey, lookup_cons_ite, ih]
        by_cases ha : a = key
        · simp [ha, hkey]
        · simp [ha]

theorem lookup_filter_ne (entries : List (Name × Node)) (name a : Name) :
    (entries.filter (·.1 ≠ name)).lookup a = if a = name then none else entries.lookup a := by
  induction entries with
  | nil => simp
  | cons entry rest ih =>
      obtain ⟨key, node⟩ := entry
      rw [List.filter_cons, lookup_cons_ite]
      by_cases hkey : key = name
      · rw [if_neg (by simpa using hkey), ih]
        by_cases ha : a = name <;> simp [ha, hkey]
      · rw [if_pos (by simpa using hkey), lookup_cons_ite, ih]
        by_cases ha : a = key
        · simp [ha, hkey]
        · simp [ha]

/-- A change to one node prunes the tree as it prunes that node. -/
theorem prunedWithin_modify {r : Place → Prop} {f : Node → Node} (place : Place) (root : Node)
    (h : ∀ node, root.at? place = some node → PrunedWithin r node (f node)) :
    PrunedWithin (fun q => ∃ rest, q = place ++ rest ∧ r rest) root (root.modify f place) := by
  induction place generalizing root with
  | nil =>
      simp only [modify, List.nil_append]
      exact (h root rfl).mono fun q hq => ⟨q, rfl, hq⟩
  | cons name place ih =>
      cases root with
      | file rights content => exact .refl _ _
      | link target => exact .refl _ _
      | directory rights entries =>
          refine prunedWithin_of_entries rfl fun a rest => ?_
          simp only [modify, surfaceAt, at?_cons, entry?, lookup_map_at]
          by_cases ha : a = name
          · subst ha
            cases hentry : entries.lookup a with
            | none => simp
            | some entry =>
                have hinner := ih entry fun node hnode => h node (by
                  simp only [at?_cons, entry?, hentry, Option.bind_some]
                  exact hnode)
                rcases hinner rest with hsame | ⟨hnone, tail, rfl, htail⟩
                · exact Or.inl (by simpa [surfaceAt] using hsame)
                · exact Or.inr ⟨by simpa using hnone, tail, rfl, htail⟩
          · exact Or.inl (by simp [ha])

/-- The node at the place of a change is the changed one. -/
theorem at?_modify (f : Node → Node) (place rest : Place) (root : Node) :
    (root.modify f place).at? (place ++ rest) =
      (root.at? place).bind fun node => (f node).at? rest := by
  induction place generalizing root with
  | nil => simp [modify]
  | cons name place ih =>
      cases root with
      | file rights content => simp [modify, entry?]
      | link target => simp [modify, entry?]
      | directory rights entries =>
          simp only [modify, List.cons_append, at?_cons, entry?, lookup_map_at, if_true]
          cases entries.lookup name with
          | none => rfl
          | some entry => simpa using ih entry

/-- Erasing an entry takes it away with all below it. -/
theorem eraseEntry_prunedWithin (name : Name) (node : Node) :
    PrunedWithin (fun q => [name] <+: q) node (node.eraseEntry name) := by
  cases node with
  | file rights content => exact .refl _ _
  | link target => exact .refl _ _
  | directory rights entries =>
      refine prunedWithin_of_entries rfl fun a rest => ?_
      simp only [eraseEntry, surfaceAt, at?_cons, entry?, lookup_filter_ne]
      by_cases ha : a = name
      · exact Or.inr (by simp [ha])
      · exact Or.inl (by simp [ha])

/-- An erased entry is gone. -/
theorem at?_eraseEntry_self (name : Name) (node : Node) :
    (node.eraseEntry name).at? [name] = none := by
  cases node with
  | file rights content => rfl
  | link target => rfl
  | directory rights entries =>
      simp only [eraseEntry, at?_cons, entry?, lookup_filter_ne, if_true, Option.bind_none]

end Node

/-! ## Removing a node with all below it -/

open Node

mutual

/-- What remains of a node that could not be removed is the node, pruned below itself. -/
theorem remove_prunedWithin (actor : Actor) (holder : Rights) (node : Node) :
    ∀ remaining ∈ (remove actor holder node).1, PrunedWithin (· ≠ []) node remaining := by
  intro remaining hremaining
  cases node with
  | file rights content =>
      simp only [remove] at hremaining
      split at hremaining <;> simp at hremaining
      exact hremaining ▸ .refl _ _
  | link target =>
      simp only [remove] at hremaining
      split at hremaining <;> simp at hremaining
      exact hremaining ▸ .refl _ _
  | directory rights entries =>
      have hclear := clear_prunedWithin actor rights entries
      simp only [remove] at hremaining
      split at hremaining
      · simp at hremaining
        exact hremaining ▸ .refl _ _
      · split at hremaining
        · rename_i kept fault hkept
          simp at hremaining
          rw [hkept] at hclear
          exact hremaining ▸ hclear
        · rename_i kept hkept
          split at hremaining
          · simp at hremaining
          · simp at hremaining
            rw [hkept] at hclear
            exact hremaining ▸ hclear
termination_by structural node

/-- What remains of the entries of a directory are those entries, pruned. -/
theorem clear_prunedWithin (actor : Actor) (rights : Rights) (entries : List (Name × Node)) :
    PrunedWithin (· ≠ []) (directory rights entries)
      (directory rights (clear actor rights entries).1) := by
  cases entries with
  | nil => exact .refl _ _
  | cons entry rest =>
      have hrest := clear_prunedWithin actor rights rest
      have hentry := remove_prunedWithin actor rights entry.2
      obtain ⟨name, node⟩ := entry
      refine prunedWithin_of_entries rfl fun a tail => ?_
      have hbelow := hrest (a :: tail)
      simp only [surfaceAt, at?_cons, entry?, lookup_cons_ite] at hbelow ⊢
      simp only [clear]
      split
      · simp only [lookup_filter_ne]
        by_cases ha : a = name
        · exact Or.inr (by simp [ha])
        · simpa only [ha, if_false] using hbelow
      · rename_i remaining fault hremaining
        rw [hremaining] at hentry
        simp only [lookup_cons_ite]
        by_cases ha : a = name
        · have hpruned := hentry remaining rfl tail
          simp only [ha, if_true, Option.bind_some]
          exact hpruned.imp id fun hgone => ⟨hgone.1, by simp⟩
        · exact Or.inl (by simp only [ha, if_false])
termination_by structural entries

end

end Sweep.Disk
