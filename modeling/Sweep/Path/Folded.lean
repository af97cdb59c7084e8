import Sweep.Path.Basic
/-!
# Absolute and folded paths

A path that does not begin at the root is read from a working directory. `absolute?` puts the path
of that directory in front; it leaves `..` alone, so what it names on a disk does not change. `fold`
then takes every `..` back together with the step before it, by the spelling alone: symbolic links
play no part, and at the root `..` stays there. The scan works with folded absolute paths only, on
which "the directory above" is a matter of spelling.

## Main results

* `fold_eq_self` — folding a folded path changes nothing.
* `isFolded_fold` — folding leaves names only.
-/

namespace Sweep.Path

/-- Whether a path begins with exactly two slashes. -/
def beginsDouble (path : Path) : Bool :=
  path.rooted && match path.steps with
    | [[], []] => true
    | [] :: step :: _ => step ≠ []
    | _ => false

/-- The path read from a working directory: it begins at the root, and idle steps are gone but for
an exact double slash at the front and a slash at the end. The empty path cannot be read, and
without a working directory neither can a path that does not begin at the root. -/
def absolute? (working : Option Path) (path : Path) : Option Path :=
  let names := path.steps.filter (!isIdle ·)
  let close := fun steps : List Bytes =>
    (⟨true, if path.endsSlash && steps ≠ [] then steps ++ [[]] else steps⟩ : Path)
  if path = empty then none
  else if path.rooted then
    some (if path.beginsDouble then
        if names = [] then ⟨true, [[], []]⟩ else close ([] :: names)
      else close names)
  else working.map fun working => close (working.steps ++ names)

/-- What one component does to the names walked so far. -/
def foldStep (names : List Bytes) : Component → List Bytes
  | .root => names
  | .current => names
  | .up => names.dropLast
  | .name bytes => names ++ [bytes]

/-- The path with every `..` taken back. -/
def fold (path : Path) : Path :=
  ⟨path.rooted, path.components.foldl foldStep []⟩

/-- The folded absolute path of a path; one that cannot be made absolute is only folded. -/
def absolutize (working : Option Path) (path : Path) : Path :=
  ((absolute? working path).getD path).fold

/-- A path whose steps are all names. -/
def IsFolded (path : Path) : Prop :=
  ∀ step ∈ path.steps, isIdle step = false ∧ step ≠ dotDot

instance (path : Path) : Decidable path.IsFolded :=
  inferInstanceAs (Decidable (∀ step ∈ path.steps, isIdle step = false ∧ step ≠ dotDot))

/-- What stands in front of the steps is no name. -/
theorem foldl_foldStep_head (path : Path) : path.head.foldl foldStep [] = [] := by
  unfold head
  split
  · rfl
  · split <;> rfl

theorem foldl_foldStep_names (names : List Bytes) (steps : List Bytes)
    (h : ∀ step ∈ steps, step ≠ dotDot) :
    (steps.map componentOfStep).foldl foldStep names = names ++ steps := by
  induction steps generalizing names with
  | nil => simp
  | cons step rest ih =>
    have hstep : step ≠ dotDot := h step (by simp)
    have hrest : ∀ s ∈ rest, s ≠ dotDot := fun s hs => h s (by simp [hs])
    simp [componentOfStep, hstep, foldStep, ih _ hrest]

/-- Folding a folded path changes nothing. -/
theorem fold_eq_self {path : Path} (h : path.IsFolded) : path.fold = path := by
  have hfilter : path.steps.filter (!isIdle ·) = path.steps := by
    refine List.filter_eq_self.2 fun step hstep => ?_
    simp [(h step hstep).1]
  have hsteps := foldl_foldStep_names [] path.steps fun step hstep => (h step hstep).2
  unfold fold components
  rw [List.foldl_append, foldl_foldStep_head, hfilter, hsteps]
  rfl

theorem forall_mem_foldl_foldStep (q : Bytes → Prop) (components : List Component)
    (names : List Bytes) (hnames : ∀ name ∈ names, q name)
    (hcomponents : ∀ bytes, Component.name bytes ∈ components → q bytes) :
    ∀ name ∈ components.foldl foldStep names, q name := by
  induction components generalizing names with
  | nil => simpa using hnames
  | cons component rest ih =>
    rw [List.foldl_cons]
    refine ih _ ?_ fun bytes h => hcomponents bytes (by simp [h])
    cases component with
    | root => exact hnames
    | current => exact hnames
    | up => exact fun name h => hnames name (List.dropLast_subset _ h)
    | name bytes =>
      intro name h
      simp only [foldStep, List.mem_append, List.mem_singleton] at h
      rcases h with h | h
      · exact hnames name h
      · exact h ▸ hcomponents bytes (by simp)

/-- Folding leaves names only. -/
theorem isFolded_fold (path : Path) : path.fold.IsFolded := by
  refine forall_mem_foldl_foldStep _ _ _ (by simp) fun bytes h => ?_
  simp only [components, head, List.mem_append, List.mem_map, List.mem_filter] at h
  rcases h with h | ⟨step, ⟨-, hidle⟩, hstep⟩
  · split at h
    · simp at h
    · split at h <;> simp at h
  · unfold componentOfStep at hstep
    split at hstep
    · simp at hstep
    · rename_i hup
      simp only [Component.name.injEq] at hstep
      subst hstep
      exact ⟨by simpa using hidle, hup⟩

end Sweep.Path
