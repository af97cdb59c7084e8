import Sweep.Path.Folded
/-!
# Spellings of a directory

What reading a path from a working directory and folding it do to its components, and when one path
contains another by the spelling alone.

## Main results

* `absolutize_of_rooted` — a path that begins at the root is only folded.
* `absolutize_absolute?` — a path may be made absolute first and folded later.
* `components_fold` — without `..`, folding keeps the components.
* `IsFolded.parent?_eq_some_iff`, `IsFolded.mem_above_iff` — what is above a folded path.
-/

namespace Sweep.Path

/-! ## Absolute paths -/

theorem rooted_of_absolute? {working : Option Path} {path absolute : Path}
    (h : absolute? working path = some absolute) : absolute.rooted = true := by
  unfold absolute? at h
  simp only at h
  split at h
  · cases h
  · split at h
    · simp only [Option.some.injEq] at h
      subst h
      split
      · split <;> rfl
      · rfl
    · obtain ⟨base, -, rfl⟩ := Option.map_eq_some_iff.1 h
      rfl

/-- Only the empty path cannot be made absolute, and without a working directory all that do not
begin at the root. -/
theorem absolute?_eq_none_iff {working : Option Path} {path : Path} :
    absolute? working path = none ↔ path = empty ∨ path.rooted = false ∧ working = none := by
  unfold absolute?
  by_cases hempty : path = empty
  · simp [hempty]
  · cases hrooted : path.rooted <;> simp [hempty]

theorem components_of_rooted {path : Path} (h : path.rooted = true) :
    path.components = .root :: (path.steps.filter (!isIdle ·)).map componentOfStep := by
  rw [components, head, if_pos h]
  rfl

theorem filter_counting_close (closed : Bool) (steps : List Bytes) :
    (if closed && steps ≠ [] then steps ++ [[]] else steps).filter (!isIdle ·) =
      steps.filter (!isIdle ·) := by
  split <;> simp [isIdle]

/-- A path that begins at the root keeps its components when it is made absolute. -/
theorem components_absolute? {working : Option Path} {path absolute : Path}
    (hrooted : path.rooted = true) (h : absolute? working path = some absolute) :
    absolute.components = path.components := by
  have hnames : (absolute.steps.filter (!isIdle ·)) = path.steps.filter (!isIdle ·) := by
    unfold absolute? at h
    simp only [hrooted, if_true] at h
    split at h
    · cases h
    · simp only [Option.some.injEq] at h
      subst h
      split
      · split
        · rename_i hnone
          rw [hnone]
          rfl
        · rw [filter_counting_close, List.filter_cons_of_neg (by simp [isIdle]), List.filter_filter]
          simp
      · rw [filter_counting_close, List.filter_filter]
        simp
  rw [components_of_rooted (rooted_of_absolute? h), components_of_rooted hrooted, hnames]

theorem fold_eq_of_components {a b : Path} (hrooted : a.rooted = b.rooted)
    (hcomponents : a.components = b.components) : a.fold = b.fold := by
  rw [fold, fold, hrooted, hcomponents]

/-- A path that begins at the root is only folded, wherever the working directory is. -/
theorem absolutize_of_rooted (working : Option Path) {path : Path} (hrooted : path.rooted = true) :
    absolutize working path = path.fold := by
  unfold absolutize
  cases h : absolute? working path with
  | none =>
      rcases absolute?_eq_none_iff.1 h with rfl | ⟨hfree, -⟩
      · rfl
      · rw [hrooted] at hfree
        cases hfree
  | some absolute =>
      exact fold_eq_of_components ((rooted_of_absolute? h).trans hrooted.symm)
        (components_absolute? hrooted h)

/-- A path may be made absolute first and folded later. -/
theorem absolutize_absolute? {working : Option Path} {path absolute : Path}
    (h : absolute? working path = some absolute) (other : Option Path) :
    absolutize other absolute = absolutize working path := by
  rw [absolutize_of_rooted other (rooted_of_absolute? h), absolutize, h, Option.getD_some]

/-- Without `..`, folding keeps the components of a path that begins at the root. -/
theorem components_fold {path : Path} (hrooted : path.rooted = true)
    (hup : .up ∉ path.components) : path.fold.components = path.components := by
  have hnames : ∀ step ∈ path.steps.filter (!isIdle ·), step ≠ dotDot := by
    rintro step hstep rfl
    exact hup (List.mem_append_right _ (List.mem_map.2 ⟨dotDot, hstep, by simp [componentOfStep]⟩))
  have hsteps : path.fold.steps = path.steps.filter (!isIdle ·) := by
    rw [fold, components, List.foldl_append, foldl_foldStep_head,
      foldl_foldStep_names [] _ hnames, List.nil_append]
  have hfold : path.fold.rooted = true := hrooted
  rw [components_of_rooted hfold, components_of_rooted hrooted, hsteps, List.filter_filter]
  simp only [Bool.and_self]

/-! ## Paths that contain paths -/

/-- A path is another one or lies above it, as both are spelled. -/
def Contains (outer inner : Path) : Prop :=
  outer.rooted = inner.rooted ∧ outer.steps <+: inner.steps

instance (outer inner : Path) : Decidable (outer.Contains inner) :=
  inferInstanceAs (Decidable (_ ∧ _))

namespace Contains

variable {a b c : Path}

theorem refl (a : Path) : a.Contains a :=
  ⟨rfl, List.prefix_refl a.steps⟩

theorem trans (h : a.Contains b) (h' : b.Contains c) : a.Contains c :=
  ⟨h.1.trans h'.1, h.2.trans h'.2⟩

theorem antisymm (h : a.Contains b) (h' : b.Contains a) : a = b := by
  have hsteps : a.steps = b.steps := h.2.eq_of_length_le h'.2.length_le
  cases a
  cases b
  simp_all [Contains]

end Contains

/-! ## Above a folded path -/

/-- By the spelling, a path is that of an entry of the directory at another path. -/
def HolderOf (holder path : Path) : Prop :=
  ∃ name, path = ⟨holder.rooted, holder.steps ++ [name]⟩

theorem HolderOf.unique {holder other path : Path} (h : holder.HolderOf path)
    (hother : other.HolderOf path) : holder = other := by
  obtain ⟨name, rfl⟩ := h
  obtain ⟨key, hkey⟩ := hother
  obtain ⟨hrooted, hsteps⟩ := Path.mk.inj hkey
  obtain ⟨hfront, -⟩ := List.append_inj' hsteps rfl
  cases holder
  cases other
  simp_all

/-- Only a path without steps has no holder. -/
theorem steps_eq_nil_or_exists_holderOf (path : Path) :
    path.steps = [] ∨ ∃ holder : Path, holder.HolderOf path := by
  obtain ⟨rooted, steps⟩ := path
  rcases List.eq_nil_or_concat steps with hnone | ⟨front, name, rfl⟩
  · exact Or.inl hnone
  · exact Or.inr ⟨⟨rooted, front⟩, name, by simp⟩

namespace IsFolded

variable {path : Path} (h : path.IsFolded)

include h

theorem dropIdleEnd_steps : dropIdleEnd path.steps = path.steps := by
  have hlast : path.steps.reverse.dropWhile isIdle = path.steps.reverse := by
    cases hsteps : path.steps.reverse with
    | nil => rfl
    | cons step rest =>
        have hmem : step ∈ path.steps := by
          rw [← List.mem_reverse, hsteps]
          exact List.mem_cons_self
        rw [List.dropWhile_cons_of_neg (by simp [(h step hmem).1])]
  rw [dropIdleEnd, hlast, List.reverse_reverse]

theorem beginsCurrent_eq_false : path.beginsCurrent = false := by
  cases hcurrent : path.beginsCurrent with
  | false => rfl
  | true =>
      simp only [beginsCurrent, Bool.and_eq_true, decide_eq_true_eq] at hcurrent
      have hidle := (h dot (List.mem_of_mem_head? hcurrent.2)).1
      simp [isIdle] at hidle

theorem trimEnd_eq_self : path.trimEnd = path := by
  simp [trimEnd, h.dropIdleEnd_steps, h.beginsCurrent_eq_false]

theorem of_holderOf {holder : Path} (hholder : holder.HolderOf path) : holder.IsFolded := by
  obtain ⟨name, rfl⟩ := hholder
  intro step hstep
  exact h step (List.mem_append_left _ hstep)

/-- The parent of a folded path is spelled without the last step. -/
theorem parent?_eq_some_iff {holder : Path} :
    path.parent? = some holder ↔ holder.HolderOf path := by
  rw [parent?, h.dropIdleEnd_steps, h.beginsCurrent_eq_false]
  rcases path.steps_eq_nil_or_exists_holderOf with hsteps | ⟨other, hother⟩
  · simp only [hsteps, if_true, Bool.false_eq_true, if_false, reduceCtorEq, false_iff]
    rintro ⟨name, rfl⟩
    simp at hsteps
  · have hparent : some ({ path with steps := path.steps.dropLast } : Path).trimEnd = some other := by
      have htrim := (h.of_holderOf hother).trimEnd_eq_self
      obtain ⟨name, rfl⟩ := hother
      simp only [List.dropLast_concat, htrim]
    have hsteps : path.steps ≠ [] := by
      obtain ⟨name, rfl⟩ := hother
      simp
    rw [if_neg hsteps, hparent, Option.some.injEq]
    constructor
    · rintro rfl
      exact hother
    · exact hother.unique

theorem fileName?_eq_getLast? : path.fileName? = path.steps.getLast? := by
  rw [fileName?, h.dropIdleEnd_steps]
  cases hlast : path.steps.getLast? with
  | none => rfl
  | some step => simp [(h step (List.mem_of_getLast? hlast)).2]

end IsFolded

theorem Contains.of_holderOf {holder path : Path} (h : holder.HolderOf path) :
    holder.Contains path := by
  obtain ⟨name, rfl⟩ := h
  exact ⟨rfl, List.prefix_append holder.steps [name]⟩

theorem HolderOf.ne {holder path : Path} (h : holder.HolderOf path) : holder ≠ path := by
  obtain ⟨name, rfl⟩ := h
  intro hsame
  have hsteps := congrArg steps hsame
  simp at hsteps

/-- A path contains another one if it is that path or contains its holder. -/
theorem HolderOf.contains_iff {holder path other : Path} (h : holder.HolderOf path) :
    other.Contains path ↔ other = path ∨ other.Contains holder := by
  obtain ⟨name, rfl⟩ := h
  obtain ⟨rooted, steps⟩ := other
  simp only [Contains, List.prefix_concat_iff, Path.mk.injEq, and_or_left]

/-- Only one of the entries of a directory is or contains a given path. -/
theorem HolderOf.eq_of_contains {holder path other inner : Path} (h : holder.HolderOf path)
    (hother : holder.HolderOf other) (hinner : path.Contains inner)
    (hsame : other.Contains inner) : path = other := by
  obtain ⟨name, rfl⟩ := h
  obtain ⟨key, rfl⟩ := hother
  have hfront := List.prefix_of_prefix_length_le hinner.2 hsame.2 (by simp)
  exact congrArg (Path.mk holder.rooted) (hfront.eq_of_length (by simp))

/-- What is above a folded path are the other paths that contain it. -/
theorem IsFolded.mem_above_iff {path other : Path} (h : path.IsFolded) :
    other ∈ path.above ↔ other.Contains path ∧ other ≠ path := by
  fun_induction Path.above path with
  | case1 path hnone =>
      rcases path.steps_eq_nil_or_exists_holderOf with hsteps | ⟨holder, hholder⟩
      · refine ⟨fun hnever => absurd hnever List.not_mem_nil, fun ⟨hcontains, hne⟩ => ?_⟩
        have hother : other.steps = [] := List.prefix_nil.1 (hsteps ▸ hcontains.2)
        exact absurd (hcontains.antisymm ⟨hcontains.1.symm, by simp [hsteps, hother]⟩) hne
      · rw [h.parent?_eq_some_iff.2 hholder] at hnone
        cases hnone
  | case2 path holder hparent ih =>
      have hholder := h.parent?_eq_some_iff.1 hparent
      have hbelow : other.Contains holder → other ≠ path := by
        rintro hcontains rfl
        exact hholder.ne ((Contains.of_holderOf hholder).antisymm hcontains)
      rw [List.mem_cons, ih (h.of_holderOf hholder), hholder.contains_iff]
      constructor
      · intro habove
        have hcontains : other.Contains holder := by
          rcases habove with rfl | ⟨hcontains, -⟩
          · exact Contains.refl other
          · exact hcontains
        exact ⟨Or.inr hcontains, hbelow hcontains⟩
      · intro ⟨hwhich, hne⟩
        by_cases hsame : other = holder
        · exact Or.inl hsame
        · exact Or.inr ⟨hwhich.resolve_left hne, hsame⟩

end Sweep.Path
