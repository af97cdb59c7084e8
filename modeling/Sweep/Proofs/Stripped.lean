import Sweep.Proofs.Path
/-!
# Paths with their front taken off

When one path begins with the components of another, the front can be taken off, and put on again by
joining. Neither gives the spelling back that was there: idle steps are lost where the path is cut and
at its end, and joining puts one slash in between. The components are the same, since idle steps do
not count wherever they stand.

## Main results

* `filter_counting_dropCounting`, `filter_counting_dropIdleEnd` — what cutting does to the steps that
  count.
* `components_join` — joining appends components.
* `stripFront?_eq_none_iff` — the front comes off wherever it is there.
* `components_join_of_stripFront?` — what was taken off can be put on again.
-/

namespace Sweep.Path

/-! ## Steps that are left out -/

theorem dropCounting_sublist (n : Nat) (steps : List Bytes) :
    (dropCounting n steps).Sublist steps := by
  fun_induction dropCounting n steps with
  | case1 => exact List.Sublist.refl _
  | case2 step rest hidle ih => exact ih.cons step
  | case3 step rest hidle => exact List.Sublist.refl _
  | case4 n step rest hidle ih => exact ih.cons step
  | case5 n step rest hidle ih => exact ih.cons step

theorem dropIdleEnd_prefix (steps : List Bytes) : dropIdleEnd steps <+: steps := by
  rw [dropIdleEnd, ← List.reverse_suffix, List.reverse_reverse]
  exact List.dropWhile_suffix isIdle

theorem filter_counting_dropCounting (n : Nat) (steps : List Bytes) :
    (dropCounting n steps).filter (!isIdle ·) = (steps.filter (!isIdle ·)).drop n := by
  fun_induction dropCounting n steps with
  | case1 => rw [List.filter_nil, List.drop_nil]
  | case2 step rest hidle ih => rw [ih, List.filter_cons_of_neg (by simp [hidle])]
  | case3 step rest hidle => rw [List.drop_zero]
  | case4 n step rest hidle ih => rw [ih, List.filter_cons_of_neg (by simp [hidle])]
  | case5 n step rest hidle ih =>
      rw [ih, List.filter_cons_of_pos (by simp [hidle]), List.drop_succ_cons]

theorem filter_counting_dropWhile (steps : List Bytes) :
    (steps.dropWhile isIdle).filter (!isIdle ·) = steps.filter (!isIdle ·) := by
  induction steps with
  | nil => rfl
  | cons step rest ih =>
      cases hidle : isIdle step with
      | true =>
          rw [List.dropWhile_cons_of_pos hidle, List.filter_cons_of_neg (by simp [hidle]), ih]
      | false => rw [List.dropWhile_cons_of_neg (by simp [hidle])]

theorem filter_counting_dropIdleEnd (steps : List Bytes) :
    (dropIdleEnd steps).filter (!isIdle ·) = steps.filter (!isIdle ·) := by
  rw [dropIdleEnd, List.filter_reverse, filter_counting_dropWhile, List.filter_reverse,
    List.reverse_reverse]

/-- Nothing idle stands before what is left. -/
theorem isIdle_of_head?_dropCounting {n : Nat} {steps : List Bytes} {step : Bytes}
    (h : (dropCounting n steps).head? = some step) : isIdle step = false := by
  fun_induction dropCounting n steps with
  | case1 => cases h
  | case2 first rest hidle ih => exact ih h
  | case3 first rest hidle =>
      cases h
      exact Bool.eq_false_iff.2 hidle
  | case4 n first rest hidle ih => exact ih h
  | case5 n first rest hidle ih => exact ih h

/-! ## Joining -/

theorem filter_counting_dropLast {steps : List Bytes} (h : steps.getLast? = some []) :
    steps.dropLast.filter (!isIdle ·) = steps.filter (!isIdle ·) := by
  obtain ⟨front, rfl⟩ := List.getLast?_eq_some_iff.1 h
  rw [List.dropLast_concat, List.filter_append, List.filter_cons_of_neg (by decide),
    List.filter_nil, List.append_nil]

/-- Joining appends components. -/
theorem components_join {base path : Path} (hbase : base.rooted = true)
    (hpath : path.rooted = false) : (base.join path).components =
      base.components ++ (path.steps.filter (!isIdle ·)).map componentOfStep := by
  have hne : base ≠ empty := by
    rintro rfl
    cases hbase
  -- where the path has no steps an empty one is put after those of the base
  have hclose : (if path.steps = [] then [[]] else path.steps).filter (!isIdle ·) =
      path.steps.filter (!isIdle ·) := by
    split
    · rename_i hnone
      rw [hnone]
      rfl
    · rfl
  have hjoin : (base.join path).rooted = true ∧ (base.join path).steps.filter (!isIdle ·) =
      base.steps.filter (!isIdle ·) ++ path.steps.filter (!isIdle ·) := by
    rw [join, if_neg (by simp [hpath]), if_neg hne]
    split
    · rename_i hend
      refine ⟨hbase, ?_⟩
      by_cases hsteps : base.steps = []
      · simp [hsteps]
      · have hlast : base.steps.getLast? = some [] := by simpa [hsteps] using hend
        simp only [hsteps, ne_eq, not_false_eq_true, decide_true, Bool.and_true, decide_eq_true_eq,
          List.filter_append, filter_counting_dropLast hlast, hclose]
    · exact ⟨hbase, by rw [List.filter_append, hclose]⟩
  rw [components_of_rooted hjoin.1, hjoin.2, components_of_rooted hbase, List.map_append,
    List.cons_append]

/-! ## Taking the front off -/

/-- The front comes off wherever it is there. -/
theorem stripFront?_eq_none_iff {base path : Path} :
    path.stripFront? base = none ↔ ¬ base.components <+: path.components := by
  rw [← List.isPrefixOf_iff_prefix, stripFront?]
  split
  · rename_i hfront
    simp only [hfront, not_true_eq_false, iff_false]
    split <;> simp
  · rename_i hfront
    simp only [hfront, Bool.false_eq_true, not_false_eq_true]

/-- What is left of a path when a front that begins at the root is taken off. -/
theorem stripFront?_eq_some_iff {base path rest : Path} (hbase : base.rooted = true)
    (hpath : path.rooted = true) : path.stripFront? base = some rest ↔
      base.components <+: path.components ∧ rest = ⟨false, dropIdleEnd
        (dropCounting (base.steps.filter (!isIdle ·)).length path.steps)⟩ := by
  have hne : base.components ≠ [] := by simp [components_of_rooted hbase]
  have hcounting : base.components.length - path.head.length =
      (base.steps.filter (!isIdle ·)).length := by
    simp [components_of_rooted hbase, head, hpath]
  rw [← List.isPrefixOf_iff_prefix, stripFront?, if_neg hne, hcounting]
  split
  · rename_i hfront
    simp [hfront, eq_comm]
  · rename_i hfront
    simp [hfront]

/-- What was taken off can be put on again. -/
theorem components_join_of_stripFront? {base path rest : Path} (hbase : base.rooted = true)
    (hpath : path.rooted = true) (h : path.stripFront? base = some rest) :
    (base.join rest).components = path.components := by
  obtain ⟨⟨back, hback⟩, rfl⟩ := (stripFront?_eq_some_iff hbase hpath).1 h
  have hnames : ((path.steps.filter (!isIdle ·)).drop
      (base.steps.filter (!isIdle ·)).length).map componentOfStep = back := by
    rw [components_of_rooted hbase, components_of_rooted hpath, List.cons_append,
      List.cons.injEq] at hback
    rw [List.map_drop, ← hback.2, List.drop_left' (by rw [List.length_map])]
  rw [components_join hbase rfl, filter_counting_dropIdleEnd, filter_counting_dropCounting, hnames,
    hback]

end Sweep.Path
