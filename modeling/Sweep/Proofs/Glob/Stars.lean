import Mathlib
import Sweep.Disk.Node
import Sweep.Proofs.Disk.Spelled
import Sweep.Proofs.Glob.Segments
/-!
# One star and two stars

Where a pattern has one star between two parts, a second one next to it gives another pattern, and one
would think a wider one: a star stands for a run of characters other than slashes, and two of them for
a run that may have slashes, or in front of a slash for whole segments. But line feeds are the other
way round. A star takes them, since they are no slashes, and two stars take anything but them. Only in
front of a slash, where the two stars are segments, nothing is lost.

The parts must not have a star of their own next to the stars in between, or those would be read with
it. Then the elements of such a pattern are those of the first part, one for the stars, and those of
the second part.

## Main results

* `Reads.append`, `elements_append` — parts of a pattern are read on their own, up to a star at the end.
* `splits_around_iff` — a text falls into a part before an element, a piece for it and a part after it.
* `accepts_two_stars_iff` — which texts of the pattern with one star the one with two stars accepts.
-/

namespace Sweep.Glob

/-! ## Stars between two parts -/

/-- What stands in front of something else is read on its own if no star is at its end. -/
theorem Reads.append {front back : List Char} {es fs : List Element} (h : Reads front es)
    (hend : front.getLast? ≠ some '*') (hback : Reads back fs) : Reads (front ++ back) (es ++ fs) := by
  induction h with
  | done => exact hback
  | @segments pattern es rest ih =>
      refine .segments (ih fun hlast => hend ?_)
      simp [List.getLast?_cons, hlast]
  | @anything pattern es hslash rest ih =>
      -- the second star is not at the end, so what follows it is not all of the rest
      obtain _ | ⟨c, pattern⟩ := pattern
      · simp at hend
      · refine .anything hslash (ih fun hlast => hend ?_)
        simp [List.getLast?_cons, hlast]
  | @run pattern es hstar rest ih =>
      obtain _ | ⟨c, pattern⟩ := pattern
      · simp at hend
      · refine .run hstar (ih fun hlast => hend ?_)
        simp [List.getLast?_cons, hlast]
  | @one pattern es rest ih =>
      refine .one (ih fun hlast => hend ?_)
      simp [List.getLast?_cons, hlast]
  | @literal c pattern es hstar hone rest ih =>
      refine .literal hstar hone (ih fun hlast => hend ?_)
      simp [List.getLast?_cons, hlast]

theorem elements_append {front : List Char} (hend : front.getLast? ≠ some '*') (back : List Char) :
    elements (front ++ back) = elements front ++ elements back :=
  reads_iff.1 ((reads_elements front).append hend (reads_elements back))

theorem elements_star {back : List Char} (hstar : back.head? ≠ some '*') :
    elements ('*' :: back) = .run :: elements back :=
  reads_iff.1 (.run hstar (reads_elements back))

theorem elements_stars {back : List Char} (hslash : back.head? ≠ some '/') :
    elements ('*' :: '*' :: back) = .anything :: elements back :=
  reads_iff.1 (.anything hslash (reads_elements back))

/-- Before an element, for the element, and after it. -/
theorem splits_around_iff {front back : List Element} {e : Element} {text : List Char} :
    Splits (front ++ e :: back) text ↔ ∃ first piece last, text = first ++ piece ++ last ∧
      Splits front first ∧ e.Takes piece ∧ Splits back last := by
  rw [splits_append]
  constructor
  · intro h
    obtain ⟨first, _, rfl, hfirst, hrest⟩ := h
    obtain ⟨piece, last, rfl, hpiece, hlast⟩ := splits_cons.1 hrest
    exact ⟨first, piece, last, by simp, hfirst, hpiece, hlast⟩
  · intro h
    obtain ⟨first, piece, last, rfl, hfirst, hpiece, hlast⟩ := h
    exact ⟨first, piece ++ last, by simp, hfirst, splits_cons.2 ⟨piece, last, rfl, hpiece, hlast⟩⟩

section Parts

variable {u v text : List Char} (hu : u.getLast? ≠ some '*') (hv : v.head? ≠ some '*')

include hu hv in
/-- A star between two parts stands for a run without a slash. -/
theorem splits_star_iff : Splits (elements (u ++ '*' :: v)) text ↔
    ∃ first run last, text = first ++ run ++ last ∧ Splits (elements u) first ∧ '/' ∉ run ∧
      Splits (elements v) last := by
  rw [elements_append hu, elements_star hv]
  exact splits_around_iff

include hu in
/-- Two stars between two parts stand for a run without a line feed, unless a slash follows them. -/
theorem splits_stars_iff (hslash : v.head? ≠ some '/') :
    Splits (elements (u ++ '*' :: '*' :: v)) text ↔
      ∃ first run last, text = first ++ run ++ last ∧ Splits (elements u) first ∧ '\n' ∉ run ∧
        Splits (elements v) last := by
  rw [elements_append hu, elements_stars hslash]
  exact splits_around_iff

include hu in
/-- In front of a slash, two stars take what a star takes together with the slash. -/
theorem splits_stars_of_slash (h : Splits (elements (u ++ '*' :: '/' :: v)) text) :
    Splits (elements (u ++ '*' :: '*' :: '/' :: v)) text := by
  obtain ⟨first, run, rest, rfl, hfirst, -, hrest⟩ := (splits_star_iff hu (by simp)).1 h
  have hread : elements ('/' :: v) = .literal '/' :: elements v :=
    reads_iff.1 (.literal (by decide) (by decide) (reads_elements v))
  rw [hread] at hrest
  obtain ⟨_, last, rfl, rfl, hlast⟩ := splits_cons.1 hrest
  have hsegment : Element.segments.Takes (run ++ ['/']) := rounds_of_slash run
  rw [elements_append hu, elements]
  exact splits_around_iff.2 ⟨first, run ++ ['/'], last, by simp, hfirst, hsegment, hlast⟩

end Parts

/-! ## What is accepted -/

/-- The parts of a pattern with one star in between are searched with if the whole is. -/
theorem searchable_of_star {u v : String} (hu : u.toList.getLast? ≠ some '*')
    (hv : v.toList.head? ≠ some '*') (h : searchable ⟨u ++ "*" ++ v⟩ = true) :
    searchable ⟨u⟩ = true ∧ searchable ⟨v⟩ = true := by
  have hread : elements (u ++ "*" ++ v).toList =
      elements u.toList ++ .run :: elements v.toList := by
    rw [← elements_star hv, ← elements_append hu]
    simp
  constructor
  · refine searchable_of_sublist ?_ h
    rw [hread]
    exact List.sublist_append_left ..
  · refine searchable_of_sublist ?_ h
    rw [hread]
    exact (List.sublist_cons_self ..).trans (List.sublist_append_right ..)

/-- A text that a pattern with one star between two parts accepts is accepted with two stars in its
place if a slash follows them, or if the text falls apart so that no line feed is left for the stars.
In particular this is so of every text without a line feed. -/
theorem accepts_two_stars_iff {u v : String} (hu : u.toList.getLast? ≠ some '*')
    (hv : v.toList.head? ≠ some '*') (hone : searchable ⟨u ++ "*" ++ v⟩ = true)
    (htwo : searchable ⟨u ++ "**" ++ v⟩ = true) {text : String}
    (h : accepts ⟨u ++ "*" ++ v⟩ text = true) :
    (accepts ⟨u ++ "**" ++ v⟩ text = true ↔ v.toList.head? = some '/' ∨
      ∃ first run last, text = first ++ run ++ last ∧ accepts ⟨u⟩ first = true ∧
        '\n' ∉ run.toList ∧ accepts ⟨v⟩ last = true) ∧
      ('\n' ∉ text.toList → accepts ⟨u ++ "**" ++ v⟩ text = true) := by
  obtain ⟨hfront, hback⟩ := searchable_of_star hu hv hone
  have hstar : (u ++ "*" ++ v).toList = u.toList ++ '*' :: v.toList := by simp
  have hstars : (u ++ "**" ++ v).toList = u.toList ++ '*' :: '*' :: v.toList := by simp
  rw [accepts_iff_means_of_searchable hone, means_iff, hstar] at h
  rw [accepts_iff_means_of_searchable htwo, means_iff, hstars]
  simp only [accepts_iff_means_of_searchable hfront, accepts_iff_means_of_searchable hback,
    means_iff]
  by_cases hslash : v.toList.head? = some '/'
  · have haccepts : Splits (elements (u.toList ++ '*' :: '*' :: v.toList)) text.toList := by
      obtain ⟨rest, hrest⟩ := List.head?_eq_some_iff.1 hslash
      rw [hrest] at h ⊢
      exact splits_stars_of_slash hu h
    exact ⟨iff_of_true haccepts (Or.inl hslash), fun _ => haccepts⟩
  · rw [splits_stars_iff hu hslash]
    constructor
    · constructor
      · intro hsplits
        obtain ⟨first, run, last, htext, hfirst, hrun, hlast⟩ := hsplits
        refine Or.inr ⟨String.ofList first, String.ofList run, String.ofList last, ?_, ?_⟩
        · apply String.toList_injective
          simp [htext]
        · simpa using ⟨hfirst, hrun, hlast⟩
      · intro hwhich
        obtain ⟨first, run, last, rfl, hparts⟩ := hwhich.resolve_left hslash
        exact ⟨first.toList, run.toList, last.toList, by simp, hparts⟩
    · intro hfeed
      obtain ⟨first, run, last, htext, hfirst, -, hlast⟩ := (splits_star_iff hu hv).1 h
      have hrun : '\n' ∉ run := by
        intro hmem
        exact hfeed (by simp [htext, hmem])
      exact ⟨first, run, last, htext, hfirst, hrun, hlast⟩

/-- The name of a file may end in a line feed, which the star takes and the two stars do not. -/
theorem accepts_two_stars_iff_of_feed :
    (∃ name : Disk.Name, name.text = "a\n") ∧
      "a".toList.getLast? ≠ some '*' ∧ "".toList.head? ≠ some '*' ∧
      searchable ⟨"a" ++ "*" ++ ""⟩ = true ∧ searchable ⟨"a" ++ "**" ++ ""⟩ = true ∧
      accepts ⟨"a" ++ "*" ++ ""⟩ "a\n" = true ∧ accepts ⟨"a" ++ "**" ++ ""⟩ "a\n" = false ∧
      ¬ ∃ first run last, "a\n" = first ++ run ++ last ∧ accepts ⟨"a"⟩ first = true ∧
        '\n' ∉ run.toList ∧ accepts ⟨""⟩ last = true := by
  have hname : ∃ name : Disk.Name, name.text = "a\n" := ⟨.ofText "a\n", by cbv⟩
  have hone : searchable ⟨"a" ++ "*" ++ ""⟩ = true := by decide
  have htwo : searchable ⟨"a" ++ "**" ++ ""⟩ = true := by decide
  have hstar : accepts ⟨"a" ++ "*" ++ ""⟩ "a\n" = true := by decide
  have hstars : accepts ⟨"a" ++ "**" ++ ""⟩ "a\n" = false := by decide
  refine ⟨hname, by decide, by decide, hone, htwo, hstar, hstars, fun hparts => ?_⟩
  have haccepts := (accepts_two_stars_iff (by decide) (by decide) hone htwo hstar).1.2 (Or.inr hparts)
  rw [hstars] at haccepts
  cases haccepts

end Sweep.Glob
