import Mathlib
import Sweep.Display
import Sweep.Proofs.Stripped
import Sweep.Proofs.Text
import Sweep.Proofs.Utf8
/-!
# Paths below the home directory

A path is shown with a tilde in place of the home directory where its components begin with those of
that directory, whatever slashes and dots both are spelled with. What follows the tilde is the end of
the path as it was spelled, so it can be read again and put after the home directory. A path that
begins at the root does not begin with a tilde, so what is shown tells which of the two it is.

All this is about paths that are text. The steps of such a path are texts too, since a slash is a byte
of its own in UTF-8, so a part of the path is shown as it is spelled.

## Main results

* `text_ofText` — a path that was read from a text is shown as that text.
* `ofText_text` — a path below a directory is read again from what is shown of it.
* `displayPath_reads_back` — a path can be read back from how it is shown.
-/

namespace Sweep

open Text

namespace Text.Utf8

theorem encode_join (separator : List Char) (parts : List (List Char)) :
    encode (join separator parts) = join (encode separator) (parts.map encode) := by
  induction parts with
  | nil => rfl
  | cons part rest ih =>
      cases rest with
      | nil => rfl
      | cons next rest =>
          rw [join, encode_append, encode_append, ih]
          rfl

/-- Where a text holds no slash, none of its bytes is one. -/
theorem slash_not_mem_encode {cs : List Char} (h : '/' ∉ cs) : slash ∉ encode cs := by
  have hcount := count_lossy (c := '/') (by decide) (by decide) (encode cs)
  rw [lossy_encode, List.count_eq_zero.2 h] at hcount
  exact List.count_eq_zero.1 hcount.symm

theorem slash_not_mem_of_mem_map {parts : List (List Char)} (h : ∀ part ∈ parts, '/' ∉ part) :
    ∀ step ∈ parts.map encode, slash ∉ step := by
  intro step hstep
  obtain ⟨part, hpart, rfl⟩ := List.mem_map.1 hstep
  exact slash_not_mem_encode (h part hpart)

/-- The bytes of a text begin with a slash only if the text does. -/
theorem head?_encode_ne_slash {cs : List Char} (h : cs.head? ≠ some '/') :
    (encode cs).head? ≠ some slash := by
  cases cs with
  | nil => simp [encode]
  | cons c rest =>
      have hfree : slash ∉ encode [c] := slash_not_mem_encode (by simpa [eq_comm] using h)
      have hfirst : (encode [c]).head? = (encode (c :: rest)).head? := by
        have hc : encode [c] = encodeChar c := List.append_nil _
        rw [hc, encode, List.flatMap_cons, List.head?_append_of_ne_nil _ (encodeChar_ne_nil c)]
      rw [← hfirst]
      exact fun hhead => hfree (List.mem_of_mem_head? hhead)

end Text.Utf8

open Text.Utf8

namespace Path

/-! ## Paths that are text -/

/-- Steps without slashes are found again. -/
theorem stepsOfBytes_join {steps : List Bytes} (hfree : ∀ step ∈ steps, slash ∉ step)
    (hne : Text.join [slash] steps ≠ []) : stepsOfBytes (Text.join [slash] steps) = steps := by
  have hpieces : ∀ step ∈ steps, ∀ byte ∈ step, (byte == slash) = false := by
    intro step hstep byte hbyte
    rw [beq_eq_false_iff_ne]
    rintro rfl
    exact hfree step hstep hbyte
  have hsteps : steps ≠ [] := by
    rintro rfl
    exact hne rfl
  rw [stepsOfBytes, if_neg hne, split_join hpieces (by simp) hsteps]

/-- The bytes of a text are cut where the text has its slashes. -/
theorem exists_stepsOfBytes_encode (cs : List Char) :
    ∃ parts : List (List Char), (∀ part ∈ parts, '/' ∉ part) ∧
      stepsOfBytes (encode cs) = parts.map encode := by
  by_cases hnone : encode cs = []
  · exact ⟨[], by simp, by rw [stepsOfBytes, if_pos hnone]; rfl⟩
  · have hparts : ∀ part ∈ split (· == '/') cs, '/' ∉ part := by
      intro part hpart hslash
      have hfree := forall_mem_split cs part hpart '/' hslash
      simp at hfree
    have hjoin : encode cs = Text.join [slash] ((split (· == '/') cs).map encode) := by
      conv_lhs => rw [← join_split '/' cs, encode_join]
      rfl
    refine ⟨split (· == '/') cs, hparts, ?_⟩
    rw [hjoin] at hnone ⊢
    exact stepsOfBytes_join (slash_not_mem_of_mem_map hparts) hnone

/-- A text that begins with a slash is read from the root on. -/
theorem ofText_cases (text : String) :
    (∃ cs, text.toList = '/' :: cs ∧ ofText text = ⟨true, stepsOfBytes (encode cs)⟩) ∨
      (text.toList.head? ≠ some '/' ∧ ofText text = ⟨false, stepsOfBytes (encode text.toList)⟩) := by
  by_cases hfront : text.toList.head? = some '/'
  · obtain ⟨cs, hcs⟩ := List.head?_eq_some_iff.1 hfront
    refine Or.inl ⟨cs, hcs, ?_⟩
    rw [ofText, hcs]
    rfl
  · refine Or.inr ⟨hfront, ?_⟩
    have hhead := head?_encode_ne_slash hfront
    rw [ofText]
    cases hbytes : encode text.toList with
    | nil => rfl
    | cons byte rest =>
        rw [hbytes] at hhead
        rw [ofBytes, if_neg (by simpa using hhead)]

/-- The steps of a text are texts without slashes. -/
theorem exists_steps_ofText (text : String) :
    ∃ parts : List (List Char), (∀ part ∈ parts, '/' ∉ part) ∧
      (ofText text).steps = parts.map encode := by
  rcases ofText_cases text with ⟨cs, -, hpath⟩ | ⟨-, hpath⟩
  · rw [hpath]
    exact exists_stepsOfBytes_encode cs
  · rw [hpath]
    exact exists_stepsOfBytes_encode text.toList

/-- A path that was read from a text is shown as that text. -/
@[simp] theorem text_ofText (text : String) : (ofText text).text = text := by
  rw [Path.text, ofText, bytes_ofBytes, lossy_encode, String.ofList_toList]

/-- The spelling of a path that does not begin at the root is read as that path. -/
theorem ofBytes_bytes {path : Path} (hrooted : path.rooted = false)
    (hfree : ∀ step ∈ path.steps, slash ∉ step) (hfront : path.steps.head? ≠ some []) :
    ofBytes path.bytes = path := by
  obtain ⟨rooted, steps⟩ := path
  subst hrooted
  cases steps with
  | nil => rfl
  | cons step rest =>
      obtain ⟨byte, more, rfl⟩ := List.exists_cons_of_ne_nil (l := step) (by simpa using hfront)
      have hbyte : byte ≠ slash := by
        rintro rfl
        exact hfree _ List.mem_cons_self List.mem_cons_self
      have hbytes : ∃ tail, Text.join [slash] ((byte :: more) :: rest) = byte :: tail := by
        cases rest with
        | nil => exact ⟨more, rfl⟩
        | cons next rest => exact ⟨_, rfl⟩
      obtain ⟨tail, htail⟩ := hbytes
      have hsteps := stepsOfBytes_join hfree (by rw [htail]; exact List.cons_ne_nil _ _)
      show ofBytes (Text.join [slash] ((byte :: more) :: rest)) = _
      rw [htail] at hsteps ⊢
      rw [ofBytes, if_neg hbyte, hsteps]

/-- A path whose steps are texts is read again from what is shown of it. -/
theorem ofText_text {path : Path} {parts : List (List Char)} (hrooted : path.rooted = false)
    (hparts : ∀ part ∈ parts, '/' ∉ part) (hsteps : path.steps = parts.map encode)
    (hfront : path.steps.head? ≠ some []) : ofText path.text = path := by
  have hbytes : path.bytes = encode (Text.join ['/'] parts) := by
    rw [bytes, hrooted, hsteps, encode_join]
    rfl
  have hfree : ∀ step ∈ path.steps, slash ∉ step := hsteps ▸ slash_not_mem_of_mem_map hparts
  rw [Path.text, hbytes, lossy_encode, ofText, String.toList_ofList, ← hbytes]
  exact ofBytes_bytes hrooted hfree hfront

/-- What is left of a text when its front is taken off is read again from what is shown of it. -/
theorem ofText_text_of_stripFront? {base rest : Path} {text : String} (hbase : base.rooted = true)
    (htext : (ofText text).rooted = true) (h : (ofText text).stripFront? base = some rest) :
    ofText rest.text = rest := by
  obtain ⟨-, rfl⟩ := (stripFront?_eq_some_iff hbase htext).1 h
  obtain ⟨parts, hparts, hsteps⟩ := exists_steps_ofText text
  let left := dropCounting (base.steps.filter (!isIdle ·)).length (ofText text).steps
  have hprefix : dropIdleEnd left <+: left := dropIdleEnd_prefix left
  have hsublist : (dropIdleEnd left).Sublist (parts.map encode) :=
    hsteps ▸ hprefix.sublist.trans (dropCounting_sublist _ _)
  obtain ⟨kept, hkept, hleft⟩ := List.sublist_map_iff.1 hsublist
  refine ofText_text rfl (fun part hpart => hparts part (hkept.subset hpart)) hleft ?_
  intro (hfront : (dropIdleEnd left).head? = some [])
  have hempty : left.head? = some [] := by
    obtain ⟨tail, htail⟩ := hprefix
    rw [← htail, List.head?_append, hfront]
    rfl
  have hidle : isIdle [] = false := isIdle_of_head?_dropCounting hempty
  cases hidle

end Path

/-! ## The home directory -/

/-- What is shown with a tilde does not begin at the root. -/
theorem rooted_ofText_tilde (rest : String) : (Path.ofText ("~/" ++ rest)).rooted = false := by
  rw [Path.ofText, String.toList_append]
  rfl

section Home

variable {home : Path} (hhome : home.rooted = true) {text : String}
  (htext : (Path.ofText text).rooted = true)

include hhome htext

/-- Below the home directory, what is shown leads on from there. -/
theorem displayPath_of_front (hfront : home.components <+: (Path.ofText text).components) :
    ∃ rest, displayPath (some home) (Path.ofText text) = "~/" ++ rest ∧
      (home.join (Path.ofText rest)).components = (Path.ofText text).components := by
  cases hstrip : (Path.ofText text).stripFront? home with
  | none => exact absurd hfront (Path.stripFront?_eq_none_iff.1 hstrip)
  | some rest =>
      refine ⟨rest.text, by simp [displayPath, hstrip], ?_⟩
      rw [Path.ofText_text_of_stripFront? hhome htext hstrip]
      exact Path.components_join_of_stripFront? hhome htext hstrip

omit hhome htext in
/-- Elsewhere a text is shown as it is. -/
theorem displayPath_of_not_front (hfront : ¬ home.components <+: (Path.ofText text).components) :
    displayPath (some home) (Path.ofText text) = text := by
  have hstrip := Path.stripFront?_eq_none_iff.2 hfront
  simp [displayPath, hstrip]

/-- A tilde is shown exactly below the home directory. -/
theorem exists_displayPath_iff : (∃ rest, displayPath (some home) (Path.ofText text) = "~/" ++ rest) ↔
    home.components <+: (Path.ofText text).components := by
  constructor
  · rintro ⟨rest, hshown⟩
    by_contra hfront
    rw [displayPath_of_not_front hfront] at hshown
    rw [hshown, rooted_ofText_tilde] at htext
    cases htext
  · intro hfront
    obtain ⟨rest, hshown, -⟩ := displayPath_of_front hhome htext hfront
    exact ⟨rest, hshown⟩

/-- What follows the tilde leads on from the home directory to the path. -/
theorem components_join_of_displayPath {rest : String}
    (h : displayPath (some home) (Path.ofText text) = "~/" ++ rest) :
    (home.join (Path.ofText rest)).components = (Path.ofText text).components := by
  have hfront := (exists_displayPath_iff hhome htext).1 ⟨rest, h⟩
  obtain ⟨other, hother, hcomponents⟩ := displayPath_of_front hhome htext hfront
  have hsame : rest = other := by
    have hlists := congrArg String.toList (h.symm.trans hother)
    rw [String.toList_append, String.toList_append] at hlists
    exact String.toList_inj.1 (List.append_cancel_left hlists)
  rw [hsame, hcomponents]

end Home

/-- How an absolute path in text is shown tells its components. It is shown with a tilde exactly where
they begin with those of the home directory, and then what follows the tilde leads from there to the
path; elsewhere it is shown as it is spelled. So paths that are shown alike have the same
components. -/
theorem displayPath_reads_back {home : Path} (hhome : home.rooted = true) {text : String}
    (htext : (Path.ofText text).rooted = true) :
    ((∃ rest, displayPath (some home) (Path.ofText text) = "~/" ++ rest) ↔
      home.components <+: (Path.ofText text).components) ∧
      (∀ rest, displayPath (some home) (Path.ofText text) = "~/" ++ rest →
        (home.join (Path.ofText rest)).components = (Path.ofText text).components) ∧
      (¬ home.components <+: (Path.ofText text).components →
        displayPath (some home) (Path.ofText text) = text) ∧
      ∀ other, (Path.ofText other).rooted = true →
        displayPath (some home) (Path.ofText other) = displayPath (some home) (Path.ofText text) →
        (Path.ofText other).components = (Path.ofText text).components := by
  refine ⟨exists_displayPath_iff hhome htext, fun rest => components_join_of_displayPath hhome htext,
    displayPath_of_not_front, ?_⟩
  intro other hother hsame
  by_cases hfront : home.components <+: (Path.ofText text).components
  · obtain ⟨rest, hshown, hcomponents⟩ := displayPath_of_front hhome htext hfront
    rw [← hcomponents, components_join_of_displayPath hhome hother (hsame.trans hshown)]
  · have hshown := displayPath_of_not_front hfront
    by_cases hbelow : home.components <+: (Path.ofText other).components
    · obtain ⟨rest, htilde, -⟩ := displayPath_of_front hhome hother hbelow
      rw [← hshown, ← hsame, htilde, rooted_ofText_tilde] at htext
      cases htext
    · rw [displayPath_of_not_front hbelow, hshown] at hsame
      rw [hsame]

/-- Slashes and dots do not hide that a path is below the home directory, and a name that only begins
like the home directory is not taken for it. -/
theorem displayPath_reads_back_of_slashes :
    let home := Path.ofText "/home/user/"
    let below := "//home/./user//a//../b/."
    let beside := "/home/user2"
    home.rooted = true ∧ (Path.ofText below).rooted = true ∧ (Path.ofText beside).rooted = true ∧
      displayPath (some home) (Path.ofText below) = "~/" ++ "a//../b" ∧
      (home.join (Path.ofText "a//../b")).components = (Path.ofText below).components ∧
      displayPath (some home) (Path.ofText beside) = beside ∧
      displayPath (some home) (Path.ofText beside) ≠ displayPath (some home) (Path.ofText below) := by
  intro home below beside
  have hhome : home.rooted = true := by decide +kernel
  have hbelow : (Path.ofText below).rooted = true := by decide +kernel
  have hbeside : (Path.ofText beside).rooted = true := by decide +kernel
  have hother : ¬ home.components <+: (Path.ofText beside).components := by decide +kernel
  have hdiffer : (Path.ofText beside).components ≠ (Path.ofText below).components := by
    decide +kernel
  have hstrip : (Path.ofText below).stripFront? home = some (Path.ofText "a//../b") := by
    decide +kernel
  have hshown : displayPath (some home) (Path.ofText below) = "~/" ++ "a//../b" := by
    simp only [displayPath, hstrip, Path.text_ofText]
  obtain ⟨-, hleads, -, halike⟩ := displayPath_reads_back hhome hbelow
  obtain ⟨-, -, hspelled, -⟩ := displayPath_reads_back hhome hbeside
  exact ⟨hhome, hbelow, hbeside, hshown, hleads "a//../b" hshown, hspelled hother,
    fun hsame => hdiffer (halike beside hbeside hsame)⟩

end Sweep
