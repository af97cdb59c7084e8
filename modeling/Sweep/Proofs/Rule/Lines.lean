import Mathlib.Data.List.Forall2
import Sweep.Preset
import Sweep.Proofs.Text
/-!
# Reading rules line by line

What stands between two line feeds is read on its own, and a fault tells how many line feeds stand
before it. The line ends of a text make no difference to that: a carriage return before a line feed
would be trimmed off anyway, and an empty line after the last line feed would hold no rule. So two
texts with a line feed between them are read as one after the other, whatever they begin and end
with, and the fault of a text is that of its first line that is no rule.

## Main results

* `ofText_eq_ofLines` — a text is read by what stands between its line feeds.
* `ofLines_append`, `ofLines_add` — lines after other lines, and lines that are counted further on.
* `ofLines_eq_error_iff`, `ofLines_eq_ok_iff` — when lines are at fault, and which rules they hold.
* `ofText_append_feed` — a text made of two texts.
-/

namespace Sweep

open Text

/-! ## Carriage returns -/

namespace Text

theorem trim_concat_of_isBlank {c : Char} (hblank : isBlank c = true) (cs : List Char) :
    trim (cs ++ [c]) = trim cs := by
  rw [trim, trim, List.dropWhile_append]
  split
  · rename_i hnone
    have hall : cs.dropWhile isBlank = [] := by simpa using hnone
    simp [hall, hblank]
  · rw [List.reverse_append, List.reverse_singleton, List.singleton_append,
      List.dropWhile_cons_of_pos hblank]

/-- The carriage return that a line feed takes along would be trimmed off. -/
theorem trim_dropReturn (line : List Char) : trim (dropReturn line) = trim line := by
  unfold dropReturn
  split
  · rename_i hlast
    obtain ⟨front, rfl⟩ := List.getLast?_eq_some_iff.1 hlast
    rw [List.dropLast_concat, trim_concat_of_isBlank (by decide)]
  · rfl

end Text

namespace Rule

/-! ## Lines one after the other -/

/-- Reads a line that has the given number. -/
def ofLine (number : Nat) (line : List Char) : Except TextFault (Option Rule) :=
  (ofTokens? ((wordsOfLine line).map String.ofList)).mapError
    fun cause => ⟨number, String.ofList (trim line), cause⟩

/-- The same fault in a text that has so many lines more in front. -/
def TextFault.later (fault : TextFault) (count : Nat) : TextFault :=
  { fault with line := fault.line + count }

theorem ofLine_congr {line other : List Char} (h : trim line = trim other) (number : Nat) :
    ofLine number line = ofLine number other := by
  simp only [ofLine, wordsOfLine, h]

theorem ofLine_add (number count : Nat) (line : List Char) :
    ofLine (number + count) line = (ofLine number line).mapError (·.later count) := by
  unfold ofLine
  cases ofTokens? ((wordsOfLine line).map String.ofList) <;> rfl

theorem ofLines_cons (number : Nat) (line : List Char) (rest : List (List Char)) :
    ofLines number (line :: rest) = (ofLine number line).bind fun found =>
      (ofLines (number + 1) rest).map (found.toList ++ ·) := by
  rw [ofLines, ofLine]
  cases ofTokens? ((wordsOfLine line).map String.ofList) with
  | error cause => rfl
  | ok found =>
      cases found with
      | none => cases ofLines (number + 1) rest <;> simp [Except.mapError, Except.bind,
          Except.map]
      | some rule => rfl

/-- Lines after other lines. -/
theorem ofLines_append (number : Nat) (front back : List (List Char)) :
    ofLines number (front ++ back) = (ofLines number front).bind fun rules =>
      (ofLines (number + front.length) back).map (rules ++ ·) := by
  induction front generalizing number with
  | nil =>
      cases hback : ofLines number back <;> simp [ofLines, Except.bind, Except.map, hback]
  | cons line rest ih =>
      have hcount : number + 1 + rest.length = number + (line :: rest).length := by
        rw [List.length_cons]
        omega
      rw [List.cons_append, ofLines_cons, ofLines_cons, ih, hcount]
      cases ofLine number line with
      | error fault => rfl
      | ok found =>
          cases ofLines (number + 1) rest with
          | error fault => rfl
          | ok rules =>
              cases ofLines (number + (line :: rest).length) back with
              | error fault => rfl
              | ok more => simp [Except.bind, Except.map]

/-- Lines that are counted further on. -/
theorem ofLines_add (number count : Nat) (lines : List (List Char)) :
    ofLines (number + count) lines = (ofLines number lines).mapError (·.later count) := by
  induction lines generalizing number with
  | nil => rfl
  | cons line rest ih =>
      have hnext : number + count + 1 = number + 1 + count := by omega
      rw [ofLines_cons, ofLines_cons, ofLine_add, hnext, ih]
      cases ofLine number line with
      | error fault => rfl
      | ok found => cases ofLines (number + 1) rest <;> rfl

/-- What a line loses to its line end makes no difference to how it is read. -/
theorem ofLines_linesOfPieces (number : Nat) (pieces : List (List Char)) :
    ofLines number (linesOfPieces pieces) = ofLines number pieces := by
  induction pieces generalizing number with
  | nil => rfl
  | cons piece rest ih =>
      cases rest with
      | nil =>
          rw [linesOfPieces]
          split
          · rename_i hempty
            rw [List.isEmpty_iff.1 hempty]
            rfl
          · rfl
      | cons next rest =>
          rw [linesOfPieces, ofLines_cons, ofLines_cons, ih, ofLine_congr (trim_dropReturn piece)]
          simp

/-- A text is read by what stands between its line feeds. -/
theorem ofText_eq_ofLines (text : String) :
    ofText text = ofLines 1 (split (· == '\n') text.toList) := by
  rw [ofText, lines, ofLines_linesOfPieces]

/-! ## Which lines decide -/

/-- A line is read as a rule, or as one that holds no rule. -/
def Reads (line : List Char) (found : Option Rule) : Prop :=
  ofTokens? ((wordsOfLine line).map String.ofList) = .ok found

theorem ofLine_eq_ok_iff {number : Nat} {line : List Char} {found : Option Rule} :
    ofLine number line = .ok found ↔ Reads line found := by
  unfold ofLine Reads
  cases ofTokens? ((wordsOfLine line).map String.ofList) <;> simp [Except.mapError]

theorem ofLine_eq_error_iff {number : Nat} {line : List Char} {fault : TextFault} :
    ofLine number line = .error fault ↔
      ∃ cause, ofTokens? ((wordsOfLine line).map String.ofList) = .error cause ∧
        fault = ⟨number, String.ofList (trim line), cause⟩ := by
  unfold ofLine
  cases ofTokens? ((wordsOfLine line).map String.ofList) <;> simp [Except.mapError, eq_comm]

/-- Lines are read as the rules that they hold if each of them can be read, and else not at all. -/
theorem ofLines_eq_ok_iff {number : Nat} {lines : List (List Char)} {rules : List Rule} :
    ofLines number lines = .ok rules ↔
      ∃ found, List.Forall₂ Reads lines found ∧ rules = found.filterMap id := by
  induction lines generalizing number rules with
  | nil => simp [ofLines, eq_comm]
  | cons line rest ih =>
      rw [ofLines_cons]
      constructor
      · intro h
        cases hline : ofLine number line with
        | error fault => simp [hline, Except.bind] at h
        | ok head =>
            cases hrest : ofLines (number + 1) rest with
            | error fault => simp [hline, hrest, Except.bind, Except.map] at h
            | ok others =>
                obtain ⟨found, hreads, rfl⟩ := ih.1 hrest
                have hrules : rules = head.toList ++ found.filterMap id := by
                  simpa [hline, hrest, Except.bind, Except.map, eq_comm] using h
                refine ⟨head :: found, .cons (ofLine_eq_ok_iff.1 hline) hreads, ?_⟩
                rw [hrules]
                cases head <;> rfl
      · intro h
        obtain ⟨found, hreads, rfl⟩ := h
        cases hreads with
        | @cons _ head _ found hline hrest =>
            have hothers : ofLines (number + 1) rest = .ok (found.filterMap id) :=
              ih.2 ⟨found, hrest, rfl⟩
            rw [ofLine_eq_ok_iff.2 hline, hothers]
            cases head <;> rfl

/-- Lines are at fault for the first of them that is no rule. -/
theorem exists_line_of_ofLines_eq_error {number : Nat} {lines : List (List Char)}
    {fault : TextFault} (h : ofLines number lines = .error fault) :
    ∃ front line back, lines = front ++ line :: back ∧
      (∀ earlier ∈ front, ∃ found, Reads earlier found) ∧
      ofLine (number + front.length) line = .error fault := by
  induction lines generalizing number with
  | nil => cases h
  | cons line rest ih =>
      cases hline : ofLine number line with
      | error cause =>
          rw [ofLines_cons, hline] at h
          cases h
          exact ⟨[], line, rest, rfl, by simp, hline⟩
      | ok found =>
          cases hrest : ofLines (number + 1) rest with
          | ok rules => simp [ofLines_cons, hline, hrest, Except.bind, Except.map] at h
          | error cause =>
              rw [ofLines_cons, hline, hrest] at h
              cases h
              obtain ⟨front, other, back, rfl, hfront, hother⟩ := ih hrest
              have hcount : number + (line :: front).length = number + 1 + front.length := by
                rw [List.length_cons]
                omega
              refine ⟨line :: front, other, back, rfl, ?_, hcount ▸ hother⟩
              exact List.forall_mem_cons.2 ⟨⟨found, ofLine_eq_ok_iff.1 hline⟩, hfront⟩

theorem ofLines_eq_error_iff {number : Nat} {lines : List (List Char)} {fault : TextFault} :
    ofLines number lines = .error fault ↔
      ∃ front line back, lines = front ++ line :: back ∧
        (∀ earlier ∈ front, ∃ found, Reads earlier found) ∧
        ofLine (number + front.length) line = .error fault := by
  constructor
  · exact exists_line_of_ofLines_eq_error
  · intro h
    obtain ⟨front, line, back, rfl, hfront, hline⟩ := h
    cases hread : ofLines number front with
    | error cause =>
        -- one of the lines in front would be at fault
        obtain ⟨before, other, after, rfl, -, hother⟩ := exists_line_of_ofLines_eq_error hread
        obtain ⟨found, hfound⟩ := hfront other (by simp)
        rw [ofLine_eq_ok_iff.2 hfound] at hother
        cases hother
    | ok rules =>
        rw [ofLines_append, hread, ofLines_cons, hline]
        rfl

/-! ## Texts -/

/-- What is wrong with a text: the fault of the first of its lines that is no rule. -/
def AtFault (text : String) (fault : TextFault) : Prop :=
  ∃ front line back cause, split (· == '\n') text.toList = front ++ line :: back ∧
    (∀ earlier ∈ front, ∃ found, Reads earlier found) ∧
    ofTokens? ((wordsOfLine line).map String.ofList) = .error cause ∧
    fault = ⟨1 + front.length, String.ofList (trim line), cause⟩

/-- The rules of a text all of whose lines can be read. -/
def Holds (text : String) (rules : List Rule) : Prop :=
  ∃ found, List.Forall₂ Reads (split (· == '\n') text.toList) found ∧
    rules = found.filterMap id

theorem ofText_eq_ok_iff {text : String} {rules : List Rule} :
    ofText text = .ok rules ↔ Holds text rules := by
  rw [ofText_eq_ofLines, ofLines_eq_ok_iff, Holds]

theorem ofText_eq_error_iff {text : String} {fault : TextFault} :
    ofText text = .error fault ↔ AtFault text fault := by
  simp only [ofText_eq_ofLines, ofLines_eq_error_iff, ofLine_eq_error_iff, AtFault,
    exists_and_left]

/-- Two texts with a line feed between them are read as one after the other. -/
theorem ofText_append (a b : String) :
    ofText (a ++ "\n" ++ b) = (ofText a).bind fun rules =>
      ((ofText b).mapError (·.later (1 + a.toList.count '\n'))).map (rules ++ ·) := by
  have hpieces : split (· == '\n') (a ++ "\n" ++ b).toList =
      split (· == '\n') a.toList ++ split (· == '\n') b.toList := by
    rw [String.toList_append, String.toList_append, List.append_assoc]
    exact split_append_cons (by decide) a.toList b.toList
  have hcount : (split (· == '\n') a.toList).length = 1 + a.toList.count '\n' := by
    rw [length_split, Nat.add_comm]
    rfl
  rw [ofText_eq_ofLines, hpieces, ofLines_append, hcount, ofLines_add, ← ofText_eq_ofLines,
    ← ofText_eq_ofLines]

/-- Two texts with a line feed between them are read as one after the other: if the first is at fault,
so is the whole, in the same way; if only the second is, then for the same line, whose number has
grown by the line feeds in front of it; and else both give their rules, one after the other. A text is
at fault for the first of its lines that is no rule, and has rules only if there is none. -/
theorem ofText_append_feed (a b : String) :
    (ofText (a ++ "\n" ++ b) =
      match ofText a, ofText b with
      | .error fault, _ => .error fault
      | .ok _, .error fault =>
          .error { fault with line := fault.line + (1 + a.toList.count '\n') }
      | .ok rules, .ok more => .ok (rules ++ more)) ∧
      (∀ text fault, ofText text = .error fault ↔ AtFault text fault) ∧
      ∀ text rules, ofText text = .ok rules ↔ Holds text rules := by
  refine ⟨?_, fun text fault => ofText_eq_error_iff, fun text rules => ofText_eq_ok_iff⟩
  rw [ofText_append]
  cases ofText a with
  | error fault => rfl
  | ok rules => cases ofText b <;> rfl

/-- A carriage return before the seam goes with it, and an empty text is one empty line. -/
example : ofText ("delete a\r" ++ "\n" ++ "") = .ok [⟨.delete, ⟨"a"⟩, none⟩] ∧
    ofText ("" ++ "\n" ++ "keep a") = .error ⟨2, "keep a", .unknownAction "keep"⟩ := by
  constructor <;> cbv

end Rule

/-! ## The preset that joins the others -/

namespace Preset

/-- The rules of all presets are read one preset after the other. -/
theorem ofText_dev :
    Rule.ofText dev.text = .ok (rust.rules ++ (node.rules ++ python.rules)) := by
  have hpair : Rule.ofText (node.text ++ "\n" ++ python.text) =
      .ok (node.rules ++ python.rules) := by
    rw [Rule.ofText_append, ofText_text_of_ne_dev (by decide), ofText_text_of_ne_dev (by decide)]
    rfl
  show Rule.ofText (rust.text ++ "\n" ++ (node.text ++ "\n" ++ python.text)) = _
  rw [Rule.ofText_append, ofText_text_of_ne_dev (by decide), hpair]
  rfl

/-- The preset that joins the others holds their rules. -/
theorem rules_dev : dev.rules = rust.rules ++ (node.rules ++ python.rules) := by
  rw [rules, ofText_dev]
  rfl

/-- The text of a preset is written in the rule language. -/
theorem ofText_text (preset : Preset) : Rule.ofText preset.text = .ok preset.rules := by
  by_cases hdev : preset = dev
  · rw [hdev, ofText_dev, rules_dev]
  · exact ofText_text_of_ne_dev hdev

end Preset

end Sweep
