import Sweep.Config.Document
import Sweep.Proofs.Toml.Quoted
/-!
# The configuration as TOML read back

A written configuration has one line for each setting. A line is read back if its value is, and each
value is a quoted string or a truth value. The names of the settings differ, so each of them is
found again among the entries that are read.

## Main results

* `Toml.readDraft_line` — a line with a name and a value adds an entry.
* `Config.ofText?_text` — any configuration reads back from its text.
-/

namespace Sweep.Toml

open Quoted

/-! ## Names -/

/-- The characters of a word may all stand in a name without quotes. -/
def IsBareWord (word : List Char) : Prop :=
  word ≠ [] ∧ ∀ c ∈ word, isBare c = true

theorem IsBareWord.exists_cons {word : List Char} (h : IsBareWord word) :
    ∃ c rest, word = c :: rest ∧ isBare c = true := by
  obtain ⟨c, rest, rfl⟩ := List.exists_cons_of_ne_nil h.1
  exact ⟨c, rest, rfl, h.2 c List.mem_cons_self⟩

theorem skipSpace_cons {c : Char} (h : isSpace c = false) (rest : List Char) :
    skipSpace (c :: rest) = c :: rest := by
  rw [skipSpace, List.dropWhile_cons, h]
  rfl

theorem isSpace_of_isBare {c : Char} (h : isBare c = true) : isSpace c = false := by
  rw [isSpace, Bool.or_eq_false_iff, decide_eq_false_iff_not, decide_eq_false_iff_not]
  constructor
  · rintro rfl
    cases h
  · rintro rfl
    cases h

theorem readPart_word {word : List Char} (h : IsBareWord word) (rest : List Char) :
    readPart (word ++ ' ' :: rest) = some (String.ofList word, ' ' :: rest) := by
  have hpart : (word ++ ' ' :: rest).takeWhile isBare = word := by
    rw [List.takeWhile_append_of_pos h.2, List.takeWhile_cons_of_neg (by decide), List.append_nil]
  obtain ⟨c, more, hword, hbare⟩ := h.exists_cons
  have hne : word.isEmpty = false := by simp [hword]
  rw [readPart]
  · simp only [hpart, hne, List.drop_left]
    rfl
  · intro tail heq
    rw [hword] at heq
    cases heq
    cases hbare
  · intro tail heq
    rw [hword] at heq
    cases heq
    cases hbare

theorem readName_word {word : List Char} (h : IsBareWord word) (rest : List Char) :
    readName (word ++ ' ' :: '=' :: rest) = some ([String.ofList word], '=' :: rest) := by
  obtain ⟨c, more, hword, hbare⟩ := h.exists_cons
  have hfront : skipSpace (word ++ ' ' :: '=' :: rest) = word ++ ' ' :: '=' :: rest := by
    rw [hword]
    exact skipSpace_cons (isSpace_of_isBare hbare) _
  have hsign : skipSpace (' ' :: '=' :: rest) = '=' :: rest := rfl
  show readParts (78 + 1) _ = _
  rw [readParts, hfront, readPart_word h]
  simp only [Option.bind_eq_bind, Option.bind_some, hsign]
  rfl

/-! ## Lines -/

/-- How a value is written on a line: the reader finds it at the front of a text that goes on with a
line break, and it does not begin with a space. -/
structure Writes (written : List Char) (value : Value) : Prop where
  front : ∀ rest, skipSpace (written ++ '\n' :: rest) = written ++ '\n' :: rest
  reads : ∀ rest,
    readValue (depthLimit - 1) (written ++ '\n' :: rest) = some (value, '\n' :: rest)

theorem putUnder_nil (name : String) (value : Value) (entries : Entries) :
    putUnder [] [name] value entries = put name value entries := by
  rfl

theorem readPair_line {word written : List Char} {value : Value} {entries : Entries}
    (hword : IsBareWord word) (hwritten : Writes written value)
    (hnew : entries.lookup (String.ofList word) = none) (rest : List Char) :
    readPair ⟨entries, []⟩ (word ++ ' ' :: '=' :: ' ' :: (written ++ '\n' :: rest)) =
      some (⟨entries ++ [(String.ofList word, value)], []⟩, '\n' :: rest) := by
  have hspace : skipSpace (' ' :: (written ++ '\n' :: rest)) = written ++ '\n' :: rest :=
    hwritten.front rest
  simp only [readPair, readName_word hword, Option.bind_eq_bind, Option.bind_some, hspace,
    hwritten.reads, putUnder_nil, put, hnew]
  rfl

/-- A line with a name and a value adds an entry. -/
theorem readDraft_line {word written : List Char} {value : Value} {entries : Entries} (fuel : Nat)
    (hword : IsBareWord word) (hwritten : Writes written value)
    (hnew : entries.lookup (String.ofList word) = none) (rest : List Char) :
    readDraft (fuel + 1) ⟨entries, []⟩
        (word ++ ' ' :: '=' :: ' ' :: (written ++ '\n' :: rest)) =
      readDraft fuel ⟨entries ++ [(String.ofList word, value)], []⟩ rest := by
  have hpair := readPair_line hword hwritten hnew rest
  have hline : afterLine? ('\n' :: rest) = some rest := by rfl
  obtain ⟨c, more, rfl, hbare⟩ := hword.exists_cons
  have hfront := skipSpace_cons (isSpace_of_isBare hbare)
    (more ++ ' ' :: '=' :: ' ' :: (written ++ '\n' :: rest))
  have hother : ∀ {mark : Char} {others : List Char},
      c :: (more ++ ' ' :: '=' :: ' ' :: (written ++ '\n' :: rest)) = mark :: others →
        isBare mark = true := by
    intro mark others heq
    rw [← (List.cons.inj heq).1]
    exact hbare
  rw [List.cons_append] at hpair ⊢
  rw [readDraft, hfront]
  split
  · rename_i heq
    cases heq
  · rename_i heq
    cases hother heq
  · rename_i heq
    cases hother heq
  · rename_i heq
    cases hother heq
  · rename_i heq
    cases hother heq
  · rw [hpair]
    simp only [Option.bind_eq_bind, Option.bind_some, hline]

/-! ## Values -/

theorem exists_cons_encode (cs : List Char) :
    ∃ mark rest, encode cs = mark :: rest ∧ (mark = '"' ∨ mark = '\'') := by
  unfold encode
  cases styleOf cs with
  | escaped marks => cases marks <;> exact ⟨_, _, rfl, Or.inl rfl⟩
  | verbatim marks => cases marks <;> exact ⟨_, _, rfl, Or.inr rfl⟩

/-- A quoted string writes its value. -/
theorem writes_encode (cs : List Char) : Writes (encode cs) (.string (String.ofList cs)) := by
  obtain ⟨mark, tail, hencode, hmark⟩ := exists_cons_encode cs
  constructor
  · intro rest
    rw [hencode]
    rcases hmark with rfl | rfl <;> rfl
  · intro rest
    have hdecode := decode?_encode_append cs
      (show ('\n' :: rest).head? ≠ some '"' by simp) (show ('\n' :: rest).head? ≠ some '\'' by simp)
    rw [hencode] at hdecode ⊢
    rcases hmark with rfl | rfl
    · rw [List.cons_append] at hdecode ⊢
      rw [readValue, hdecode]
      rfl
    · rw [List.cons_append] at hdecode ⊢
      rw [readValue, hdecode]
      rfl

theorem readValue_bare {c : Char} (hbare : isBare c = true) (depth : Nat) (rest : List Char) :
    readValue depth (c :: rest) = readScalar (c :: rest) := by
  have hother : ∀ {mark : Char} {others : List Char},
      c :: rest = mark :: others → isBare mark = true := by
    intro mark others heq
    rw [← (List.cons.inj heq).1]
    exact hbare
  rw [readValue]
  · intro others heq
    cases hother heq
  · intro others heq
    cases hother heq
  · intro others depth heq
    cases hother heq
  · intro others depth heq
    cases hother heq
  · intro others heq
    cases hother heq
  · intro others heq
    cases hother heq

/-- A truth value is written as its word. -/
theorem writes_truthText (truth : Bool) : Writes (truthText truth).toList (.boolean truth) := by
  cases truth with
  | false =>
      constructor
      · exact fun rest => rfl
      · intro rest
        show readValue 79 ('f' :: 'a' :: 'l' :: 's' :: 'e' :: '\n' :: rest) = _
        rw [readValue_bare (by decide)]
        rfl
  | true =>
      constructor
      · exact fun rest => rfl
      · intro rest
        show readValue 79 ('t' :: 'r' :: 'u' :: 'e' :: '\n' :: rest) = _
        rw [readValue_bare (by decide)]
        rfl

end Sweep.Toml

namespace Sweep.Config

open Toml

/-! ## The whole document -/

theorem isBareWord_word (setting : Setting) : IsBareWord setting.word.toList := by
  have hbare : setting.word.toList.all isBare = true := by
    cases setting <;> rfl
  refine ⟨?_, List.all_eq_true.1 hbare⟩
  cases setting <;> decide

theorem toList_lineOf (setting : Setting) (value : String) (rest : List Char) :
    (lineOf setting value).toList ++ rest =
      setting.word.toList ++ ' ' :: '=' :: ' ' :: (value.toList ++ '\n' :: rest) := by
  have hsign : " = ".toList = [' ', '=', ' '] := rfl
  have hbreak : "\n".toList = ['\n'] := rfl
  simp [lineOf, hsign, hbreak]

theorem readDraft_lineOf {setting : Setting} {written : String} {value : Value} {entries : Entries}
    (fuel : Nat) (hwritten : Writes written.toList value)
    (hnew : entries.lookup setting.word = none) (rest : List Char) :
    readDraft (fuel + 1) ⟨entries, []⟩ ((lineOf setting written).toList ++ rest) =
      readDraft fuel ⟨entries ++ [(setting.word, value)], []⟩ rest := by
  have hname : String.ofList setting.word.toList = setting.word := String.ofList_toList
  have hline := readDraft_line fuel (isBareWord_word setting) hwritten
    (by rw [hname]; exact hnew) rest
  rw [toList_lineOf, hline, hname]

/-- The entries of a written configuration. -/
def entries (config : Config) : Entries :=
  [(Setting.rulesFile.word, .string config.rulesFile),
    (Setting.dryRun.word, .boolean config.dryRun), (Setting.confirm.word, .boolean config.confirm),
    (Setting.format.word, .string config.format.word)]

theorem writes_quoted (text : String) : Writes (quoted text).toList (.string text) := by
  have hwrites := writes_encode text.toList
  rw [String.ofList_toList] at hwrites
  rw [quoted, String.toList_ofList]
  exact hwrites

theorem read?_text (config : Config) : read? config.text = some config.entries := by
  have hlines : config.text.toList = (lineOf .rulesFile (quoted config.rulesFile)).toList ++
      ((lineOf .dryRun (truthText config.dryRun)).toList ++
        ((lineOf .confirm (truthText config.confirm)).toList ++
          ((lineOf .format (quoted config.format.word)).toList ++ []))) := by
    simp [text]
  have hlength : 4 ≤ config.text.toList.length := by
    rw [hlines]
    simp only [toList_lineOf, List.length_append, List.length_cons]
    omega
  obtain ⟨fuel, hfuel⟩ := Nat.exists_eq_add_of_le' hlength
  have hdraft : readDraft (config.text.toList.length + 1) ⟨[], []⟩ config.text.toList =
      some ⟨config.entries, []⟩ := by
    rw [hfuel, hlines]
    -- none of the names is taken by an earlier line
    rw [readDraft_lineOf _ (writes_quoted _) rfl, readDraft_lineOf _ (writes_truthText _) rfl,
      readDraft_lineOf _ (writes_truthText _) rfl, readDraft_lineOf _ (writes_quoted _) rfl]
    rfl
  have hfront : ∀ rest, config.text.toList ≠ '\uFEFF' :: rest := by
    intro rest heq
    rw [hlines, toList_lineOf] at heq
    have hfirst := (List.cons.inj heq).1
    cases hfirst
  rw [read?]
  split
  · rename_i rest heq
    exact absurd heq (hfront rest)
  · rw [hdraft]
    rfl

/-- Each setting is found again under its name. -/
theorem ofEntries?_entries (config : Config) : ofEntries? config.entries = some config := by
  have hfile : config.entries.lookup Setting.rulesFile.word = some (.string config.rulesFile) := rfl
  have hdry : config.entries.lookup Setting.dryRun.word = some (.boolean config.dryRun) := rfl
  have hconfirm : config.entries.lookup Setting.confirm.word = some (.boolean config.confirm) := rfl
  have hformat : config.entries.lookup Setting.format.word = some (.string config.format.word) := rfl
  have hword : formatOf? (.string config.format.word) = some config.format :=
    Format.ofWord?_word config.format
  simp only [ofEntries?, field?, hfile, hdry, hconfirm, hformat, hword]
  rfl

/-- Any configuration reads back from its text. -/
theorem ofText?_text (config : Config) : ofText? config.text = some config := by
  rw [ofText?, read?_text, Option.bind_some, ofEntries?_entries]

end Sweep.Config
