import Mathlib.Data.List.Basic
import Mathlib.Data.List.TakeWhile
import Crosswalk.Text.Lines

/-!
# Writing lines and columns

Columns that have no tab in them are those of the line that is made of them (`Lines.columns_row`).
The columns of any line are empty ones for the tabs in front of it, and behind them those of the
rest (`Lines.columns_eq`).

The lines of a text are those that are written in it one after another, whichever way each of them
is ended (`Lines.ofText_eq_iff`).
-/

namespace Crosswalk.Lines

/-! ## Columns -/

/-- Columns with tabs between them. -/
def row (columns : List String) : String :=
  "\t".intercalate columns

/-- Columns are found again in their row. -/
theorem columns_row {columns : List String} (hne : columns ≠ [])
    (htab : ∀ column ∈ columns, '\t' ∉ column.toList) : Lines.columns (row columns) = columns := by
  have hparts : ((row columns).toList).splitOn '\t' = columns.map String.toList := by
    rw [row, String.toList_intercalate]
    apply List.splitOn_intercalate
    · simpa using htab
    · simpa using hne
  rw [Lines.columns, split, hparts, List.map_map]
  simp [Function.comp_def]

/-- Nothing is in a row but its columns and tabs. -/
theorem not_mem_row {c : Char} (hc : c ≠ '\t') {columns : List String}
    (h : ∀ column ∈ columns, c ∉ column.toList) : c ∉ (row columns).toList := by
  rw [row, String.toList_intercalate]
  induction columns with
  | nil => simp
  | cons column columns ih =>
    rw [List.forall_mem_cons] at h
    cases columns with
    | nil => simpa using h.1
    | cons next columns =>
      rw [List.map_cons, List.map_cons, List.intercalate_cons_cons, List.mem_append,
        List.mem_append, not_or, not_or]
      refine ⟨⟨h.1, ?_⟩, ih h.2⟩
      simpa using hc

/-- The tabs in front of a line. -/
def depth (line : String) : Nat :=
  (line.toList.takeWhile (· == '\t')).length

/-- The columns behind these tabs. -/
def cells (line : String) : List String :=
  columns (String.ofList (line.toList.dropWhile (· == '\t')))

/-- Tabs in front make empty columns. -/
theorem splitOn_replicate_append (n : Nat) (l : List Char) :
    (List.replicate n '\t' ++ l).splitOn '\t' = List.replicate n [] ++ l.splitOn '\t' := by
  induction n with
  | zero => rfl
  | succ n ih =>
    have hfirst := List.splitOn_append_cons_self (a := '\t') [] (List.replicate n '\t' ++ l)
    rw [List.replicate_succ, List.cons_append, List.replicate_succ, List.cons_append, ← ih]
    simpa using hfirst

/-- The columns of a line are its empty ones and its cells. -/
theorem columns_eq (line : String) :
    columns line = List.replicate (depth line) "" ++ cells line := by
  have htabs : line.toList.takeWhile (· == '\t') = List.replicate (depth line) '\t' := by
    rw [List.eq_replicate_iff]
    refine ⟨rfl, ?_⟩
    intro c hc
    exact eq_of_beq (List.mem_takeWhile_imp (p := (· == '\t')) hc)
  have hline : line.toList =
      List.replicate (depth line) '\t' ++ line.toList.dropWhile (· == '\t') := by
    rw [← htabs, List.takeWhile_append_dropWhile]
  rw [columns, split, hline, splitOn_replicate_append, List.map_append, List.map_replicate]
  simp [cells, columns, split]

/-- If the first column behind the tabs is empty, then there is nothing behind them. -/
theorem cells_of_empty {line : String} {rest : List String} (h : cells line = "" :: rest) :
    rest = [] := by
  have hhead := List.head?_dropWhile_not (· == '\t') line.toList
  rw [cells, columns, split, String.toList_ofList] at h
  cases hl : line.toList.dropWhile (· == '\t') with
  | nil =>
    rw [hl] at h
    exact (List.cons.inj h).2.symm
  | cons c l =>
    rw [hl] at h hhead
    have hc : (c == '\t') = false := hhead
    -- The first column starts with a character that is no tab.
    obtain ⟨first, more, hmore⟩ := List.exists_cons_of_ne_nil (List.splitOn_ne_nil '\t' l)
    rw [List.splitOn_cons_eq_if_modifyHead, hc, if_neg (by decide), hmore] at h
    have hempty : String.ofList (c :: first) = "" := (List.cons.inj h).1
    rw [← String.toList_inj, String.toList_ofList] at hempty
    cases hempty

/-! ## Lines -/

/-- A text without tabs and without anything that ends a line. -/
def Plain (text : String) : Prop :=
  ∀ c ∈ text.toList, c ≠ '\t' ∧ c ≠ '\r' ∧ c ≠ '\n'

instance (text : String) : Decidable (Plain text) :=
  List.decidableBAll _ text.toList

/-- Plain columns are found again in their row. -/
theorem columns_row_of_plain {columns : List String} (hne : columns ≠ [])
    (h : ∀ column ∈ columns, Plain column) : Lines.columns (row columns) = columns := by
  apply columns_row hne
  intro column hcolumn hmem
  exact (h column hcolumn _ hmem).1 rfl

/-- Nothing in a line of plain columns ends it. -/
theorem row_of_plain {columns : List String} (h : ∀ column ∈ columns, Plain column) :
    '\n' ∉ (row columns).toList ∧ '\r' ∉ (row columns).toList := by
  constructor
  · apply not_mem_row (by decide)
    intro column hcolumn hmem
    exact (h column hcolumn _ hmem).2.2 rfl
  · apply not_mem_row (by decide)
    intro column hcolumn hmem
    exact (h column hcolumn _ hmem).2.1 rfl

/-- A text in which lines are written one after another. Every line is ended by a newline, which may
have a carriage return in front of it, but the last one may also be ended by the text. A line that
ends in a carriage return itself needs another one, and a line that is empty needs a newline. -/
inductive Written : String → List String → Prop
  | nil : Written "" []
  | last {line : String} (hline : '\n' ∉ line.toList) (hne : line ≠ "") : Written line [line]
  | newline {line text : String} {lines : List String} (hline : '\n' ∉ line.toList)
    (hreturn : line.toList.getLast? ≠ some '\r') (h : Written text lines) :
    Written (line ++ "\n" ++ text) (line :: lines)
  | returned {line text : String} {lines : List String} (hline : '\n' ∉ line.toList)
    (h : Written text lines) : Written (line ++ "\r\n" ++ text) (line :: lines)

/-- Lines without line breaks can be written. -/
theorem exists_written {lines : List String}
    (h : ∀ line ∈ lines, '\n' ∉ line.toList ∧ '\r' ∉ line.toList) : ∃ text, Written text lines := by
  induction lines with
  | nil => exact ⟨"", .nil⟩
  | cons line lines ih =>
    rw [List.forall_mem_cons] at h
    obtain ⟨text, htext⟩ := ih h.2
    refine ⟨line ++ "\n" ++ text, .newline h.1.1 ?_ htext⟩
    intro hlast
    exact h.1.2 (List.mem_of_getLast? hlast)

/-- There is one part at least. -/
theorem split_ne_nil (separator : Char) (text : String) : split separator text ≠ [] := by
  simp [split, List.splitOn_ne_nil]

/-- What stands in front of the first newline is the first line. -/
theorem ofText_append {line : String} (h : '\n' ∉ line.toList) (text : String) :
    ofText (line ++ "\n" ++ text) = dropReturn line :: ofText text := by
  have hparts : split '\n' (line ++ "\n" ++ text) = line :: split '\n' text := by
    have hnewline : (line ++ "\n" ++ text).toList = line.toList ++ '\n' :: text.toList := by
      simp
    rw [split, hnewline, List.splitOn_append_cons_self_of_not_mem h]
    simp [split]
  have hne := split_ne_nil '\n' text
  rw [ofText, hparts, List.dropLast_cons_of_ne_nil hne, List.getLast?_cons_of_ne_nil hne]
  rfl

/-- Without line breaks there is one line. -/
theorem ofText_of_not_mem {text : String} (h : '\n' ∉ text.toList) :
    ofText text = if text = "" then [] else [text] := by
  have hparts : split '\n' text = [text] := by
    rw [split, List.splitOn_eq_singleton h]
    simp
  rw [ofText, hparts]
  simp

/-- Only a return at the end is dropped. -/
theorem dropReturn_of_ne {line : String} (h : line.toList.getLast? ≠ some '\r') :
    dropReturn line = line := by
  rw [dropReturn]
  split
  · next rest hrest =>
    have hlast : line.toList.getLast? = some '\r' := by
      rw [← List.isSuffixOf?_eq_some_iff_append_eq.1 hrest, List.getLast?_concat]
    exact absurd hlast h
  · rfl

/-- One return is dropped. -/
theorem dropReturn_append (line : String) : dropReturn (line ++ "\r") = line := by
  have hsuffix : ['\r'].isSuffixOf? (line ++ "\r").toList = some line.toList := by
    rw [List.isSuffixOf?_eq_some_iff_append_eq, String.toList_append]
    rfl
  rw [dropReturn, hsuffix]
  exact String.ofList_toList

/-- Until it is dropped, a carriage return belongs to what stands in front of the newline. -/
theorem append_return (line text : String) :
    line ++ "\r\n" ++ text = line ++ "\r" ++ "\n" ++ text := by
  rw [← String.toList_inj]
  simp

/-- Lines are found again in what has been written. -/
theorem ofText_of_written {text : String} {lines : List String} (h : Written text lines) :
    ofText text = lines := by
  induction h with
  | nil => rfl
  | last hline hne => rw [ofText_of_not_mem hline, if_neg hne]
  | newline hline hreturn _ ih => rw [ofText_append hline, dropReturn_of_ne hreturn, ih]
  | @returned line text lines hline _ ih =>
    have hpart : '\n' ∉ (line ++ "\r").toList := by
      simpa using hline
    rw [append_return, ofText_append hpart, dropReturn_append, ih]

/-- Every text is made of its lines. -/
theorem written_ofText (text : String) : Written text (ofText text) := by
  by_cases hmem : '\n' ∈ text.toList
  · obtain ⟨front, back, heq, hfront⟩ := List.eq_append_cons_of_mem hmem
    have htext : text = String.ofList front ++ "\n" ++ String.ofList back := by
      rw [← String.toList_inj, heq]
      simp
    have hback := written_ofText (String.ofList back)
    -- A carriage return in front of the newline is taken for a part of the ending, never of the
    -- line.
    by_cases hreturn : front.getLast? = some '\r'
    · obtain ⟨line, rfl⟩ := List.getLast?_eq_some_iff.1 hreturn
      have hline : String.ofList (line ++ ['\r']) = String.ofList line ++ "\r" :=
        String.ofList_append
      rw [htext, ofText_append (by simpa using hfront), hline, dropReturn_append, ← append_return]
      apply Written.returned _ hback
      simp only [List.mem_append, not_or] at hfront
      simpa using hfront.1
    · rw [htext, ofText_append (by simpa using hfront), dropReturn_of_ne (by simpa using hreturn)]
      exact .newline (by simpa using hfront) (by simpa using hreturn) hback
  · rw [ofText_of_not_mem hmem]
    split
    · next hempty =>
      rw [hempty]
      exact .nil
    · next hne => exact .last hmem hne
termination_by text.toList.length
decreasing_by
  rw [heq, String.toList_ofList, List.length_append, List.length_cons]
  omega

/-- The lines of a text are those that are written in it. -/
theorem ofText_eq_iff {text : String} {lines : List String} :
    ofText text = lines ↔ Written text lines := by
  constructor
  · rintro rfl
    exact written_ofText text
  · exact ofText_of_written

end Crosswalk.Lines
