/-
The row of a result.  The emitted code joins the values of the select list with
the delimiter, over several lines if one would be too long; a derived table is
read by pieces, and the server splits the row at the delimiter again.
-/
import Mathlib.Data.Int.ModEq

namespace Octo

open List

abbrev Bytes := List UInt8

def columnDelimiter : UInt8 := 124

def maxMLineLength : ℕ := 4096

/-- A column of a select list: the length of its code, and what the code, read
from left to right, makes of the text before it. -/
structure EmittedColumn where
  codeLength : ℕ
  append : Bytes → Bytes

namespace EmittedColumn

/-- The value of the code by itself. -/
def value (column : EmittedColumn) : Bytes := column.append []

/-- The code appends its value, as it does if no operator other than
concatenation is outside of parentheses. -/
def Joins (column : EmittedColumn) : Prop :=
  ∀ left, column.append left = left ++ column.value

end EmittedColumn

/-- `tmpl_column_list_combine` with the delimiter, as what each emitted line
does to the row.  A line that is too long is ended; the next one starts with
the code that was emitted before the first value, whose last character makes
room for the first of the delimiter. -/
def columnListCombine (resumeLength : ℕ) : ℕ → List EmittedColumn → List (List (Bytes → Bytes))
  | _, [] => []
  | _, [column] => [[column.append]]
  | lineLength, column :: columns =>
    if lineLength + column.codeLength > maxMLineLength then
      [column.append] :: (columnListCombine resumeLength (resumeLength - 1 + 5) columns).modifyHead
        ((· ++ [columnDelimiter]) :: ·)
    else
      (columnListCombine resumeLength (lineLength + column.codeLength + 5)
        columns).modifyHead (column.append :: (· ++ [columnDelimiter]) :: ·)

def runSteps (row : Bytes) (steps : List (Bytes → Bytes)) : Bytes :=
  steps.foldl (fun row step => step row) row

/-- The lines `SET row=$GET(row)_...`, one after another. -/
def runLines (row : Option Bytes) (lines : List (List (Bytes → Bytes))) : Option Bytes :=
  lines.foldl (fun row line => some (runSteps (row.getD []) line)) row

/-- The row that the emitted code stores at a node that was killed before. -/
def storedRow (resumeLength : ℕ) (columns : List EmittedColumn) : Bytes :=
  (runLines none (columnListCombine resumeLength resumeLength columns)).getD []

/-- `$PIECE(row,"|",number)`, the value of an `LP_DERIVED_COLUMN`. -/
def derivedColumn (row : Bytes) (number : ℕ) : Bytes :=
  (row.splitOn columnDelimiter).getD (number - 1) []

/-- The loop of `handle_query_response` over the row, which ends in a NUL. -/
def splitRow (field : Bytes) : Bytes → List Bytes
  | [] => [field]
  | c :: row =>
    if c = 0 then [field]
    else if c = columnDelimiter then field :: splitRow [] row
    else splitRow (field ++ [c]) row

/-- The fields that `make_data_row` writes; their number is a `short`. -/
def makeDataRow (parms : List Bytes) : List Bytes :=
  parms.take (Int.bmod parms.length 65536).toNat

/-- The DataRow for a stored row; `ydb_get_s` fails if the row does not fit
into the buffer, and its NUL is written behind a buffer that it fills. -/
def dataRow (maxStrConst : ℕ) (row : Bytes) : Option (List Bytes) :=
  if row.length < maxStrConst then some (makeDataRow (splitRow [] row))
  else none

section Lines

theorem getD_runLines (row : Option Bytes) (lines : List (List (Bytes → Bytes))) :
    (runLines row lines).getD [] = runSteps (row.getD []) lines.flatten := by
  induction lines generalizing row with
  | nil => rfl
  | cons line lines ih =>
    have hstep : runLines row (line :: lines) =
        runLines (some (runSteps (row.getD []) line)) lines := rfl
    rw [hstep, ih, flatten_cons]
    exact foldl_append.symm

/-- What one line for all columns does. -/
def rowSteps : List EmittedColumn → List (Bytes → Bytes)
  | [] => []
  | [column] => [column.append]
  | column :: columns => column.append :: (· ++ [columnDelimiter]) :: rowSteps columns

theorem columnListCombine_ne_nil (resumeLength lineLength : ℕ)
    (column : EmittedColumn) (columns : List EmittedColumn) :
    columnListCombine resumeLength lineLength (column :: columns) ≠ [] := by
  induction columns generalizing lineLength column with
  | nil => exact cons_ne_nil _ _
  | cons next columns ih =>
    rw [columnListCombine]
    split_ifs
    · exact cons_ne_nil _ _
    · intro hnil
      exact ih _ next (modifyHead_eq_nil_iff.mp hnil)
    · exact cons_ne_nil _ _

/-- However the code is cut into lines, they do what one line does. -/
theorem flatten_columnListCombine (resumeLength lineLength : ℕ) (columns : List EmittedColumn) :
    (columnListCombine resumeLength lineLength columns).flatten = rowSteps columns := by
  induction columns generalizing lineLength with
  | nil => rfl
  | cons column columns ih =>
    cases columns with
    | nil => rfl
    | cons next columns =>
      have hflatten : ∀ n front, ((columnListCombine resumeLength n (next :: columns)).modifyHead
          (front ++ ·)).flatten = front ++ rowSteps (next :: columns) := by
        intro n front
        obtain ⟨line, lines, hlines⟩ :=
          exists_cons_of_ne_nil (columnListCombine_ne_nil resumeLength n next columns)
        rw [← ih n, hlines, modifyHead_cons, flatten_cons, flatten_cons, append_assoc]
      rw [columnListCombine]
      · split_ifs
        · exact congrArg (column.append :: ·) (hflatten _ [(· ++ [columnDelimiter])])
        · exact hflatten _ [column.append, (· ++ [columnDelimiter])]
      · exact fun hnil => absurd hnil (cons_ne_nil _ _)

/-- The row is the joined values. -/
theorem storedRow_eq (resumeLength : ℕ) {columns : List EmittedColumn}
    (hjoins : ∀ column ∈ columns, column.Joins) : storedRow resumeLength columns =
      [columnDelimiter].intercalate (columns.map EmittedColumn.value) := by
  have hsteps : ∀ row, runSteps row (rowSteps columns) =
      row ++ [columnDelimiter].intercalate (columns.map EmittedColumn.value) := by
    induction columns with
    | nil => simp [rowSteps, runSteps]
    | cons column columns ih =>
      obtain ⟨hcolumn, hrest⟩ := forall_mem_cons.mp hjoins
      intro row
      cases columns with
      | nil => simpa [rowSteps, runSteps] using hcolumn row
      | cons next columns =>
        have hline : runSteps row (rowSteps (column :: next :: columns)) =
            runSteps (column.append row ++ [columnDelimiter]) (rowSteps (next :: columns)) := rfl
        rw [hline, ih hrest, hcolumn row]
        simp
  rw [storedRow, getD_runLines, flatten_columnListCombine, hsteps]
  rfl

end Lines

section Fields

/-- A value that the row can carry. -/
def IsPlain (value : Bytes) : Prop :=
  columnDelimiter ∉ value ∧ (0 : UInt8) ∉ value

/-- The loop makes fields without delimiter and NUL, whatever the row is. -/
theorem isPlain_of_mem_splitRow {field row : Bytes} (hfield : IsPlain field) :
    ∀ other ∈ splitRow field row, IsPlain other := by
  induction row generalizing field with
  | nil => exact forall_mem_singleton.mpr hfield
  | cons c row ih =>
    rw [splitRow]
    split_ifs with hnul hdelimiter
    · exact forall_mem_singleton.mpr hfield
    · refine forall_mem_cons.mpr ⟨hfield, ih ?_⟩
      exact ⟨not_mem_nil, not_mem_nil⟩
    · apply ih
      constructor
      · simp [hfield.1, Ne.symm hdelimiter]
      · simp [hfield.2, Ne.symm hnul]

theorem splitRow_eq_splitOn {row : Bytes} (hnul : (0 : UInt8) ∉ row) (field : Bytes) :
    splitRow field row = (row.splitOn columnDelimiter).modifyHead (field ++ ·) := by
  induction row generalizing field with
  | nil => simp [splitRow]
  | cons c row ih =>
    rw [mem_cons, not_or] at hnul
    rw [splitRow, if_neg (Ne.symm hnul.1), splitOn_eq_splitOnP,
      splitOnP_cons_eq_if_modifyHead, ← splitOn_eq_splitOnP]
    by_cases hdelimiter : c = columnDelimiter
    · have hsame : (row.splitOn columnDelimiter).modifyHead ([] ++ ·) =
          row.splitOn columnDelimiter := by
        cases row.splitOn columnDelimiter <;> rfl
      simp only [hdelimiter, ih hnul.2, hsame]
      simp
    · simp [hdelimiter, ih hnul.2, modifyHead_modifyHead, Function.comp_def]

theorem not_mem_intercalate {values : List Bytes}
    (hvalues : ∀ value ∈ values, (0 : UInt8) ∉ value) :
    (0 : UInt8) ∉ [columnDelimiter].intercalate values := by
  induction values with
  | nil => exact not_mem_nil
  | cons value values ih =>
    obtain ⟨hvalue, hrest⟩ := forall_mem_cons.mp hvalues
    cases values with
    | nil => simpa using hvalue
    | cons next values =>
      have htail := ih hrest
      simp only [intercalate_cons_cons, mem_append, not_or]
      exact ⟨⟨hvalue, by decide⟩, htail⟩

theorem length_makeDataRow_lt (parms : List Bytes) : (makeDataRow parms).length < 2 ^ 15 := by
  have hbound := @Int.bmod_lt parms.length 65536 (by decide)
  have htake := length_take_le (Int.bmod parms.length 65536).toNat parms
  unfold makeDataRow
  omega

theorem makeDataRow_of_length_lt {parms : List Bytes}
    (hlength : parms.length < 2 ^ 15) : makeDataRow parms = parms := by
  have hsame : Int.bmod parms.length 65536 = parms.length := by
    apply Int.bmod_eq_of_le <;> omega
  rw [makeDataRow, hsame, Int.toNat_natCast, take_length]

end Fields

end Octo
