/-
The lines that store a row, as text in a buffer.  A line that has become too
long is ended, and the code before the first value is copied from the buffer;
the end of the text then moves one character less than what is copied, and the
delimiter is written over the last of it.
-/
import Octo.RowFields

namespace Octo

open List

def printDots (dots : ℕ) : List Char := (replicate dots ['.', ' ']).flatten

/-- `tmpl_column_list_combine`, on the printed expressions and the text in the
buffer; `resume` is a place in the text.  A text that is too long for the
buffer ends in an error, and a printed expression is never empty. -/
def tmplColumnListCombine (delim : List Char) : List (List Char) → List Char → Option ℕ → ℕ →
    List Char
  | [], buffer, _, _ => buffer
  | [code], buffer, _, _ => buffer ++ code
  | code :: codes, buffer, none, length =>
    tmplColumnListCombine delim codes (buffer ++ code ++ delim) none length
  | code :: codes, buffer, some resume, length =>
    let text := buffer ++ code
    if text.length - resume > maxMLineLength then
      let copied := text ++ '\n' :: (text.drop resume).take length
      tmplColumnListCombine delim codes (copied.take (text.length + length) ++ delim)
        (some (text.length + 1)) length
    else tmplColumnListCombine delim codes (text ++ delim) (some resume) length

/-- What `tmpl_physical_plan` prints for the row of the counter.  `tmpl_key`
prints `table` and a parenthesis; the first of the two is taken back. -/
def rowReference (table : List Char) (orderBy : Option (List (List Char))) : List Char :=
  match orderBy with
  | some codes => tmplColumnListCombine [','] codes (table ++ ",\"order\",".toList) none 0 ++
    ',' :: table ++ "))".toList
  | none => table ++ ',' :: table ++ "))".toList

/-- The part of `tmpl_physical_plan` that stores a row. -/
def emitRow (dots : ℕ) (table : List Char) (orderBy : Option (List (List Char)))
    (codes : List (List Char)) (buffer : List Char) : List Char :=
  let buffer := buffer ++ " DO\n    ".toList
  let startResume := buffer.length - 4
  let buffer := buffer ++ (printDots dots ++ "SET:1".toList)
  let length := buffer.length - startResume
  let buffer := buffer ++ ("&$INCREMENT(".toList ++ table ++ ")) %ydboctoz=42".toList)
  let buffer := buffer ++ '\n' :: (buffer.drop startResume).take length ++ [' ']
  let startResume := buffer.length - length
  let startTable := buffer.length
  let buffer := buffer ++ rowReference table orderBy
  let buffer := buffer ++ "=$GET(".toList ++ buffer.drop startTable ++ ")_".toList
  tmplColumnListCombine "_\"|\"_".toList codes buffer (some startResume)
    (buffer.length - startResume)

/-- What a line appends to the row: the value of an expression, or the
delimiter. -/
inductive RowPart
  | value (code : List Char)
  | delimiter

namespace RowPart

def text : RowPart → List Char
  | value code => code
  | delimiter => "\"|\"".toList

/-- What an operand, behind its operator, makes of the text before it. -/
def meaning (eval : List Char → Bytes → Bytes) (left : Bytes) : RowPart → Bytes
  | value code => eval code left
  | delimiter => left ++ [columnDelimiter]

/-- The operands of one assignment, each behind its operator. -/
def print (operands : List RowPart) : List Char :=
  operands.flatMap fun operand => '_' :: operand.text

/-- The operands of the assignment that is not split. -/
def ofCodes : List (List Char) → List RowPart
  | [] => []
  | [code] => [value code]
  | code :: codes => value code :: delimiter :: ofCodes codes

theorem print_append (left right : List RowPart) : print
    (left ++ right) = print left ++ print right :=
  flatMap_append

/-- Codes that append their values. -/
theorem foldl_meaning_ofCodes {eval : List Char → Bytes → Bytes} {value : List Char → Bytes}
    {codes : List (List Char)}
    (hvalue : ∀ code ∈ codes, ∀ left, eval code left = left ++ value code)
    (left : Bytes) : (ofCodes codes).foldl (meaning eval) left =
      left ++ [columnDelimiter].intercalate (codes.map value) := by
  fun_induction ofCodes codes generalizing left with
  | case1 => simp
  | case2 code => simp [meaning, hvalue]
  | case3 code codes hne ih =>
    obtain ⟨hcode, hcodes⟩ := forall_mem_cons.mp hvalue
    obtain ⟨next, codes, rfl⟩ := exists_cons_of_ne_nil hne
    rw [foldl_cons, foldl_cons, ih hcodes]
    simp [meaning, hcode]

end RowPart

open RowPart

/-- The text ends with the copied head, without the operator at its end. -/
theorem take_copied {front head text rest : List Char}
    (htext : text = front ++ (head ++ ['_'] ++ rest)) :
    (text ++ '\n' :: (text.drop front.length).take (head.length + 1)).take
      (text.length + (head.length + 1)) = text ++ '\n' :: head := by
  have hcopy : (text.drop front.length).take (head.length + 1) = head ++ ['_'] := by
    rw [htext, drop_left, take_left' (by simp)]
  have hsplit : text ++ '\n' :: (head ++ ['_']) = (text ++ '\n' :: head) ++ ['_'] := by simp
  rw [hcopy, hsplit, take_left' (by simp)]

/-- The head of a line comes back on every line after it, and the operands of
all lines are those of the assignment that is not split. -/
theorem tmplColumnListCombine_lines (head : List Char) {codes : List (List Char)}
    (hcodes : codes ≠ []) (front : List Char) (done : List RowPart) :
    ∃ (first : List RowPart) (others : List (List RowPart)),
    tmplColumnListCombine "_\"|\"_".toList codes (front ++ head ++ print done ++ ['_'])
      (some front.length) (head.length + 1) =
      front ++ head ++ print first ++ others.flatMap (fun line => '\n' :: head ++ print line) ∧
    first ++ others.flatten = done ++ ofCodes codes := by
  induction codes generalizing front done with
  | nil => exact absurd rfl hcodes
  | cons code codes ih =>
    have htext : front ++ head ++ print done ++ ['_'] ++ code =
        front ++ head ++ print (done ++ [.value code]) := by
      simp [print, RowPart.text]
    cases codes with
    | nil =>
      refine ⟨done ++ [.value code], [], ?_, by simp [ofCodes]⟩
      rw [tmplColumnListCombine, htext]
      simp
    | cons next codes =>
      have hdelim : print [.delimiter] ++ ['_'] = "_\"|\"_".toList := rfl
      obtain ⟨text, heq⟩ : ∃ text, text = front ++ head ++ print (done ++ [.value code]) := ⟨_, rfl⟩
      rw [tmplColumnListCombine, htext, ← heq]
      · dsimp only
        split_ifs with hlong
        · obtain ⟨first, others, hrun, hall⟩ := ih (cons_ne_nil _ _) (text ++ ['\n']) [.delimiter]
          refine ⟨done ++ [.value code], first :: others, ?_, by simp [hall, ofCodes]⟩
          obtain ⟨rest, hrest⟩ : ∃ rest, print (done ++ [.value code]) = '_' :: rest := by
            cases done <;> exact ⟨_, rfl⟩
          have hstart : text = front ++ (head ++ ['_'] ++ rest) := by simp [heq, hrest]
          rw [take_copied hstart, ← heq, flatMap_cons]
          simpa [hdelim] using hrun
        · obtain ⟨first, others, hrun, hall⟩ := ih (cons_ne_nil _ _) front
            (done ++ [.value code] ++ [.delimiter])
          refine ⟨first, others, ?_, by simp [hall, ofCodes]⟩
          rw [← hrun, print_append _ [.delimiter], heq, ← hdelim]
          simp
      · simp

structure OutputTable where
  counter : ℕ
  rows : ℕ → Option Bytes

/-- A line that `emitRow` prints. -/
inductive RowLine
  | increment
  | append (blanks : ℕ) (operands : List RowPart)

namespace RowLine

def text (dots : ℕ) (table : List Char) (orderBy : Option (List (List Char))) : RowLine → List Char
  | increment => "    ".toList ++ printDots dots ++ "SET:1&$INCREMENT(".toList ++ table ++
    ")) %ydboctoz=42".toList
  | append blanks operands => replicate blanks ' ' ++ printDots dots ++ "SET:1 ".toList ++
    rowReference table orderBy ++ "=$GET(".toList ++ rowReference table orderBy ++
    ')' :: print operands

/-- What a line does; the row it names is that of the counter. -/
def run (eval : List Char → Bytes → Bytes) (table : OutputTable) : RowLine → OutputTable
  | increment => { table with counter := table.counter + 1 }
  | append _ operands =>
    { table with
      rows := Function.update table.rows table.counter
        (some (operands.foldl (RowPart.meaning eval) ((table.rows table.counter).getD []))) }

/-- Lines that append one after another are one line. -/
theorem foldl_run_append (eval : List Char → Bytes → Bytes) (table : OutputTable)
    (first : List RowPart) (others : List (List RowPart)) :
    (append 4 first :: others.map (append 3)).foldl (run eval) table =
      run eval table (append 4 (first ++ others.flatten)) := by
  induction others generalizing first with
  | nil => simp
  | cons line others ih =>
    simpa [run, foldl_append] using ih (first ++ line)

end RowLine

/-- The code that is copied to the second line starts with the four blanks. -/
theorem take_resume (buffer code rest : List Char) : ((buffer ++ " DO\n    ".toList ++ code ++
    rest).drop ((buffer ++ " DO\n    ".toList).length - 4)).take ((buffer ++ " DO\n    ".toList ++
      code).length - ((buffer ++ " DO\n    ".toList).length - 4)) = "    ".toList ++ code := by
  have htext : buffer ++ " DO\n    ".toList ++ code ++ rest =
      (buffer ++ " DO\n".toList) ++ (("    ".toList ++ code) ++ rest) := by simp
  have hstart : (buffer ++ " DO\n    ".toList).length - 4 = (buffer ++ " DO\n".toList).length := by
    simp
  rw [hstart, htext, drop_left]
  apply take_left'
  simp
  omega

theorem emitRow_lines (dots : ℕ) (table : List Char) (orderBy : Option (List (List Char)))
    {codes : List (List Char)} (hcodes : codes ≠ []) (buffer : List Char) :
    ∃ (first : List RowPart) (others : List (List RowPart)),
      emitRow dots table orderBy codes buffer = buffer ++ " DO".toList ++
      (RowLine.increment :: .append 4 first :: others.map (RowLine.append 3)).flatMap
        (fun line => '\n' :: line.text dots table orderBy) ∧
      first ++ others.flatten = ofCodes codes := by
  obtain ⟨first, others, hrun, hall⟩ := tmplColumnListCombine_lines (replicate 3 ' ' ++
    printDots dots ++ "SET:1 ".toList ++ rowReference table orderBy ++ "=$GET(".toList ++
    rowReference table orderBy ++ [')']) hcodes (buffer ++ " DO\n".toList ++
      RowLine.increment.text dots table orderBy ++ "\n ".toList) []
  refine ⟨first, others, ?_, hall⟩
  refine Eq.trans ?_ (hrun.trans (by simp [RowLine.text, flatMap_map]))
  simp only [emitRow, take_resume, drop_left]
  congr 1
  · simp [RowLine.text, print]
  · simp [RowLine.text]
    omega
  · simp
    omega

/-- However long the printed expressions are, the lines do what one line for
all columns does, whatever each expression makes of the text before it: they
increment the counter once, and if the expressions append their values, the
row gets these joined by the delimiter. -/
theorem emitted_lines_store_row (dots : ℕ) (table : List Char) (orderBy : Option (List (List Char)))
    (first : List Char) (codes : List (List Char)) (buffer : List Char) : ∃ lines : List RowLine,
    emitRow dots table orderBy (first :: codes) buffer = buffer ++ " DO".toList ++
      lines.flatMap (fun line => '\n' :: line.text dots table orderBy) ∧
    ∀ eval output,
      lines.foldl (RowLine.run eval) output =
        [RowLine.increment, .append 4 (ofCodes (first :: codes))].foldl (RowLine.run eval) output ∧
      (lines.foldl (RowLine.run eval) output).counter = output.counter + 1 ∧
      ∀ value : List Char → Bytes,
        (∀ code ∈ first :: codes, ∀ left, eval code left = left ++ value code) →
        (lines.foldl (RowLine.run eval) output).rows =
          Function.update output.rows (output.counter + 1)
            (some ((output.rows (output.counter + 1)).getD [] ++
              [columnDelimiter].intercalate ((first :: codes).map value))) := by
  obtain ⟨operands, others, htext, hall⟩ :=
    emitRow_lines dots table orderBy (cons_ne_nil first codes) buffer
  refine ⟨_, htext, fun eval output => ?_⟩
  rw [foldl_cons, RowLine.foldl_run_append, hall]
  refine ⟨rfl, rfl, fun value hvalue => ?_⟩
  simp [RowLine.run, foldl_meaning_ofCodes hvalue]

end Octo
