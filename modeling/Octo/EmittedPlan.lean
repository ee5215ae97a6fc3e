/-
The M code that `tmpl_physical_plan` emits, from the point where a row of the
plan is at hand.  A cursor has, for each output key, a table of rows with a
counter at its root, and one index by column values that all plans share.
-/
import Mathlib.Data.Multiset.Filter
import Octo.GlobalTree
import Octo.PhysicalPlan

namespace Octo

open GlobalTree

/-- Subscripts in collating order.  `ofNat` gives those of row ids, and
`lastPiece` the text between the last comma of a reference and the next
parenthesis, which for a reference that ends in a row id is the id. -/
class Subscripts (σ : Type*) extends LinearOrder σ where
  ofNat : ℕ → σ
  ofNat_injective : Function.Injective ofNat
  lastPiece : List σ → Option σ
  lastPiece_ofNat : ∀ path id, lastPiece (path ++ [ofNat id]) = some (ofNat id)

/-- Numeric column values look like row ids. -/
instance : Subscripts ℕ where
  ofNat := id
  ofNat_injective := Function.injective_id
  lastPiece := List.getLast?
  lastPiece_ofNat := by simp

/-- A counter, or the columns of a row; the emitted code joins these with a
bar. -/
inductive Value (σ : Type*)
  | number (n : ℕ)
  | row (columns : List σ)
deriving DecidableEq, Repr

namespace Value

variable {σ : Type*}

def asNumber : Option (Value σ) → ℕ
  | some (number n) => n
  | _ => 0

/-- What `_` makes of `$GET` of a node and the columns of a row. -/
def append : Option (Value σ) → List σ → Value σ
  | some (row columns), more => row (columns ++ more)
  | _, columns => row columns

end Value

variable {σ : Type*} [Subscripts σ]

def increment (g : Global σ (Value σ)) (path : List σ) : Global σ (Value σ) :=
  g.set path (.number (Value.asNumber (g.get path) + 1))

/-- The part of a cursor that set operations use: the tables by the unique id
of their output key, and the index by column values. -/
structure Cursor (σ : Type*) [Subscripts σ] where
  output : ℕ → Global σ (Value σ)
  index : Global σ (Value σ)

namespace Cursor

def empty : Cursor σ := ⟨fun _ => .empty, .empty⟩

def setOutput (cursor : Cursor σ) (uniqueId : ℕ) (table : Global σ (Value σ)) : Cursor σ :=
  { cursor with output := Function.update cursor.output uniqueId table }

@[simp] theorem setOutput_output (cursor : Cursor σ) (uniqueId : ℕ) (table : Global σ (Value σ)) :
    (cursor.setOutput uniqueId table).output uniqueId = table :=
  Function.update_self _ _ _

@[simp] theorem setOutput_index (cursor : Cursor σ) (uniqueId : ℕ) (table : Global σ (Value σ)) :
    (cursor.setOutput uniqueId table).index = cursor.index := rfl

def rowCount (cursor : Cursor σ) (uniqueId : ℕ) : ℕ :=
  Value.asNumber ((cursor.output uniqueId).get [])

end Cursor

/-- The condition on a row that is left once the WHERE holds. -/
def rowPasses (plan : PhysicalPlan) (columns : List σ) (cursor : Cursor σ) :
    Bool :=
  !(plan.distinctValues && plan.setOperation != .except && plan.setOperation != .intersect) ||
    cursor.index.data columns == 0

/-- Put a row into the table, at a new id, and into the index. -/
def projectRow (plan : PhysicalPlan) (columns : List σ) (cursor : Cursor σ) : Cursor σ :=
  let table := increment (cursor.output plan.outputKey.uniqueId) []
  let id := Subscripts.ofNat (Value.asNumber (table.get []))
  let path := if plan.stashColumnsInKeys then columns else [id]
  let text := if plan.stashColumnsInKeys then [] else columns
  { output := Function.update cursor.output plan.outputKey.uniqueId
      (table.set path (Value.append (table.get path) text))
    index :=
      if plan.maintainColumnwiseIndex then
        increment (cursor.index.set (columns ++ [id]) (.row [])) columns
      else cursor.index }

/-- Take one copy of a row out of the table and the index. -/
def exceptRow (plan : PhysicalPlan) (columns : List σ) (cursor : Cursor σ) : Cursor σ :=
  match cursor.index.order columns none with
  | none => cursor
  | some v =>
    { output := Function.update cursor.output plan.outputKey.uniqueId
        ((cursor.output plan.outputKey.uniqueId).kill [v])
      index := cursor.index.kill (columns ++ [v]) }

/-- Take a row out of the index, so that it is not deleted below.  The KILL of
a node that never exists is left out. -/
def intersectRow (plan : PhysicalPlan) (columns : List σ) (cursor : Cursor σ) : Cursor σ :=
  { output := Function.update cursor.output plan.outputKey.uniqueId
      (increment (cursor.output plan.outputKey.uniqueId) [])
    index :=
      if plan.maintainColumnwiseIndex then cursor.index.kill columns
      else cursor.index }

def outputRow (plan : PhysicalPlan) (columns : List σ) (cursor : Cursor σ) : Cursor σ :=
  match plan.setOperation with
  | .except => exceptRow plan columns cursor
  | .intersect => intersectRow plan columns cursor
  | .notSet | .union => projectRow plan columns cursor

def rowBody (plan : PhysicalPlan) (cursor : Cursor σ) (columns : List σ) : Cursor σ :=
  if rowPasses plan columns cursor then outputRow plan columns cursor
  else cursor

/-- A plan without a set operation starts with an empty table. -/
def startPlan (plan : PhysicalPlan) (cursor : Cursor σ) : Cursor σ :=
  if plan.setOperation = .notSet then
    cursor.setOutput plan.outputKey.uniqueId ((cursor.output plan.outputKey.uniqueId).kill [])
  else cursor

/-- Delete the rows that an INTERSECT has left in the index, by the last
subscript of each node that is met going through it two nodes at a time. -/
def deleteRemaining (plan : PhysicalPlan) (cursor : Cursor σ) : Cursor σ :=
  (cursor.index.walkTwo cursor.index.nodes.length []).foldl (fun cursor path =>
      match Subscripts.lastPiece path with
      | none => cursor
      | some v => cursor.setOutput plan.outputKey.uniqueId
          ((cursor.output plan.outputKey.uniqueId).kill [v])) cursor

/-- The code of a plan, without the loops behind the rows that ORDER BY adds. -/
def runPlan (plan : PhysicalPlan) (rows : List (List σ)) (cursor : Cursor σ) : Cursor σ :=
  let cursor := rows.foldl (rowBody plan) (startPlan plan cursor)
  if plan.setOperation = .intersect then deleteRemaining plan cursor
  else cursor

def tableRow : List σ × Value σ → Option (List σ)
  | ([_], .row columns) => some columns
  | _ => none

def Cursor.rows (cursor : Cursor σ) (uniqueId : ℕ) : Multiset (List σ) :=
  ((cursor.output uniqueId).nodes.filterMap tableRow : List (List σ))

end Octo
