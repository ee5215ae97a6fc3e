/-
The code that `tmpl_physical_plan` emits for the arms of a SELECT.  Rows of an
ordered SELECT are first put below the node "order", and from there moved to the
ids from 1 on when the loops of the arm are done.
-/
import Mathlib.Data.Finset.Sort
import Mathlib.Data.Sum.Order
import Octo.EmittedPlan
import Octo.NestedLoops
import Octo.OrderLoop
import Mathlib.Data.Char

namespace Octo

open GlobalTree NestedLoops

/-- Subscripts with the empty one, which comes before all others, and the name
"order".  Row ids come in numeric order. -/
class NullSubscripts (σ : Type*) extends Subscripts σ where
  null : σ
  null_le : ∀ subscript, null ≤ subscript
  null_lt_ofNat : ∀ id, null < ofNat id
  ofNat_lt : ∀ {id next}, id < next → ofNat id < ofNat next
  orderName : σ
  orderName_ne_ofNat : ∀ id, orderName ≠ ofNat id

/-- The subscripts of M: the empty one, then numbers, then texts. -/
abbrev MSubscript := WithBot (ℕ ⊕ₗ List Char)

def numberSubscript (n : ℕ) : MSubscript :=
  WithBot.some (toLex (Sum.inl n))

def textSubscript (text : List Char) : MSubscript :=
  WithBot.some (toLex (Sum.inr text))

theorem numberSubscript_lt {n m : ℕ} (hlt : n < m) : numberSubscript n < numberSubscript m :=
  WithBot.coe_lt_coe.mpr (Sum.Lex.inl_lt_inl_iff.mpr hlt)

instance : NullSubscripts MSubscript where
  ofNat := numberSubscript
  ofNat_injective := by
    intro n m heq
    rcases lt_trichotomy n m with hlt | rfl | hlt
    · exact absurd heq (numberSubscript_lt hlt).ne
    · rfl
    · exact absurd heq (numberSubscript_lt hlt).ne'
  lastPiece := List.getLast?
  lastPiece_ofNat := by simp
  null := ⊥
  null_le := fun _ => bot_le
  null_lt_ofNat := fun _ => WithBot.bot_lt_coe _
  ofNat_lt := numberSubscript_lt
  orderName := textSubscript ['o', 'r', 'd', 'e', 'r']
  orderName_ne_ofNat := by
    intro id heq
    exact absurd (WithBot.coe_injective heq) (by simp)

open Subscripts NullSubscripts

/-- What a cursor holds beside the table of a SELECT: the index by column
values, the tracker of tuples of keys, and the outputs of other plans. -/
structure Others (σ X : Type*) [Subscripts σ] where
  index : Global σ (Value σ)
  dupl : Global σ (Value σ)
  rest : X

/-- `table` is the node of the output key. -/
structure SelectState (σ X : Type*) [Subscripts σ] where
  table : Global σ (Value σ)
  others : Others σ X

/-- What the emitted code of an arm has at hand for the values of its keys.
Expressions read the keys and the outputs of other plans, never the table that
the SELECT writes to.  `tracked` is the node of the tracker: the keys, without
those of cross references, each behind its unique id. -/
structure Arm (σ X : Type*) [Subscripts σ] where
  levels : List (Level σ)
  deferred : List σ → Others σ X → Others σ X
  whereHolds : List σ → Others σ X → Bool
  columns : List σ → Others σ X → List σ
  orderValue : List σ → Others σ X → σ
  tracked : List σ → List σ

/-- What all arms of a SELECT share. -/
structure SelectOptions where
  limit : Option ℕ
  ordered : Bool
  distinctValues : Bool
  maintainColumnwiseIndex : Bool
  emitDuplicationCheck : Bool
deriving DecidableEq, Repr

variable {σ X : Type*} [NullSubscripts σ]

section Emitted

variable (options : SelectOptions) (arm : Arm σ X)

def passes (keys : List σ) (others : Others σ X) : Bool :=
  arm.whereHolds keys others && (!options.distinctValues ||
      others.index.data (arm.columns keys others) == 0) &&
    (!options.emitDuplicationCheck || others.dupl.data (arm.tracked keys) == 0)

/-- Note down a row in the tracker and in the index. -/
def noteRow (keys : List σ) (id : σ) (others : Others σ X) : Others σ X where
  dupl :=
    if options.emitDuplicationCheck then
      others.dupl.set (arm.tracked keys) (.number 1)
    else others.dupl
  index :=
    if options.maintainColumnwiseIndex then
      increment (others.index.set (arm.columns keys others ++ [id]) (.row []))
        (arm.columns keys others)
    else others.index
  rest := others.rest

def outputPath (value id : σ) : List σ :=
  if options.ordered then [orderName, value, id] else [id]

def selectRow (keys : List σ) (state : SelectState σ X) : SelectState σ X :=
  let others := arm.deferred keys state.others
  if passes options arm keys others then
    let table := increment state.table []
    let id := ofNat (Value.asNumber (table.get []))
    let path := outputPath options (arm.orderValue keys others) id
    { table := table.set path (Value.append (table.get path) (arm.columns keys others))
      others := noteRow options arm keys id others }
  else { state with others := others }

/-- The test for LIMIT that loops make. -/
def atLimit (table : Global σ (Value σ)) : Bool :=
  options.limit.any fun limit => !decide (limit > Value.asNumber (table.get []))

end Emitted

/-- The inner loop of the code that makes the order of the rows uniform, over
the rows below one value.  A row that is not there is an error. -/
def copyRows (i1 : σ) : ℕ → σ → Global σ (Value σ) × ℕ → Option (Global σ (Value σ) × ℕ)
  | 0, _, _ => none
  | fuel + 1, i3, (table, i0) =>
    match table.order [orderName, i1] (some i3) with
    | none => some (table, i0)
    | some i3 => do
      let value ← table.get [orderName, i1, i3]
      copyRows i1 fuel i3 (table.set [ofNat i0] value, i0 + 1)

/-- The outer loop, over the values.  `$ORDER` gives the empty subscript after
the last value, and the loop ends behind the rows that stand below it. -/
def copyValues : ℕ → σ → Global σ (Value σ) × ℕ → Option (Global σ (Value σ) × ℕ)
  | 0, _, _ => none
  | fuel + 1, i1, (table, i0) =>
    let i1 := (table.order [orderName] (some i1)).getD null
    if table.data [orderName, i1] = 0 then some (table, i0)
    else do
      let (table, i0) ← copyRows i1 (table.nodes.length + 1) null (table, i0)
      if i1 = null then some (table, i0) else copyValues fuel i1 (table, i0)

/-- Move the rows from the node "order" to the ids from 1 on. -/
def orderRows (table : Global σ (Value σ)) : Option (Global σ (Value σ)) := do
  let (table, _) ← copyValues (table.nodes.length + 1) null (table, 1)
  some (table.kill [orderName])

def runArm (options : SelectOptions) (state : SelectState σ X)
    (arm : Arm σ X) : Option (SelectState σ X) :=
  let state := nest (fun state => atLimit options state.table)
    (selectRow options arm) arm.levels [] state
  if options.ordered then
    (orderRows state.table).map fun table => { state with table := table }
  else some state

/-- The arms of a SELECT.  The first of them starts with a KILL. -/
def runSelect (options : SelectOptions) (arms : List (Arm σ X))
    (state : SelectState σ X) : Option (SelectState σ X) :=
  arms.foldlM (runArm options) { state with table := state.table.kill [] }

/-- A row that passed, with its keys in the tracker and the value of its
ORDER BY column. -/
structure Picked (σ : Type*) where
  tracked : List σ
  value : σ
  columns : List σ
deriving DecidableEq, Repr

/-- The rows that passed so far, without the table. -/
structure Trace (σ X : Type*) [Subscripts σ] where
  others : Others σ X
  picked : List (Picked σ)

section Traces

variable (options : SelectOptions)

def pickRow (arm : Arm σ X) (keys : List σ) (trace : Trace σ X) : Trace σ X :=
  let others := arm.deferred keys trace.others
  if passes options arm keys others then
    { others := noteRow options arm keys (ofNat (trace.picked.length + 1)) others
      picked := trace.picked ++ [{
        tracked := arm.tracked keys
        value := arm.orderValue keys others
        columns := arm.columns keys others }] }
  else { trace with others := others }

def Trace.full (trace : Trace σ X) : Bool :=
  options.limit.any (decide <| · ≤ trace.picked.length)

def traceArm (trace : Trace σ X) (arm : Arm σ X) : Trace σ X :=
  nest (Trace.full options) (pickRow options arm) arm.levels [] trace

def armRows : List (Arm σ X) → Trace σ X → List (List (Picked σ))
  | [], _ => []
  | arm :: rest, trace =>
    (traceArm options trace arm).picked.drop trace.picked.length ::
      armRows rest (traceArm options trace arm)

/-- The rows of a SELECT in the order in which they are found. -/
def selected (arms : List (Arm σ X)) (others : Others σ X) : List (Picked σ) :=
  (armRows options arms ⟨others, []⟩).flatten

end Traces

/-- The values of the ORDER BY column in the order in which they are copied. -/
def copiedValues (picked : List (Picked σ)) : List σ :=
  (((picked.map Picked.value).filter (· ≠ null)).toFinset.sort (· ≤ ·)) ++
    if null ∈ picked.map Picked.value then [null] else []

/-- The rows in the order in which they are copied. -/
def copied (picked : List (Picked σ)) : List (Picked σ) :=
  (copiedValues picked).flatMap fun value =>
    picked.filter fun row => row.value = value

/-- Rows that are written over the first ones of a table. -/
def overlay {α : Type*} (new old : List α) : List α :=
  new ++ old.drop new.length

/-- What an ordered SELECT makes of the rows of its arms. -/
def orderedRows (blocks : List (List (Picked σ))) : List (Picked σ) :=
  blocks.foldl (fun listed block => overlay (copied block) listed) []

end Octo
