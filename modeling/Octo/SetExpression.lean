/-
Set operations over SELECTs, and the linear list of steps the planner makes of
them.  A step carries one set operation and one distinct flag, both recorded on
the first step of an operand, and all steps work on one accumulated output.
-/
import Octo.PhysicalPlan
import Octo.RowBag

namespace Octo

open RowBag List

/-- `select distinct arms` is a SELECT, with `arms` more plans than one if the
optimiser has split it at its ORs. -/
inductive SetExpr
  | select (distinct : Bool) (arms : Nat)
  | setOperation (option : SetOption) (left right : SetExpr)
deriving DecidableEq, Repr

/-- The rows of each SELECT, by the path to it and the number of its plan. -/
def LeafRows (α : Type*) := List Bool → Nat → α

namespace LeafRows

variable {α : Type*}

def left (rows : LeafRows α) : LeafRows α := fun path => rows (false :: path)

def right (rows : LeafRows α) : LeafRows α := fun path => rows (true :: path)

def join (l r : LeafRows α) : LeafRows α
  | [] => l []
  | false :: path => l path
  | true :: path => r path

def map {β : Type*} (f : α → β) (rows : LeafRows α) : LeafRows β :=
  fun path arm => f (rows path arm)

@[simp] theorem left_join (l r : LeafRows α) : (join l r).left = l := rfl

@[simp] theorem right_join (l r : LeafRows α) : (join l r).right = r := rfl

end LeafRows

section Semantics

variable {α : Type*} [Bag α]

/-- What SQL assigns to a set operation. -/
def SetOption.meaning : SetOption → α → α → α
  | .union, a, b => Bag.distinct (Bag.add a b)
  | .unionAll, a, b => Bag.add a b
  | .except, a, b => Bag.sub (Bag.distinct a) b
  | .exceptAll, a, b => Bag.sub a b
  | .intersect, a, b => Bag.distinct (Bag.inter a b)
  | .intersectAll, a, b => Bag.inter a b

/-- The operation a plan records, performed on the accumulated output. -/
def PPSetOperation.apply : PPSetOperation → Bool → α → α → α
  | .notSet, distinct, _, rows => capIf distinct rows
  | .union, distinct, acc, rows => capIf distinct (Bag.add acc rows)
  | .except, distinct, acc, rows => Bag.sub (capIf distinct acc) rows
  | .intersect, distinct, acc, rows => capIf distinct (Bag.inter acc rows)

theorem SetOption.meaning_eq_apply (option : SetOption) (a b : α) :
    option.meaning a b = option.setOperation.apply option.isDistinct a b := by
  cases option <;> rfl

/-- The rows of all the plans of one SELECT. -/
def armsTotal (rows : Nat → α) : Nat → α
  | 0 => rows 0
  | arms + 1 => Bag.add (armsTotal rows arms) (rows (arms + 1))

namespace SetExpr

/-- What SQL assigns to the expression. -/
def meaning : SetExpr → LeafRows α → α
  | select distinct arms, rows => capIf distinct (armsTotal (rows []) arms)
  | setOperation option left right, rows =>
    option.meaning (left.meaning rows.left) (right.meaning rows.right)

/-- The steps of the plan list.  `operation` and `force` are what an enclosing
set operation records on the first of them. -/
def steps : SetExpr → PPSetOperation → Bool → List (PPSetOperation × Bool)
  | select distinct arms, operation, force =>
    (operation, distinct || force) :: List.replicate arms (.union, distinct)
  | setOperation option left right, operation, force =>
    left.steps operation (force || option.isDistinct) ++
      right.steps option.setOperation option.isDistinct

/-- The rows of the plans, in the order of the list. -/
def armRows : SetExpr → LeafRows α → List α
  | select _ arms, rows => (List.range (arms + 1)).map (rows [])
  | setOperation _ left right, rows =>
    left.armRows rows.left ++ right.armRows rows.right

/-- The arms of a SELECT after the first are added to the output. -/
def runArms (distinct : Bool) (rows : Nat → α) : Nat → α → α
  | 0, acc => acc
  | arms + 1, acc =>
    PPSetOperation.union.apply distinct (runArms distinct rows arms acc) (rows (arms + 1))

def run : SetExpr → PPSetOperation → Bool → LeafRows α → α → α
  | select distinct arms, operation, force, rows, acc =>
    runArms distinct (rows []) arms (operation.apply (distinct || force) acc (rows [] 0))
  | setOperation option left right, operation, force, rows, acc =>
    right.run option.setOperation option.isDistinct rows.right
      (left.run operation (force || option.isDistinct) rows.left acc)

variable (option : SetOption) (left right : SetExpr) (l r : LeafRows α)

@[simp] theorem meaning_join : (setOperation option left right).meaning (l.join r) =
    option.meaning (left.meaning l) (right.meaning r) := rfl

@[simp] theorem run_join (operation : PPSetOperation) (force : Bool) (acc : α) :
    (setOperation option left right).run operation force (l.join r) acc =
      right.run option.setOperation option.isDistinct r
        (left.run operation (force || option.isDistinct) l acc) := rfl

end SetExpr

/-- Execute steps in list order on one accumulated output. -/
def execute (steps : List (PPSetOperation × Bool)) (rows : List α) (acc : α) :
    α :=
  (steps.zip rows).foldl (fun acc (step, rows) => step.1.apply step.2 acc rows) acc

theorem execute_append {first second : List (PPSetOperation × Bool)}
    {rows more : List α} (hlength : first.length = rows.length) (acc : α) :
    execute (first ++ second) (rows ++ more) acc =
      execute second more (execute first rows acc) := by
  rw [execute, zip_append hlength, foldl_append]
  rfl

namespace SetExpr

variable (expr : SetExpr) (operation : PPSetOperation) (force : Bool) (rows : LeafRows α)

omit [Bag α] in
theorem steps_length : (expr.steps operation force).length = (expr.armRows rows).length := by
  induction expr generalizing operation force rows with
  | select distinct arms => simp [steps, armRows]
  | setOperation option left right ihLeft ihRight =>
    simp [steps, armRows, ihLeft _ _ rows.left, ihRight _ _ rows.right]

theorem execute_arms (distinct : Bool) (rows : Nat → α) (arms : Nat) (acc : α) :
    execute (List.replicate arms (.union, distinct))
    ((List.range arms).map fun arm => rows (arm + 1)) acc = runArms distinct rows arms acc := by
  induction arms with
  | zero => rfl
  | succ arms ih =>
    rw [replicate_succ', range_succ, map_append, execute_append (by simp), ih]
    rfl

/-- The list of steps runs as the expression does. -/
theorem execute_steps (acc : α) : execute (expr.steps operation force) (expr.armRows rows) acc =
    expr.run operation force rows acc := by
  induction expr generalizing operation force rows acc with
  | select distinct arms =>
    rw [run, ← execute_arms]
    simp only [steps, armRows, range_succ_eq_map, map_cons,
      map_map, execute, zip_cons_cons, foldl_cons]
    rfl
  | setOperation option left right ihLeft ihRight =>
    rw [steps, armRows, execute_append (steps_length left _ _ rows.left), ihLeft, ihRight, run]

end SetExpr

section Map

variable {β : Type*} [Bag β] {f : α → β} (hf : IsBagHom f)
include hf

theorem map_apply (operation : PPSetOperation) (distinct : Bool) (acc rows : α) :
    f (operation.apply distinct acc rows) = operation.apply distinct (f acc) (f rows) := by
  cases operation <;>
    simp [PPSetOperation.apply, hf.map_capIf, hf.map_add, hf.map_sub, hf.map_inter]

variable (expr : SetExpr)

theorem SetExpr.map_run (operation : PPSetOperation) (force : Bool) (rows : LeafRows α) (acc : α) :
    f (expr.run operation force rows acc) = expr.run operation force (rows.map f) (f acc) := by
  induction expr generalizing operation force rows acc with
  | select distinct arms =>
    simp only [run]
    induction arms with
    | zero => exact map_apply hf _ _ _ _
    | succ arms ih => simp [runArms, map_apply hf, ih, LeafRows.map]
  | setOperation option left right ihLeft ihRight =>
    simp only [run, ihRight, ihLeft]
    rfl

theorem SetExpr.map_meaning (rows : LeafRows α) :
    f (expr.meaning rows) = expr.meaning (rows.map f) := by
  induction expr generalizing rows with
  | select distinct arms =>
    simp only [meaning, hf.map_capIf]
    congr 1
    induction arms with
    | zero => rfl
    | succ arms ih => simp [armsTotal, hf.map_add, ih, LeafRows.map]
  | setOperation option left right ihLeft ihRight =>
    simp only [meaning, SetOption.meaning_eq_apply, map_apply hf, ihLeft, ihRight]
    rfl

end Map

end Semantics

namespace SetExpr

/-- An expression that never has two copies of a row. -/
def atMostOnce : SetExpr → Bool
  | select distinct _ => distinct
  | setOperation .unionAll _ _ => false
  | setOperation .exceptAll left _ => left.atMostOnce
  | setOperation .intersectAll left right =>
    left.atMostOnce || right.atMostOnce
  | setOperation _ _ _ => true

/-- A SELECT that the optimiser has not split. -/
def isOnePlan : SetExpr → Bool
  | select _ arms => arms == 0
  | setOperation _ _ _ => false

/-- UNION ALLs of SELECTs without DISTINCT: every step adds its rows. -/
def addsAll : SetExpr → Bool
  | select distinct _ => !distinct
  | setOperation option left right =>
    option == .unionAll && left.addsAll && right.addsAll

def unionOnly : SetExpr → Bool
  | select _ _ => true
  | setOperation option left right =>
    (option == .union || option == .unionAll) && left.unionOnly && right.unionOnly

/-- The last step keeps the output unique, if `first` says whether an
enclosing set operation makes the first one do so. -/
def endsDistinct : SetExpr → Bool → Bool
  | select distinct arms, first => distinct || (first && arms == 0)
  | setOperation option _ right, _ => right.endsDistinct option.isDistinct

/-- Expressions that can be intersected step by step with the output. -/
def intersectOnly : SetExpr → Bool
  | select _ arms => arms == 0
  | setOperation .intersect left right => left.intersectOnly && right.intersectOnly
  | setOperation .intersectAll left right =>
    left.intersectOnly && right.intersectOnly
  | setOperation .except left right => right.isOnePlan && left.intersectOnly
  | setOperation .exceptAll left right =>
    right.isOnePlan && left.intersectOnly && left.atMostOnce
  | setOperation _ _ _ => false

mutual

/-- The steps leave the right number of copies of each row, if `force` says
whether an enclosing set operation makes the first of them distinct. -/
def countsAgree : SetExpr → Bool → Bool
  | select distinct _, force => distinct || !force
  | setOperation .union left right, _ =>
    left.rowsAgree true && right.unionOnly && right.endsDistinct true
  | setOperation .unionAll left right, force =>
    left.countsAgree force && right.addsAll
  | setOperation .except left right, _ =>
    left.rowsAgree true && right.isOnePlan
  | setOperation .exceptAll left right, force =>
    right.isOnePlan &&
      if right.atMostOnce then left.rowsAgree force && left.atMostOnce
      else left.countsAgree force
  | setOperation .intersect left right, _ =>
    left.rowsAgree true && right.intersectOnly
  | setOperation .intersectAll left right, force =>
    right.intersectOnly && if right.atMostOnce then left.rowsAgree force
      else left.countsAgree force

/-- The steps leave the right rows, perhaps not in the right numbers. -/
def rowsAgree : SetExpr → Bool → Bool
  | select _ _, _ => true
  | setOperation .union left right, _ =>
    left.rowsAgree true && right.unionOnly
  | setOperation .unionAll left right, force =>
    left.rowsAgree force && right.unionOnly
  | setOperation .except left right, _ =>
    left.rowsAgree true && right.isOnePlan
  | setOperation .exceptAll left right, force =>
    right.isOnePlan &&
      if right.atMostOnce then left.rowsAgree force && left.atMostOnce
      else left.countsAgree force
  | setOperation .intersect left right, _ =>
    left.rowsAgree true && right.intersectOnly
  | setOperation .intersectAll left right, force =>
    left.rowsAgree force && right.intersectOnly

end

/-- The plan list gives the expression its meaning. -/
def isLinear (expr : SetExpr) : Bool := expr.countsAgree false

end SetExpr

end Octo
