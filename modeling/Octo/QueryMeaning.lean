/-
What a query means: the bag of rows that standard SQL assigns to a statement.
A tuple of a FROM clause is an environment, the row that each table holds by its
unique id; a table without partner in an outer join holds the row of nulls.
-/
import Octo.OuterJoins
import Octo.SetExpression
import Octo.SqlStatement

namespace Octo

open OuterJoins RowBag

/-- What an operator sees of an operand: its value, its list of values if it
is the list of an IN, and its rows if it is a sub-query. -/
structure Operand (V : Type) where
  value : V
  list : List V
  rows : Multiset (List V)

/-- The meaning of values, operators and keywords. -/
structure Interpretation (V : Type) where
  null : V
  literal : SqlValue → V
  literal_nulValue : ∀ text, literal ⟨.nulValue, text⟩ = null
  name : String → V
  binary : BinaryOperation → Operand V → Operand V → V
  unary : UnaryOperation → V → V
  call : V → List V → V
  cas : V → List V → V → V
  scalar : Multiset (List V) → V
  truth : V → Bool
  words : SqlStatement → Multiset (List V) → Multiset (List V)

/-- Numbers, with 0 for NULL and whatever is not a column or a comparison. -/
def Interpretation.ofBinary (binary : ℕ → ℕ → ℕ) : Interpretation ℕ where
  null := 0
  literal _ := 0
  literal_nulValue _ := rfl
  name _ := 0
  binary _ x y := binary x.value y.value
  unary _ x := x
  call x _ := x
  cas x _ _ := x
  scalar _ := 0
  truth x := x ≠ 0
  words _ rows := rows

abbrev NamedRow (V : Type) := String → V

/-- The row that each table holds. -/
abbrev Env (V : Type) := ℕ → NamedRow V

abbrev Database (V : Type) := String → Multiset (NamedRow V)

namespace SqlStatement

def isNull : SqlStatement → Bool
  | null => true
  | _ => false

def storedTable : SqlStatement → Option String
  | table label _ _ => some label.text
  | _ => none

end SqlStatement

section Meaning

variable {V : Type} (I : Interpretation V)

def nullRow : NamedRow V := fun _ => I.null

def namedRow (names : List String) (values : List V) : NamedRow V :=
  fun column => ((names.zip values).lookup column).getD I.null

/-- The environment in which the tables of a FROM clause hold no row. -/
def withoutRows (env : Env V) (ids : List ℕ) : Env V :=
  ids.foldl (fun env id => Function.update env id (nullRow I)) env

/-- The join of the tuples so far with the next table. -/
def tableJoin (id : ℕ) (rows : Env V → Multiset (NamedRow V))
    (cond : Env V → Bool) : Join (Env V) (NamedRow V) where
  extend env row := Function.update env id row
  rows := rows
  cond := cond

def outerJoin (type : JoinType) (id : ℕ) (join : Join (Env V) (NamedRow V))
    (outer : Env V) (bound : List ℕ) (tuples : Multiset (Env V)) : Multiset (Env V) :=
  let left := join.leftRest (Function.update · id (nullRow I)) tuples
  let right := join.rightRest (join.rows outer)
    (Function.update (withoutRows I outer bound) id) tuples
  match type with
  | .leftJoin => join.inner tuples + left
  | .rightJoin => join.inner tuples + right
  | _ => join.inner tuples + left + right

variable [DecidableEq V] (db : Database V)

mutual

def evaluate : SqlStatement → Env V → V
  | .value literal _, _ => I.literal literal
  | .name text _, _ => I.name text
  | .calculated calculated _, env => evaluate calculated env
  | .coerced target _ _, env => evaluate target env
  | .columnAlias column tableId, env => env tableId column.columnName
  | .binary operation operand0 operand1, env =>
    I.binary operation ⟨evaluate operand0 env, evaluateList operand0 env, queryRows operand0 env⟩
      ⟨evaluate operand1 env, evaluateList operand1 env, queryRows operand1 env⟩
  | .unary operation operand, env => I.unary operation (evaluate operand env)
  | .functionCall functionName parameters, env =>
    I.call (evaluate functionName env) (evaluateList parameters env)
  | .cas value branches optionalElse, env =>
    I.cas (evaluate value env) (evaluateList branches env) (evaluate optionalElse env)
  | .tableAlias table _ _ _, env => I.scalar (queryRows table env)
  | .setOperation type operand0 operand1, env =>
    I.scalar (type.meaning (queryRows operand0 env) (queryRows operand1 env))
  | _, _ => I.null

/-- The values of a list: of a select list, of the parameters of a function,
of an IN or of the branches of a CASE. -/
def evaluateList : SqlStatement → Env V → List V
  | .columnList value next, env => evaluate value env :: evaluateList next env
  | .columnListAlias columnList _ _ _ next, env =>
    evaluateList columnList env ++ evaluateList next env
  | .casBranch condition value next, env =>
    evaluate condition env :: evaluate value env :: evaluateList next env
  | _, _ => []

def queryRows : SqlStatement → Env V → Multiset (List V)
  | .select selectList tableList whereExpression _ optionalWords _, env =>
    I.words optionalWords (((joined tableList env [] (fun _ => true) {env}).filter fun tuple =>
        whereExpression.isNull || I.truth (evaluate whereExpression tuple)).map
        (evaluateList selectList))
  | .tableAlias table _ _ _, env => queryRows table env
  | .setOperation type operand0 operand1, env =>
    type.meaning (queryRows operand0 env) (queryRows operand1 env)
  | _, _ => 0

def sourceRows : SqlStatement → Env V → Multiset (NamedRow V)
  | .tableAlias table _ _ _, env =>
    match table.storedTable with
    | some name => db name
    | none => (queryRows table env).map (namedRow I table.outputNames)
  | _, _ => 0

/-- The tuples of a FROM clause.  The conditions of inner joins are collected
and met before the next outer join and at the end: a natural join keeps its
condition with the table to the left. -/
def joined : SqlStatement → Env V → List ℕ → (Env V → Bool) → Multiset (Env V) → Multiset (Env V)
  | .join type value condition next, outer, bound, pending, tuples =>
    let holds := fun tuple =>
      condition.isNull || I.truth (evaluate condition tuple)
    match value.uniqueId with
    | none => joined next outer bound pending tuples
    | some id =>
      if type.isOuter then
        joined next outer (id :: bound) (fun _ => true)
          (outerJoin I type id (tableJoin id (sourceRows value) holds)
            outer bound (tuples.filter (pending ·)))
      else
        joined next outer (id :: bound) (fun tuple => pending tuple && holds tuple)
          ((tableJoin id (sourceRows value) fun _ => true).inner tuples)
  | _, _, _, pending, tuples => tuples.filter (pending ·)

end

-- The equations are made here, not by the proofs that wait for them.
attribute [local simp] evaluate evaluateList queryRows sourceRows joined

end Meaning

end Octo
