/-
Values used as conditions.  The grammar has five places for a value where a
condition is expected and compares it there with a constant: with the empty
value if it is the left operand of OR, and with 0 in the other places.
-/
import Octo.EmittedValue
import Octo.GeneratePlan

namespace Octo

open MExpression MValue

/-- `nul`, of type `NUL_VALUE`. -/
def nulStatement : SqlStatement := .value ⟨.nulValue, ""⟩ .unknown

/-- `nul`, of unknown type with the text 0. -/
def zeroStatement : SqlStatement := .value ⟨.unknown, "0"⟩ .unknown

def comparedWith (constant value : SqlStatement) : SqlStatement :=
  .binary .booleanNotEquals value constant

/-- `row_value_constructor OR boolean_term` -/
def valueOrCondition (value condition : SqlStatement) : SqlStatement :=
  .binary .booleanOr (comparedWith nulStatement value) condition

/-- `search_condition OR row_value_constructor` -/
def conditionOrValue (condition value : SqlStatement) : SqlStatement :=
  .binary .booleanOr condition (comparedWith zeroStatement value)

/-- `row_value_constructor AND boolean_factor` -/
def valueAndCondition (value condition : SqlStatement) : SqlStatement :=
  .binary .booleanAnd (comparedWith zeroStatement value) condition

/-- `boolean_term AND row_value_constructor` -/
def conditionAndValue (condition value : SqlStatement) : SqlStatement :=
  .binary .booleanAnd condition (comparedWith zeroStatement value)

/-- `NOT row_value_constructor` -/
def notValue (value : SqlStatement) : SqlStatement :=
  .unary .booleanNot (comparedWith zeroStatement value)

/-- What the planner and the emitted code need to know of everything else. -/
structure Surroundings where
  tableOf : ℕ → SqlTable
  optimize : Optimizer
  generateOuter : SelectQuery → OptimizerState → Generated
  refs : References
  other : Operators (List Char)

namespace Surroundings

variable (env : Surroundings)

/-- The statement becomes a plan, and what is printed for the plan has this
value. -/
def Evaluates (statement : SqlStatement) (value : List Char) : Prop :=
  ∀ state, ∃ plan later, lpGenerateWhere env.tableOf env.optimize
      env.generateOuter statement state = some (plan, later) ∧
    Valued env.refs env.other plan value

/-- The statement becomes a plan that is printed as one atom, with this truth
value. -/
def HasTruth (statement : SqlStatement) (truth : Bool) : Prop :=
  ∀ state, ∃ plan later expr, lpGenerateWhere env.tableOf env.optimize
      env.generateOuter statement state = some (plan, later) ∧
    PrintsValue env.refs env.other plan expr (truthValue truth) ∧
    expr.isAtom = true

variable {env}

theorem HasTruth.unique {statement : SqlStatement} {first second : Bool}
    (hfirst : env.HasTruth statement first)
    (hsecond : env.HasTruth statement second) : first = second := by
  obtain ⟨plan, later, expr, hplan, hprints, -⟩ := hfirst ⟨0, 0⟩
  obtain ⟨plan', later', expr', hplan', hprints', -⟩ := hsecond ⟨0, 0⟩
  rw [hplan, Option.some.injEq, Prod.mk.injEq] at hplan'
  rw [← hplan'.1] at hprints'
  have hvalue := Valued.unique ⟨expr, hprints⟩ ⟨expr', hprints'⟩
  have htruth := congrArg isTrueText hvalue
  rwa [isTrueText_truthValue, isTrueText_truthValue] at htruth

theorem hasTruth_comparedWith {value : SqlStatement} {v : List Char}
    (hvalue : env.Evaluates value v) {literal : SqlValue} {text : List Char}
    (htext : literalText literal = some text) (hquote : '"' ∉ text ∧ '\n' ∉ text) :
    env.HasTruth (comparedWith (.value literal .unknown) value) (v ≠ text) := by
  intro state
  obtain ⟨plan, later, hplan, expr, hprints⟩ := hvalue state
  refine ⟨.node .booleanNotEquals plan (.value literal), later,
    .paren (.binary .notEquals expr (.literal text)), ?_, ?_, rfl⟩
  · simp [comparedWith, lpGenerateWhere, hplan, SqlStatement.isColumnList,
      binaryPlan, BinaryOperation.actionType]
  · exact .binary rfl rfl hprints (.literal htext hquote) rfl

variable {first second : SqlStatement} {s t : Bool}

/-- OR and AND of conditions. -/
theorem hasTruth_binary {operation : BinaryOperation} {op : BinaryOp}
    (hnotIn : operation ≠ .booleanIn ∧ operation ≠ .booleanNotIn ∧
    operation ≠ .booleanRegexSensitive) (hnot : unaryOperator operation.actionType = none)
    (hop : binaryOperator operation.actionType = some op) {r : Bool}
    (hvalue : (mOperators env.other).binary op (truthValue s) (truthValue t) = truthValue r)
    (hfirst : env.HasTruth first s) (hsecond : env.HasTruth second t) :
    env.HasTruth (.binary operation first second) r := by
  intro state
  obtain ⟨plan, middle, left, hplan, hprints, -⟩ := hfirst state
  obtain ⟨plan', later, right, hplan', hprints', hatom⟩ := hsecond middle
  have hprinted := PrintsValue.binary hnot hop hprints hprints' hatom
  rw [hvalue] at hprinted
  refine ⟨.node operation.actionType plan plan', later,
    .paren (.binary op left right), ?_, hprinted, rfl⟩
  simp [lpGenerateWhere, hplan, hplan', binaryPlan, hnotIn]

theorem hasTruth_or (hfirst : env.HasTruth first s) (hsecond : env.HasTruth second t) :
    env.HasTruth (.binary .booleanOr first second) (s || t) :=
  hasTruth_binary (by decide) rfl rfl
    (by simp [mOperators, withComparisons, withBooleans]) hfirst hsecond

theorem hasTruth_and (hfirst : env.HasTruth first s) (hsecond : env.HasTruth second t) :
    env.HasTruth (.binary .booleanAnd first second) (s && t) :=
  hasTruth_binary (by decide) rfl rfl
    (by simp [mOperators, withComparisons, withBooleans]) hfirst hsecond

theorem hasTruth_not {condition : SqlStatement} (hcondition : env.HasTruth condition t) :
    env.HasTruth (.unary .booleanNot condition) (!t) := by
  intro state
  obtain ⟨plan, later, expr, hplan, hprints, hatom⟩ := hcondition state
  have hprinted := PrintsValue.unary (rfl : unaryOperator .booleanNot = _) hprints hatom
  have hvalue : (mOperators env.other).unary .not (truthValue t) = truthValue (!t) := by
    simp [mOperators, withComparisons, withBooleans]
  rw [hvalue] at hprinted
  refine ⟨.node .booleanNot plan .null, later, .unary .not expr, ?_, hprinted, rfl⟩
  simp [lpGenerateWhere, hplan, UnaryOperation.actionType]

/-- One truth value of a bare value fits all places where it can stand. -/
def BareValuesAgree (env : Surroundings) (value : SqlStatement) : Prop :=
  ∃ truth : Bool, env.HasTruth (notValue value) (!truth) ∧ ∀ condition t, env.HasTruth condition t →
    env.HasTruth (valueOrCondition value condition) (truth || t) ∧
    env.HasTruth (conditionOrValue condition value) (truth || t) ∧
    env.HasTruth (valueAndCondition value condition) (truth && t) ∧
    env.HasTruth (conditionAndValue condition value) (truth && t)

variable {value : SqlStatement} {v : List Char}

theorem hasTruth_nul (hvalue : env.Evaluates value v) :
    env.HasTruth (comparedWith nulStatement value) (v ≠ []) :=
  hasTruth_comparedWith hvalue rfl (by decide)

theorem hasTruth_zero (hvalue : env.Evaluates value v) :
    env.HasTruth (comparedWith zeroStatement value) (v ≠ ['0']) :=
  hasTruth_comparedWith hvalue rfl (by decide)

/-- A condition that is false. -/
theorem exists_hasTruth_false (env : Surroundings) : ∃ condition, env.HasTruth condition false := by
  have hzero : env.Evaluates zeroStatement ['0'] := by
    intro state
    exact ⟨.value ⟨.unknown, "0"⟩, state, by simp [zeroStatement,
      lpGenerateWhere], .literal ['0'], .literal rfl (by decide)⟩
  have hfalse := hasTruth_zero hzero
  exact ⟨_, by simpa using hfalse⟩

/-- The places agree on a value exactly if it is neither empty nor 0. -/
theorem bareValuesAgree_iff (hvalue : env.Evaluates value v) :
    BareValuesAgree env value ↔ v ≠ [] ∧ v ≠ ['0'] := by
  have hnul := hasTruth_nul hvalue
  have hzero := hasTruth_zero hvalue
  constructor
  · rintro ⟨truth, hnot, hplaces⟩
    have htruth := (hasTruth_not hzero).unique hnot
    obtain ⟨condition, hcondition⟩ := exists_hasTruth_false env
    have hor := (hplaces condition false hcondition).1
    have hleft := (hasTruth_or hnul hcondition).unique hor
    rw [Bool.or_false, Bool.or_false] at hleft
    rw [Bool.not_inj_iff, ← hleft] at htruth
    constructor
    · rintro rfl
      simp at htruth
    · rintro rfl
      simp at htruth
  · rintro ⟨hempty, hnonzero⟩
    have htrue : env.HasTruth (comparedWith nulStatement value) true := by
      simpa [hempty] using hnul
    have htrue' : env.HasTruth (comparedWith zeroStatement value) true := by
      simpa [hnonzero] using hzero
    refine ⟨true, hasTruth_not htrue', ?_⟩
    intro condition t hcondition
    have hor := hasTruth_or hcondition htrue'
    have hand := hasTruth_and hcondition htrue'
    rw [Bool.or_comm] at hor
    rw [Bool.and_comm] at hand
    exact ⟨hasTruth_or htrue hcondition, hor, hasTruth_and htrue' hcondition, hand⟩

end Surroundings

namespace BareBooleanExample

def env : Surroundings where
  tableOf := fun _ => ⟨"t", [⟨"id"⟩], [⟨"id"⟩], idColumn_ne_nil⟩
  optimize := fun plan state => some (plan, state)
  generateOuter := fun _ _ => none
  refs := ⟨fun _ => .reference [], fun _ => false, fun _ => []⟩
  other := ⟨fun text => text, fun text => text, fun _ value => value, fun _ _ value => value⟩

def number (text : String) : SqlStatement :=
  .value ⟨.numberLiteral, text⟩ .unknown

theorem evaluates_number {text : String} (htext : '"' ∉ text.toList ∧ '\n' ∉ text.toList) :
    env.Evaluates (number text) text.toList := by
  intro state
  exact ⟨.value ⟨.numberLiteral, text⟩, state,
    by simp [number, lpGenerateWhere], .literal text.toList, .literal rfl htext⟩

end BareBooleanExample

open BareBooleanExample in
theorem bareValuesAgree_seven : env.Evaluates (number "7") "7".toList ∧
    Surroundings.BareValuesAgree env (number "7") :=
  ⟨evaluates_number (by decide),
    (Surroundings.bareValuesAgree_iff (evaluates_number (by decide))).mpr (by decide)⟩

open BareBooleanExample in
/-- For a false condition p, `0 OR p` is true and `p OR 0` is false. -/
theorem bare_values_differ : ∃ condition, env.HasTruth condition false ∧
      env.HasTruth (valueOrCondition (number "0") condition) true ∧
      env.HasTruth (conditionOrValue condition (number "0")) false ∧
      ¬ Surroundings.BareValuesAgree env (number "0") := by
  have hzero : env.Evaluates (number "0") "0".toList :=
    evaluates_number (by decide)
  obtain ⟨condition, hcondition⟩ := Surroundings.exists_hasTruth_false env
  have hleft := Surroundings.hasTruth_or (Surroundings.hasTruth_nul hzero) hcondition
  have hright := Surroundings.hasTruth_or hcondition (Surroundings.hasTruth_zero hzero)
  refine ⟨condition, hcondition, hleft, hright, ?_⟩
  rintro ⟨truth, -, hplaces⟩
  obtain ⟨hfirst, hsecond, -, -⟩ := hplaces condition false hcondition
  exact Bool.false_ne_true ((hright.unique hsecond).trans (hfirst.unique hleft))

end Octo
