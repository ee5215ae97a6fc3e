/-
CASE, from the statement to the text of its $SELECT.  `tmpl_print_expression`
reads the tested value as the ELSE value too, so the ELSE value is never printed
and the tested value stands in its place.
-/
import Octo.EmittedValue
import Octo.GeneratePlan

namespace Octo

open MExpression MValue List Option

/-- The chain of LP_CASE_BRANCH nodes. -/
def branchCells : List (LogicalPlan × LogicalPlan) → LogicalPlan
  | [] => .null
  | (condition, value) :: rest =>
    .node .caseBranch (.node .caseBranchStatement condition value) (branchCells rest)

/-- The plan of a CASE; a value that is not there is `null`. -/
def casePlan (value optionalElse : LogicalPlan)
    (branches : List (LogicalPlan × LogicalPlan)) : LogicalPlan :=
  .node .caseNode (.node .caseStatement value optionalElse) (branchCells branches)

def OptionValued (refs : References) (other : Operators (List Char))
    (plan : LogicalPlan) : Option (List Char) → Prop
  | some value => Valued refs other plan value
  | none => plan = .null

/-- The condition of a branch holds: it is equal to the tested value, or true
if none is tested. -/
def holds (tested : Option (List Char)) (condition : List Char) : Bool :=
  condition = tested.getD (truthValue true)

/-- The value of a CASE: that of the first branch whose condition holds, else
the ELSE value, else the empty value. -/
def caseValue (tested : Option (List Char)) (branches : List (List Char × List Char))
    (optionalElse : Option (List Char)) : List Char :=
  match branches.find? (holds tested ·.1) with
  | some branch => branch.2
  | none => optionalElse.getD []

section Printed

variable {refs : References} {other : Operators (List Char)}

def branchClause (tested : Expr) (branch : Expr × Expr) : List Char × List Char :=
  ((Expr.binary .equals (.paren branch.1) (.paren tested)).render, (Expr.paren branch.2).render)

def PrintsBranch (refs : References) (branch : LogicalPlan × LogicalPlan)
    (exprs : Expr × Expr) : Prop :=
  tmplPrintExpression refs branch.1 = some exprs.1.render ∧
    tmplPrintExpression refs branch.2 = some exprs.2.render

variable {branches : List (LogicalPlan × LogicalPlan)} {tested : Expr}
  {branch : Expr × Expr} {values : List (List Char × List Char)}

theorem printBranches_eq (tested last : Expr) {exprs : List (Expr × Expr)}
    (hbranches : List.Forall₂ (PrintsBranch refs) branches exprs) :
    ∃ text, printBranches refs tested.render (branchCells branches) = some text ∧ text ++ '1' ::
    ':' :: (last.render ++ [')']) = renderClauses (['1'], last.render)
    (exprs.map (branchClause tested)) := by
  induction hbranches with
  | nil => exact ⟨[], rfl, rfl⟩
  | @cons branch expr branches exprs hbranch _ ih =>
    obtain ⟨text, htext, hrender⟩ := ih
    obtain ⟨hcondition, hvalue⟩ := hbranch
    refine ⟨'(' :: expr.1.render ++ ")=(".toList ++ tested.render ++
      "):(".toList ++ expr.2.render ++ "),".toList ++ text,
      by simp [branchCells, printBranches, hcondition, hvalue, htext], ?_⟩
    rw [map_cons, renderClauses, ← hrender]
    simp [branchClause, Expr.render, BinaryOp.symbol]

theorem isClause_branchClause (htested : tested.wellFormed = true)
    (hcondition : branch.1.wellFormed = true) (hvalue : branch.2.wellFormed = true) :
    isClause (branchClause tested branch) = true := by
  have hfirst : isClosed endsArgument 0 false
      (Expr.paren branch.1).render = true := isClosed_paren hcondition
  have hsecond : isClosed endsArgument 0 false
      (Expr.paren tested).render = true := isClosed_paren htested
  have hequals : isClosed endsArgument 0 false
      (BinaryOp.equals.symbol ++ (Expr.paren tested).render) = true := by
    simpa [BinaryOp.symbol, isClosed, endsArgument] using hsecond
  rw [isClause, Bool.and_eq_true]
  constructor
  · change isClosed endsArgument 0 false ((Expr.paren branch.1).render ++
      (BinaryOp.equals.symbol ++ (Expr.paren tested).render)) = true
    rw [isClosed_append hfirst]
    exact hequals
  · exact isClosed_paren hvalue

/-- A branch whose condition and value are printed and have these values. -/
def BranchValued (refs : References) (other : Operators (List Char))
    (branch : LogicalPlan × LogicalPlan) (value : List Char × List Char) :
    Prop :=
  Valued refs other branch.1 value.1 ∧ Valued refs other branch.2 value.2

theorem exists_clauses {t : List Char} (htested : tested.wellFormed = true)
    (ht : HasValue (mOperators other) isTrueText tested.render t)
    (hbranches : List.Forall₂ (BranchValued refs other) branches values) :
    ∃ exprs, List.Forall₂ (PrintsBranch refs) branches exprs ∧
    (∀ clause ∈ exprs.map (branchClause tested), isClause clause = true) ∧
    List.Forall₂ (ClauseHasValue (mOperators other) isTrueText) (exprs.map (branchClause tested))
    (values.map fun value => (truthValue (value.1 = t), value.2)) := by
  induction hbranches with
  | nil => exact ⟨[], .nil, by simp, .nil⟩
  | @cons branch value branches values hbranch _ ih =>
    obtain ⟨exprs, hprints, hclauses, hvalues⟩ := ih
    obtain ⟨⟨condition, hcondition, hwell, -, hc⟩, ⟨result, hresult, hwell', -, hr⟩⟩ := hbranch
    refine ⟨(condition, result) :: exprs, .cons ⟨hcondition, hresult⟩ hprints,
      ?_, .cons ⟨?_, hasValue_paren hwell' hr⟩ hvalues⟩
    · rw [map_cons, forall_mem_cons]
      exact ⟨isClause_branchClause htested hwell hwell', hclauses⟩
    · exact hasValue_binary .equals hwell htested rfl (hasValue_paren hwell hc)
        (hasValue_paren htested ht)

theorem hasValue_one : HasValue (mOperators other) isTrueText ['1'] ['1'] := by
  have hcanonical : isCanonical ['1'] = true := by
    decide +kernel
  have hone : (mOperators other).reference ['1'] = ['1'] := by
    simp [mOperators, withComparisons, withBooleans, hcanonical]
  have hvalue : HasValue (mOperators other) isTrueText ['1'] ((mOperators other).reference ['1']) :=
    hasValue_reference (by decide) (by decide)
  rwa [hone] at hvalue

def emittedCase (tested : Option (List Char))
    (branches : List (List Char × List Char)) : List Char :=
  match branches.find? (holds tested ·.1) with
  | some branch => branch.2
  | none => tested.getD []

/-- The text of the whole CASE, from the texts of its parts. -/
theorem valued_select {plan : LogicalPlan} {last : Expr} {t d : List Char}
    (htested : tested.wellFormed = true)
    (ht : HasValue (mOperators other) isTrueText tested.render t)
    (hlast : isClosed endsArgument 0 false last.render = true)
    (hd : HasValue (mOperators other) isTrueText last.render d)
    (hbranches : List.Forall₂ (BranchValued refs other) branches values) (hplan : ∀ text,
    printBranches refs tested.render (branchCells branches) = some text →
    tmplPrintExpression refs plan = some ('$' :: 'S' :: '(' ::
    (text ++ '1' :: ':' :: (last.render ++ [')'])))) :
    Valued refs other plan (match values.find? (·.1 = t) with
        | some value => value.2
        | none => d) := by
  obtain ⟨exprs, hprints, hclauses, hvalues⟩ :=
    exists_clauses htested ht hbranches
  obtain ⟨text, htext, hrender⟩ := printBranches_eq tested last hprints
  have hclause : isClause (['1'], last.render) = true := by
    rw [isClause, hlast]
    rfl
  have hall := rel_append hvalues (List.Forall₂.cons
      (⟨hasValue_one, hd⟩ : ClauseHasValue (mOperators other) isTrueText
        (['1'], last.render) (['1'], d)) .nil)
  have htrue : isTrueText ['1'] = true := by
    decide +kernel
  have hfind : ((values.map fun value =>
      (truthValue (value.1 = t), value.2)) ++ [(['1'], d)]).find? (isTrueText ·.1) =
      some (match values.find? (·.1 = t) with
        | some value => (['1'], value.2)
        | none => (['1'], d)) := by
    rw [find?_append, find?_map]
    simp only [Function.comp_def, isTrueText_truthValue]
    cases hfirst : values.find? (·.1 = t) with
    | none => simp [htrue]
    | some value =>
      have heq : value.1 = t := by simpa using find?_some hfirst
      simp [heq, truthValue]
  obtain ⟨hwell, hvalue⟩ := hasValue_select hclause hclauses hall hfind
  refine ⟨.reference ('$' :: 'S' :: '(' :: renderClauses (['1'], last.render)
    (exprs.map (branchClause tested))), ?_, hwell, ?_, ?_⟩
  · rw [hplan text htext, hrender]
    rfl
  · have hclosed := isClosed_renderClauses hclause hclauses endsArgument
    simpa [Expr.render, isClosed, endsArgument] using hclosed
  · cases hfirst : values.find? (·.1 = t) with
    | none =>
      rw [hfirst] at hvalue
      exact hvalue
    | some value =>
      rw [hfirst] at hvalue
      exact hvalue

theorem tmplPrintExpression_casePlan (value optionalElse : LogicalPlan)
    (branches : List (LogicalPlan × LogicalPlan)) :
    tmplPrintExpression refs (casePlan value optionalElse branches) =
    (printCaseValue refs (.node .caseStatement value optionalElse)).bind fun shown =>
          (printBranches refs (shown.getD ['1']) (branchCells branches)).bind
            fun text => some ('$' :: 'S' :: '(' :: (text ++ '1' :: ':' ::
              (shown.getD ['"', '"'] ++ [')']))) := by
  simp [casePlan, tmplPrintExpression, printNode, unaryOperator,
    binaryOperator, comparisonOperator, printOther]

/-- The emitted text of a CASE takes the tested value for the ELSE value. -/
theorem valued_casePlan {value optionalElse : LogicalPlan} {tested : Option (List Char)}
    (htested : OptionValued refs other value tested)
    (hbranches : List.Forall₂ (BranchValued refs other) branches values) :
    Valued refs other (casePlan value optionalElse branches) (emittedCase tested values) := by
  cases tested with
  | none =>
    cases htested
    have hone : (Expr.reference ['1']).wellFormed = true := by decide
    have hempty : HasValue (mOperators other) isTrueText (Expr.literal []).render [] :=
      hasValue_literal (by decide)
    apply valued_select hone hasValue_one (by decide) hempty hbranches
    intro text htext
    rw [tmplPrintExpression_casePlan, printCaseValue, if_pos rfl, bind_some, getD_none]
    exact congrArg (Option.bind · _) htext
  | some t =>
    obtain ⟨expr, hexpr, hwell, hclosed, hvalue⟩ := htested
    have hvalue_ne : value ≠ .null := by
      rintro rfl
      cases hexpr
    apply valued_select hwell hvalue hclosed hvalue hbranches
    intro text htext
    rw [tmplPrintExpression_casePlan, printCaseValue, if_neg hvalue_ne, hexpr]
    exact congrArg (Option.bind · _) htext

end Printed

/-- A branch is taken, or the value that is tested is the ELSE value; one that
is missing counts as empty. -/
def CaseFits (tested : Option (List Char)) (branches : List (List Char × List Char))
    (optionalElse : Option (List Char)) : Prop :=
  (∃ branch ∈ branches, holds tested branch.1 = true) ∨ optionalElse.getD [] = tested.getD []

theorem emittedCase_eq_iff (tested : Option (List Char)) (branches : List (List Char × List Char))
    (optionalElse : Option (List Char)) :
    emittedCase tested branches = caseValue tested branches optionalElse ↔
    CaseFits tested branches optionalElse := by
  cases hfind : branches.find? (holds tested ·.1) with
  | some branch =>
    have hbranch := mem_of_find?_eq_some hfind
    have hholds := find?_some hfind
    simp only [emittedCase, caseValue, hfind, true_iff]
    exact .inl ⟨branch, hbranch, hholds⟩
  | none =>
    have hnone := find?_eq_none.mp hfind
    simp only [emittedCase, caseValue, hfind]
    constructor
    · exact fun heq => .inr heq.symm
    · rintro (⟨branch, hbranch, hholds⟩ | heq)
      · exact absurd hholds (hnone branch hbranch)
      · exact heq.symm

section Statements

variable {tableOf : ℕ → SqlTable} {optimize : Optimizer}
  {generateOuter : SelectQuery → OptimizerState → Generated}

variable {later state : OptimizerState}

variable {plan : LogicalPlan}

/-- The branches of a CASE become a chain. -/
theorem lpGenerateBranches_eq_some {branches : SqlStatement}
    (hplan : lpGenerateBranches tableOf optimize generateOuter branches state =
    some (plan, later)) : ∃ plans, plan = branchCells plans := by
  induction branches generalizing state later plan with
  | casBranch condition value next _ _ ih =>
    simp only [lpGenerateBranches, bind_some_iff, some.injEq, Prod.mk.injEq] at hplan
    obtain ⟨⟨plan0, state0⟩, -, ⟨plan1, state1⟩, -, ⟨cells, state2⟩, hcells, rfl, -⟩ := hplan
    obtain ⟨plans, rfl⟩ := ih hcells
    exact ⟨(plan0, plan1) :: plans, rfl⟩
  | null =>
    simp only [lpGenerateBranches, some.injEq, Prod.mk.injEq] at hplan
    exact ⟨[], hplan.1.symm⟩
  | _ => simp [lpGenerateBranches] at hplan

structure CaseParts (tableOf : ℕ → SqlTable) (optimize : Optimizer)
    (generateOuter : SelectQuery → OptimizerState → Generated)
    (value branches optionalElse : SqlStatement) (state : OptimizerState) (plan : LogicalPlan) where
  valuePlan : LogicalPlan
  elsePlan : LogicalPlan
  branchPlans : List (LogicalPlan × LogicalPlan)
  afterValue : OptimizerState
  afterElse : OptimizerState
  afterBranches : OptimizerState
  value_eq : lpGenerateWhere tableOf optimize generateOuter value state =
    some (valuePlan, afterValue)
  else_eq : lpGenerateWhere tableOf optimize generateOuter optionalElse
    afterValue = some (elsePlan, afterElse)
  branches_eq : lpGenerateBranches tableOf optimize generateOuter branches
    afterElse = some (branchCells branchPlans, afterBranches)
  plan_eq : plan = casePlan valuePlan elsePlan branchPlans

variable {value branches optionalElse : SqlStatement}

theorem exists_caseParts (hplan : lpGenerateWhere tableOf optimize generateOuter
    (.cas value branches optionalElse) state = some (plan, later)) :
    Nonempty (CaseParts tableOf optimize generateOuter value branches optionalElse state plan) := by
  simp only [lpGenerateWhere, bind_some_iff, some.injEq, Prod.mk.injEq] at hplan
  obtain ⟨⟨valuePlan, state0⟩, hvalue, ⟨elsePlan, state1⟩, helse,
    ⟨cells, state2⟩, hcells, rfl, -⟩ := hplan
  obtain ⟨plans, rfl⟩ := lpGenerateBranches_eq_some hcells
  exact ⟨⟨valuePlan, elsePlan, plans, state0, state1, state2, hvalue, helse, hcells, rfl⟩⟩

/-- The emitted $SELECT of a CASE has the value of the CASE exactly if a branch
is taken or the ELSE value is the tested value. -/
theorem case_valued_iff (refs : References) (other : Operators (List Char))
    {value branches optionalElse : SqlStatement} {state later : OptimizerState} {plan : LogicalPlan}
    (hplan : lpGenerateWhere tableOf optimize generateOuter
    (.cas value branches optionalElse) state = some (plan, later)) : ∃ parts :
    CaseParts tableOf optimize generateOuter value branches optionalElse state plan,
    ∀ (tested elseValue : Option (List Char)) (values : List (List Char × List Char)),
    OptionValued refs other parts.valuePlan tested →
    OptionValued refs other parts.elsePlan elseValue →
    List.Forall₂ (BranchValued refs other) parts.branchPlans values →
    (Valued refs other plan (caseValue tested values elseValue) ↔
    CaseFits tested values elseValue) := by
  obtain ⟨parts⟩ := exists_caseParts hplan
  refine ⟨parts, ?_⟩
  intro tested elseValue values htested _ hbranches
  have hemitted : Valued refs other plan (emittedCase tested values) := by
    rw [parts.plan_eq]
    exact valued_casePlan htested hbranches
  rw [← emittedCase_eq_iff]
  constructor
  · intro hvalued
    exact hemitted.unique hvalued
  · intro heq
    rwa [← heq]

end Statements

theorem branchCells_injective : Function.Injective branchCells := by
  intro first second heq
  induction first generalizing second with
  | nil =>
    cases second with
    | nil => rfl
    | cons branch rest => simp [branchCells] at heq
  | cons branch rest ih =>
    cases second with
    | nil => simp [branchCells] at heq
    | cons branch' rest' =>
      simp only [branchCells, LogicalPlan.node.injEq, true_and] at heq
      rw [ih heq.2, Prod.ext heq.1.1 heq.1.2]

namespace CaseExample

def refs : References where
  column := fun _ => .reference []
  columnIsString := fun _ => false
  key := fun _ => []

def other : Operators (List Char) where
  literal := fun text => text
  reference := fun _ => []
  unary := fun _ value => value
  binary := fun _ _ value => value

def string (text : String) : SqlStatement :=
  .value ⟨.stringLiteral, text⟩ .unknown

/-- `CASE value WHEN 'b' THEN 'x' ELSE 'y' END` -/
def statement (value : String) : SqlStatement :=
  .cas (string value) (.casBranch (string "b") (string "x") .null) (string "y")

def plan (value : String) : LogicalPlan :=
  casePlan (.value ⟨.stringLiteral, value⟩) (.value ⟨.stringLiteral, "y"⟩)
    [(.value ⟨.stringLiteral, "b"⟩, .value ⟨.stringLiteral, "x"⟩)]

def tableOf : ℕ → SqlTable := fun _ => ⟨"t", [⟨"id"⟩], [⟨"id"⟩], idColumn_ne_nil⟩

def generate (statement : SqlStatement) : Generated :=
  lpGenerateWhere tableOf (fun plan state => some (plan, state)) (fun _ _ => none) statement ⟨0, 0⟩

theorem valued_branches : List.Forall₂ (BranchValued refs other)
    [(.value ⟨.stringLiteral, "b"⟩, .value ⟨.stringLiteral, "x"⟩)] [("b".toList, "x".toList)] :=
  .cons ⟨valued_string refs other (by decide), valued_string refs other (by decide)⟩ .nil

end CaseExample

open CaseExample in
theorem case_valued_branch : generate (statement "b") = some (plan "b", ⟨0, 0⟩) ∧
    Valued refs other (plan "b") "x".toList := by
  have hplan : generate (statement "b") = some (plan "b", ⟨0, 0⟩) := by
    simp [generate, statement, string, lpGenerateWhere, lpGenerateBranches,
      plan, casePlan, branchCells]
  refine ⟨hplan, ?_⟩
  obtain ⟨parts, hiff⟩ := case_valued_iff refs other hplan
  have hvalue : parts.valuePlan = .value ⟨.stringLiteral, "b"⟩ ∧
      parts.elsePlan = .value ⟨.stringLiteral, "y"⟩ ∧ branchCells parts.branchPlans = branchCells
      [(.value ⟨.stringLiteral, "b"⟩, .value ⟨.stringLiteral, "x"⟩)] := by
    have hparts := parts.plan_eq
    simp only [plan, casePlan, LogicalPlan.node.injEq, true_and] at hparts
    exact ⟨hparts.1.1.symm, hparts.1.2.symm, hparts.2.symm⟩
  obtain ⟨hvalue, helse, hbranches⟩ := hvalue
  have hbranches := branchCells_injective hbranches
  apply (hiff (some "b".toList) (some "y".toList) [("b".toList, "x".toList)]
    (by rw [hvalue]; exact valued_string refs other (by decide))
    (by rw [helse]; exact valued_string refs other (by decide))
    (by rw [hbranches]; exact valued_branches)).mpr
  exact .inl ⟨_, mem_cons_self, by decide⟩

open CaseExample in
/-- `CASE 'a' WHEN 'b' THEN 'x' ELSE 'y' END` becomes
`$S(("b")=("a"):("x"),1:"a")`, which is 'a'. -/
theorem else_value_lost : generate (statement "a") = some (plan "a", ⟨0, 0⟩) ∧
      tmplPrintExpression refs (plan "a") =
      some "$S((\x22b\x22)=(\x22a\x22):(\x22x\x22),1:\x22a\x22)".toList ∧
      Valued refs other (plan "a") "a".toList ∧ ¬ Valued refs other (plan "a")
      (caseValue (some "a".toList) [("b".toList, "x".toList)] (some "y".toList)) := by
  have htested : OptionValued refs other (.value ⟨.stringLiteral, "a"⟩) (some "a".toList) :=
    valued_string refs other (by decide)
  have hvalued : Valued refs other (plan "a") "a".toList :=
    valued_casePlan htested valued_branches
  refine ⟨?_, by decide +kernel, hvalued, ?_⟩
  · simp [generate, statement, string, lpGenerateWhere, lpGenerateBranches,
      plan, casePlan, branchCells]
  · intro hother
    have heq := hvalued.unique hother
    revert heq
    decide

end Octo
