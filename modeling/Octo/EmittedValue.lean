/-
The value of what is printed for a plan.  The text is read by the rules of M,
with $SELECT among them.
-/
import Octo.ExpressionText
import Octo.MValue
import Octo.SelectFunction

namespace Octo

open MExpression MValue

/-- The operators of M.  Literals, and numbers as M writes them, stand for
themselves. -/
def mOperators (other : Operators (List Char)) : Operators (List Char) :=
  withComparisons <| withBooleans
    { other with
      literal := fun text => text
      reference := fun text =>
        if isCanonical text then text else other.reference text }

/-- What is printed for a plan is an expression of M that can stand in a list
of arguments, and this is its value. -/
structure PrintsValue (refs : References) (other : Operators (List Char))
    (plan : LogicalPlan) (expr : Expr) (value : List Char) : Prop where
  text : tmplPrintExpression refs plan = some expr.render
  wellFormed : expr.wellFormed = true
  closed : isClosed endsArgument 0 false expr.render = true
  hasValue : HasValue (mOperators other) isTrueText expr.render value

def Valued (refs : References) (other : Operators (List Char))
    (plan : LogicalPlan) (value : List Char) : Prop :=
  ∃ expr, PrintsValue refs other plan expr value

variable {refs : References} {other : Operators (List Char)}

theorem Valued.unique {plan : LogicalPlan} {first second : List Char}
    (hfirst : Valued refs other plan first)
    (hsecond : Valued refs other plan second) : first = second := by
  obtain ⟨expr, hexpr⟩ := hfirst
  obtain ⟨expr', hexpr'⟩ := hsecond
  have htext := hexpr.text.symm.trans hexpr'.text
  rw [Option.some.injEq] at htext
  have hvalue := hexpr'.hasValue
  rw [← htext] at hvalue
  exact hexpr.hasValue.unique hvalue

theorem PrintsValue.literal {value : SqlValue} {text : List Char}
    (htext : literalText value = some text) (hquote : '"' ∉ text ∧ '\n' ∉ text) :
    PrintsValue refs other (.value value) (.literal text) text where
  text := by rw [tmplPrintExpression, printValue_eq htext]
  wellFormed := by simpa [Expr.wellFormed] using hquote
  closed := by
    have hclosed : isClosed endsArgument 0 true (text ++ ['"']) = true := by
      rw [isClosed_quoted hquote.1]
      rfl
    simpa [Expr.render, isClosed] using hclosed
  hasValue := hasValue_literal hquote

variable {type : LPActionType}

theorem PrintsValue.binary {op : BinaryOp} (hnot : unaryOperator type = none)
    (hop : binaryOperator type = some op) {first second : LogicalPlan} {left right : Expr}
    {x y : List Char} (hfirst : PrintsValue refs other first left x)
    (hsecond : PrintsValue refs other second right y) (hatom : right.isAtom = true) :
    PrintsValue refs other (.node type first second)
    (.paren (.binary op left right)) ((mOperators other).binary op x y) where
  text := by
    rw [tmplPrintExpression, printNode, hnot, hop]
    simp [hfirst.text, hsecond.text, printBinary, Expr.render]
  wellFormed := by
    simp [Expr.wellFormed, hfirst.wellFormed, hsecond.wellFormed, hatom]
  closed := by
    apply isClosed_paren
    simp [Expr.wellFormed, hfirst.wellFormed, hsecond.wellFormed, hatom]
  hasValue := by
    apply hasValue_paren
    · simp [Expr.wellFormed, hfirst.wellFormed, hsecond.wellFormed, hatom]
    · exact hasValue_binary op hfirst.wellFormed hsecond.wellFormed hatom
        hfirst.hasValue hsecond.hasValue

theorem PrintsValue.unary {op : UnaryOp} (hop : unaryOperator type = some op)
    {operand : LogicalPlan} {expr : Expr} {x : List Char}
    (hoperand : PrintsValue refs other operand expr x) (hatom : expr.isAtom = true) :
    PrintsValue refs other (.node type operand .null) (.unary op expr)
    ((mOperators other).unary op x) where
  text := by
    rw [tmplPrintExpression_unary hop, hoperand.text]
    rfl
  wellFormed := by
    simp [Expr.wellFormed, hoperand.wellFormed, hatom]
  closed := by
    have hclosed := hoperand.closed
    cases op <;> simpa [Expr.render, UnaryOp.symbol, isClosed, endsArgument] using hclosed
  hasValue :=
    hasValue_unary op hoperand.wellFormed hatom hoperand.hasValue

theorem valued_string (refs : References) (other : Operators (List Char)) {text : String}
    (htext : '"' ∉ text.toList ∧ '\n' ∉ text.toList) :
    Valued refs other (.value ⟨.stringLiteral, text⟩) text.toList :=
  ⟨.literal text.toList, .literal rfl htext⟩

end Octo
