/-
Expressions of the M language.  There is no precedence: binary operators are
applied from left to right, each to all that stands before it and to the next
atom.  A unary operator applies to the next atom.
-/
import Mathlib.Data.List.Basic

namespace MExpression

open List Option
open Bool hiding not_or

inductive UnaryOp
  | plus | minus | not
deriving DecidableEq, Repr

inductive BinaryOp
  | plus | minus | times | divide | integerDivide | modulo | concat | or | and | equals
  | notEquals | less | greater | notLess | notGreater | contains | follows
deriving DecidableEq, Repr

def UnaryOp.symbol : UnaryOp → Char
  | plus => '+'
  | minus => '-'
  | not => '\''

def BinaryOp.symbol : BinaryOp → List Char
  | plus => ['+']
  | minus => ['-']
  | times => ['*']
  | divide => ['/']
  | integerDivide => ['\\']
  | modulo => ['#']
  | concat => ['_']
  | or => ['!']
  | and => ['&']
  | equals => ['=']
  | notEquals => ['\'', '=']
  | less => ['<']
  | greater => ['>']
  | notLess => ['\'', '<']
  | notGreater => ['\'', '>']
  | contains => ['[']
  | follows => [']', ']']

/-- What is written in a text.  References are variables, globals and
functions with their arguments. -/
inductive Expr
  | literal (text : List Char)
  | reference (text : List Char)
  | paren (expr : Expr)
  | unary (op : UnaryOp) (operand : Expr)
  | binary (op : BinaryOp) (left right : Expr)
deriving DecidableEq, Repr

/-- A reference ends before one of these. -/
def isBreak (c : Char) : Bool :=
  c ∈ [')', '+', '-', '*', '/', '\\', '#', '_', '!', '&', '=', '\'', '<', '>', '[', ']', '?']

/-- The text leaves no parenthesis and no quote open, and no character outside
of them stops it. -/
def isClosed (stop : Char → Bool) : Nat → Bool → List Char → Bool
  | depth, quoted, [] => depth == 0 && !quoted
  | depth, quoted, c :: rest =>
    if c = '"' then isClosed stop depth (!quoted) rest
    else if quoted then isClosed stop depth quoted rest
    else if c = '(' then isClosed stop (depth + 1) quoted rest
    else if depth = 0 then !stop c && isClosed stop 0 quoted rest
    else if c = ')' then isClosed stop (depth - 1) quoted rest
    else isClosed stop depth quoted rest

/-- One more character before what stops a scan. -/
def consText (c : Char) (scan : List Char × List Char) : List Char × List Char :=
  (c :: scan.1, scan.2)

/-- The text up to a character that stops it, and what follows. -/
def scanClosed (stop : Char → Bool) : Nat → Bool → List Char → List Char × List Char
  | _, _, [] => ([], [])
  | depth, quoted, c :: rest =>
    if c = '"' then consText c (scanClosed stop depth (!quoted) rest)
    else if quoted then consText c (scanClosed stop depth quoted rest)
    else if c = '(' then consText c (scanClosed stop (depth + 1) quoted rest)
    else if depth = 0 then
      if stop c then ([], c :: rest)
      else consText c (scanClosed stop 0 quoted rest)
    else if c = ')' then consText c (scanClosed stop (depth - 1) quoted rest)
    else consText c (scanClosed stop depth quoted rest)

/-- The text up to the end of a literal, on one line; a quote in it is written
twice. -/
def scanLiteral : List Char → Option (List Char × List Char)
  | [] => none
  | '"' :: '"' :: rest => do
    let (text, rest) ← scanLiteral rest
    some ('"' :: text, rest)
  | '"' :: rest => some ([], rest)
  | '\n' :: _ => none
  | c :: rest => do
    let (text, rest) ← scanLiteral rest
    some (c :: text, rest)

def unaryOp? : Char → Option UnaryOp
  | '+' => some .plus
  | '-' => some .minus
  | '\'' => some .not
  | _ => none

def binaryOp? : List Char → Option (BinaryOp × List Char)
  | '+' :: rest => some (.plus, rest)
  | '-' :: rest => some (.minus, rest)
  | '*' :: rest => some (.times, rest)
  | '/' :: rest => some (.divide, rest)
  | '\\' :: rest => some (.integerDivide, rest)
  | '#' :: rest => some (.modulo, rest)
  | '_' :: rest => some (.concat, rest)
  | '!' :: rest => some (.or, rest)
  | '&' :: rest => some (.and, rest)
  | '=' :: rest => some (.equals, rest)
  | '<' :: rest => some (.less, rest)
  | '>' :: rest => some (.greater, rest)
  | '\'' :: '=' :: rest => some (.notEquals, rest)
  | '\'' :: '<' :: rest => some (.notLess, rest)
  | '\'' :: '>' :: rest => some (.notGreater, rest)
  | '[' :: rest => some (.contains, rest)
  | ']' :: ']' :: rest => some (.follows, rest)
  | _ => none

mutual

def parseAtom : Nat → List Char → Option (Expr × List Char)
  | 0, _ => none
  | _ + 1, [] => none
  | fuel + 1, c :: rest =>
    if c = '"' then do
      let (text, rest) ← scanLiteral rest
      some (.literal text, rest)
    else if c = '(' then do
      let (expr, rest) ← parseExpr fuel rest
      match rest with
      | ')' :: rest => some (.paren expr, rest)
      | _ => none
    else
      match unaryOp? c with
      | some op => do
        let (operand, rest) ← parseAtom fuel rest
        some (.unary op operand, rest)
      | none =>
        if isBreak c then none
        else
          let (text, rest) := scanClosed isBreak 0 false (c :: rest)
          some (.reference text, rest)

def parseExpr : Nat → List Char → Option (Expr × List Char)
  | 0, _ => none
  | fuel + 1, text => do
    let (atom, rest) ← parseAtom fuel text
    parseRest fuel atom rest

def parseRest : Nat → Expr → List Char → Option (Expr × List Char)
  | 0, _, _ => none
  | fuel + 1, left, text =>
    match binaryOp? text with
    | none => some (left, text)
    | some (op, rest) => do
      let (right, rest) ← parseAtom fuel rest
      parseRest fuel (.binary op left right) rest

end

def parse (text : List Char) : Option Expr :=
  match parseExpr (2 * text.length + 2) text with
  | some (expr, []) => some expr
  | _ => none

namespace Expr

def render : Expr → List Char
  | literal text => '"' :: text ++ ['"']
  | reference text => text
  | paren expr => '(' :: expr.render ++ [')']
  | unary op operand => op.symbol :: operand.render
  | binary op left right => left.render ++ (op.symbol ++ right.render)

def isAtom : Expr → Bool
  | binary _ _ _ => false
  | _ => true

/-- Operators stand where the rules of M put them. -/
def wellFormed : Expr → Bool
  | literal text => '"' ∉ text ∧ '\n' ∉ text
  | reference text =>
    text.head?.any (fun c => c ≠ '"' ∧ c ≠ '(') && isClosed isBreak 0 false text
  | paren expr => expr.wellFormed
  | unary _ operand => operand.isAtom && operand.wellFormed
  | binary _ left right => left.wellFormed && (right.isAtom && right.wellFormed)

def size : Expr → Nat
  | literal _ | reference _ => 1
  | paren expr => expr.size + 1
  | unary _ operand => operand.size + 1
  | binary _ left right => left.size + right.size + 1

def operators : Expr → Nat
  | binary _ left _ => left.operators + 1
  | _ => 0

end Expr

/-- The meaning of what expressions are made of. -/
structure Operators (α : Type*) where
  literal : List Char → α
  reference : List Char → α
  unary : UnaryOp → α → α
  binary : BinaryOp → α → α → α

def Expr.eval {α : Type*} (ops : Operators α) : Expr → α
  | literal text => ops.literal text
  | reference text => ops.reference text
  | paren expr => expr.eval ops
  | unary op operand => ops.unary op (operand.eval ops)
  | binary op left right => ops.binary op (left.eval ops) (right.eval ops)

def evalText {α : Type*} (ops : Operators α) (text : List Char) : Option α :=
  (parse text).map (Expr.eval ops)

/-- An atom cannot go on with this text. -/
def Breaks : List Char → Prop
  | [] => True
  | c :: _ => isBreak c = true

theorem Breaks.head {rest : List Char} (hrest : Breaks rest) :
    ∀ c ∈ rest.head?, c ≠ '"' ∧ c ≠ '(' ∧ isBreak c = true := by
  cases rest with
  | nil => nofun
  | cons c rest =>
    rintro _ ⟨⟩
    have hbreak : isBreak c = true := hrest
    refine ⟨?_, ?_, hbreak⟩ <;> rintro rfl <;> simp [isBreak] at hbreak

theorem breaks_symbol (op : BinaryOp) (rest : List Char) : Breaks (op.symbol ++ rest) := by
  cases op <;> rfl

theorem binaryOp?_symbol (op : BinaryOp) (rest : List Char) :
    binaryOp? (op.symbol ++ rest) = some (op, rest) := by
  cases op <;> rfl

theorem unaryOp?_symbol (op : UnaryOp) : unaryOp? op.symbol = some op := by
  cases op <;> rfl

variable {rest text : List Char}

theorem scanLiteral_append (htext : '"' ∉ text ∧ '\n' ∉ text) (hrest : Breaks rest) :
    scanLiteral (text ++ '"' :: rest) = some (text, rest) := by
  induction text with
  | nil =>
    cases rest with
    | nil => rfl
    | cons c rest =>
      simp [scanLiteral, (hrest.head c rfl).1]
  | cons c text ih =>
    simp only [mem_cons, not_or] at htext
    have hc : c ≠ '"' := fun heq => htext.1.1 heq.symm
    rw [cons_append, scanLiteral]
    · simp [ih ⟨htext.1.2, htext.2.2⟩]
    · exact fun _ heq _ => hc heq
    · exact fun heq => hc heq
    · exact fun heq => htext.2.1 heq.symm

/-- A scan goes up to the first character that stops it. -/
theorem scanClosed_append {stop : Char → Bool} {depth : Nat} {quoted : Bool}
    (htext : isClosed stop depth quoted text = true)
    (hrest : ∀ c ∈ rest.head?, c ≠ '"' ∧ c ≠ '(' ∧ stop c = true) :
    scanClosed stop depth quoted (text ++ rest) = (text, rest) := by
  induction text generalizing depth quoted with
  | nil =>
    simp only [isClosed, and_eq_true, beq_iff_eq, not_eq_true'] at htext
    cases rest with
    | nil => rfl
    | cons c rest => simp [scanClosed, htext, hrest c rfl]
  | cons d text ih =>
    rw [isClosed] at htext
    rw [cons_append, scanClosed]
    split_ifs at htext ⊢ with hquote hquoted hopen hdepth hstop hclose
    · rw [ih htext, consText]
    · rw [ih htext, consText]
    · rw [ih htext, consText]
    · simp [hstop] at htext
    · rw [and_eq_true] at htext
      rw [ih htext.2, consText]
    · rw [ih htext, consText]
    · rw [ih htext, consText]

namespace Expr

theorem operators_lt_size (expr : Expr) : expr.operators < expr.size := by
  induction expr with
  | binary op left right ihLeft _ =>
    rw [operators, size]
    omega
  | _ => simp [operators, size]

variable {expr : Expr}

theorem operators_of_isAtom (hatom : expr.isAtom = true) : expr.operators = 0 := by
  cases expr with
  | binary op left right => simp [isAtom] at hatom
  | _ => rfl

/-- Reading the text of an expression ends before the text that breaks it. -/
structure Reads (expr : Expr) : Prop where
  atom : expr.isAtom = true → ∀ fuel rest, 2 * expr.size ≤ fuel → Breaks rest →
    parseAtom fuel (expr.render ++ rest) = some (expr, rest)
  expr : ∀ fuel rest, 2 * expr.size ≤ fuel + expr.operators → Breaks rest →
    parseExpr (fuel + expr.operators + 1) (expr.render ++ rest) = parseRest fuel expr rest

/-- An atom is an expression without operators. -/
theorem Reads.of_atom (hatom : expr.isAtom = true)
    (hreads : ∀ fuel rest, 2 * expr.size ≤ fuel → Breaks rest →
    parseAtom fuel (expr.render ++ rest) = some (expr, rest)) : expr.Reads where
  atom := fun _ => hreads
  expr := by
    intro fuel rest hfuel hrest
    rw [operators_of_isAtom hatom] at hfuel
    rw [operators_of_isAtom hatom, parseExpr, hreads fuel rest hfuel hrest]
    rfl

variable {text : List Char}

theorem reads_literal (htext : (literal text).wellFormed = true) : (literal text).Reads := by
  apply Reads.of_atom rfl
  intro fuel rest hfuel hrest
  obtain ⟨fuel, rfl⟩ := Nat.exists_eq_add_of_lt (Nat.lt_of_lt_of_le
    (by simp [size] : 0 < 2 * (literal text).size) hfuel)
  have hnot : '"' ∉ text ∧ '\n' ∉ text := by simpa [wellFormed] using htext
  have hscan := scanLiteral_append hnot hrest
  simp [render, parseAtom, hscan]

theorem reads_reference (htext : (reference text).wellFormed = true) : (reference text).Reads := by
  apply Reads.of_atom rfl
  intro fuel rest hfuel hrest
  obtain ⟨fuel, rfl⟩ := Nat.exists_eq_add_of_lt (Nat.lt_of_lt_of_le
    (by simp [size] : 0 < 2 * (reference text).size) hfuel)
  rw [wellFormed, and_eq_true] at htext
  obtain ⟨hhead, hreference⟩ := htext
  cases text with
  | nil => simp at hhead
  | cons c text =>
    have hc : c ≠ '"' ∧ c ≠ '(' := by simpa using hhead
    have hscan := scanClosed_append hreference hrest.head
    have hbreak : isBreak c = false := by
      rw [isClosed] at hreference
      simp only [hc.1, hc.2, false_eq_true, if_false, if_true,
        and_eq_true, not_eq_true'] at hreference
      exact hreference.1
    have hunary : unaryOp? c = none := by
      cases hop : unaryOp? c with
      | none => rfl
      | some op =>
        unfold unaryOp? at hop
        split at hop <;> simp_all [isBreak]
    rw [cons_append] at hscan
    simp [render, parseAtom, hc, hunary, hbreak, hscan]

theorem reads_paren (hreads : expr.Reads) : (paren expr).Reads := by
  apply Reads.of_atom rfl
  intro fuel rest hfuel hrest
  have hoperators := expr.operators_lt_size
  rw [size] at hfuel
  obtain ⟨more, rfl⟩ : ∃ more, fuel = more + expr.operators + 1 + 1 :=
    ⟨fuel - expr.operators - 2, by omega⟩
  obtain ⟨more, rfl⟩ : ∃ less, more = less + 1 := ⟨more - 1, by omega⟩
  have hexpr := hreads.expr (more + 1) (')' :: rest) (by omega) rfl
  have hend : parseRest (more + 1) expr (')' :: rest) = some (expr, ')' :: rest) := rfl
  rw [hend] at hexpr
  simp [render, parseAtom, hexpr]

theorem reads_unary {operand : Expr} (op : UnaryOp) (hreads : operand.Reads)
    (hatom : operand.isAtom = true) : (unary op operand).Reads := by
  apply Reads.of_atom rfl
  intro fuel rest hfuel hrest
  rw [size] at hfuel
  obtain ⟨fuel, rfl⟩ : ∃ less, fuel = less + 1 := ⟨fuel - 1, by omega⟩
  have hoperand := hreads.atom hatom fuel rest (by omega) hrest
  have hsymbol : op.symbol ≠ '"' ∧ op.symbol ≠ '(' := by
    cases op <;> decide
  simp [render, parseAtom, hsymbol, unaryOp?_symbol, hoperand]

theorem reads_binary {left right : Expr} (op : BinaryOp) (hleft : left.Reads) (hright : right.Reads)
    (hatom : right.isAtom = true) : (binary op left right).Reads where
  atom := fun h => by simp [isAtom] at h
  expr := by
    intro fuel rest hfuel hrest
    rw [size, operators] at hfuel
    have hoperators := left.operators_lt_size
    have hbefore := hleft.expr (fuel + 1) (op.symbol ++ (right.render ++ rest))
      (by omega) (breaks_symbol op _)
    rw [render, append_assoc, append_assoc, operators,
      show fuel + (left.operators + 1) + 1 = fuel + 1 + left.operators + 1 by
        omega, hbefore, parseRest, binaryOp?_symbol]
    simp [hright.atom hatom fuel rest (by omega) hrest]

theorem reads_of_wellFormed (hexpr : expr.wellFormed = true) :
    expr.Reads := by
  induction expr with
  | literal text => exact reads_literal hexpr
  | reference text => exact reads_reference hexpr
  | paren expr ih => exact reads_paren (ih hexpr)
  | unary op operand ih =>
    rw [wellFormed, and_eq_true] at hexpr
    exact reads_unary op (ih hexpr.2) hexpr.1
  | binary op left right ihLeft ihRight =>
    rw [wellFormed, and_eq_true, and_eq_true] at hexpr
    exact reads_binary op (ihLeft hexpr.1) (ihRight hexpr.2.2) hexpr.2.1

theorem size_le_length (hexpr : expr.wellFormed = true) : expr.size ≤ expr.render.length := by
  induction expr with
  | literal text => simp [size, render]
  | reference text =>
    cases text with
    | nil => simp [wellFormed] at hexpr
    | cons c text => simp [size, render]
  | paren expr ih =>
    have := ih hexpr
    simp only [size, render, length_append, length_cons, length_nil]
    omega
  | unary op operand ih =>
    rw [wellFormed, and_eq_true] at hexpr
    have := ih hexpr.2
    simp only [size, render, length_cons]
    omega
  | binary op left right ihLeft ihRight =>
    rw [wellFormed, and_eq_true, and_eq_true] at hexpr
    have hleft := ihLeft hexpr.1
    have hright := ihRight hexpr.2.2
    have hsymbol : 1 ≤ op.symbol.length := by cases op <;> decide
    simp only [size, render, length_append]
    omega

end Expr

variable {expr : Expr}

/-- What is written is read back. -/
theorem parse_render (hexpr : expr.wellFormed = true) : parse expr.render = some expr := by
  have hsize := Expr.size_le_length hexpr
  have hoperators := expr.operators_lt_size
  obtain ⟨more, hmore⟩ : ∃ more, 2 * expr.render.length + 2 = (more + 1) + expr.operators + 1 :=
    ⟨2 * expr.render.length - expr.operators, by omega⟩
  have hreads := (Expr.reads_of_wellFormed hexpr).expr (more + 1) [] (by omega) trivial
  rw [append_nil] at hreads
  rw [parse, hmore, hreads]
  rfl

theorem evalText_render {α : Type*} (ops : Operators α)
    (hexpr : expr.wellFormed = true) : evalText ops expr.render = some (expr.eval ops) := by
  rw [evalText, parse_render hexpr]
  rfl

namespace Expr

/-- Write a unary operator before an expression: it applies to the first
atom. -/
def unaryBefore (op : UnaryOp) : Expr → Expr
  | binary other left right => binary other (unaryBefore op left) right
  | expr => unary op expr

/-- Write an expression after another and a binary operator: this applies to
the first atom. -/
def binaryBefore (op : BinaryOp) (before : Expr) : Expr → Expr
  | binary other left right => binary other (binaryBefore op before left) right
  | expr => binary op before expr

section Before

variable {expr before : Expr}

@[simp] theorem render_unaryBefore (op : UnaryOp) (expr : Expr) :
    (unaryBefore op expr).render = op.symbol :: expr.render := by
  induction expr with
  | binary other left right ihLeft _ =>
    simp [unaryBefore, render, ihLeft]
  | _ => rfl

@[simp] theorem render_binaryBefore (op : BinaryOp) (before expr : Expr) :
    (binaryBefore op before expr).render = before.render ++ (op.symbol ++ expr.render) := by
  induction expr with
  | binary other left right ihLeft _ =>
    simp [binaryBefore, render, ihLeft]
  | _ => rfl

theorem wellFormed_unaryBefore (op : UnaryOp) (hexpr : expr.wellFormed = true) :
    (unaryBefore op expr).wellFormed = true := by
  induction expr with
  | binary other left right ihLeft _ =>
    rw [wellFormed, and_eq_true] at hexpr
    rw [unaryBefore, wellFormed, and_eq_true]
    exact ⟨ihLeft hexpr.1, hexpr.2⟩
  | _ => simpa [unaryBefore, wellFormed, isAtom] using hexpr

theorem wellFormed_binaryBefore (op : BinaryOp) (hbefore : before.wellFormed = true)
    (hexpr : expr.wellFormed = true) : (binaryBefore op before expr).wellFormed = true := by
  induction expr with
  | binary other left right ihLeft _ =>
    rw [wellFormed, and_eq_true] at hexpr
    rw [binaryBefore, wellFormed, and_eq_true]
    exact ⟨ihLeft hexpr.1, hexpr.2⟩
  | _ => simpa [binaryBefore, wellFormed, isAtom, hbefore] using hexpr

end Before

section Behind

variable {α : Type*} (ops : Operators α)

/-- The value that is read if an operator stands before an expression: it is
applied to the first atom. -/
def evalBehind (apply : α → α) : Expr → α
  | binary op left right => ops.binary op (evalBehind apply left) (right.eval ops)
  | expr => apply (expr.eval ops)

theorem eval_unaryBefore (op : UnaryOp) (expr : Expr) :
    (unaryBefore op expr).eval ops = expr.evalBehind ops (ops.unary op) := by
  induction expr with
  | binary other left right ihLeft _ => rw [unaryBefore, eval, ihLeft, evalBehind]
  | _ => rfl

theorem eval_binaryBefore (op : BinaryOp) (before expr : Expr) :
    (binaryBefore op before expr).eval ops =
      expr.evalBehind ops (ops.binary op (before.eval ops)) := by
  induction expr with
  | binary other left right ihLeft _ => rw [binaryBefore, eval, ihLeft, evalBehind]
  | _ => rfl

theorem evalBehind_unaryBefore (op : UnaryOp) (apply : α → α) (expr : Expr) :
    (unaryBefore op expr).evalBehind ops apply =
      expr.evalBehind ops fun value => apply (ops.unary op value) := by
  induction expr with
  | binary other left right ihLeft _ => rw [unaryBefore, evalBehind, ihLeft, evalBehind]
  | _ => rfl

end Behind

end Expr

section Quoted

variable {rest text value : List Char}

/-- Each quote in a literal is read from two.  No literal goes over the end of
a line. -/
theorem scanLiteral_spec (hscan : scanLiteral text = some (value, rest)) :
    text.length = value.length + value.count '"' + rest.length + 1 ∧ '\n' ∉ value := by
  fun_induction scanLiteral text generalizing value rest with
  | case1 => cases hscan
  | case2 text ih =>
    simp only [bind_eq_bind, bind_eq_some_iff, some.injEq, Prod.mk.injEq] at hscan
    obtain ⟨⟨read, behind⟩, hread, rfl, rfl⟩ := hscan
    obtain ⟨hlength, hline⟩ := ih hread
    simp only [length_cons, count_cons_self]
    exact ⟨by omega, by simpa using hline⟩
  | case3 text =>
    cases hscan
    simp
  | case4 => cases hscan
  | case5 c text _ hquote hend ih =>
    simp only [bind_eq_bind, bind_eq_some_iff, some.injEq, Prod.mk.injEq] at hscan
    obtain ⟨⟨read, behind⟩, hread, rfl, rfl⟩ := hscan
    obtain ⟨hlength, hline⟩ := ih hread
    have hc : c ≠ '"' := hquote
    simp only [length_cons, count_cons_of_ne hc]
    exact ⟨by omega, by simpa [hline] using Ne.symm hend⟩

/-- No operator gives a literal. -/
theorem parseRest_eq_literal {fuel : Nat} {left : Expr}
    (hparse : parseRest fuel left text = some (.literal value, rest)) :
    left = .literal value ∧ text = rest := by
  induction fuel generalizing left text with
  | zero => cases hparse
  | succ fuel ih =>
    rw [parseRest] at hparse
    split at hparse
    · cases hparse
      exact ⟨rfl, rfl⟩
    · simp only [bind_eq_bind, bind_eq_some_iff] at hparse
      obtain ⟨⟨right, behind⟩, -, hparse⟩ := hparse
      cases (ih hparse).1

/-- A text in quotes is a literal of this value only if it has no quotes and is
on one line. -/
theorem parse_quoted_iff (text : List Char) :
    parse ('"' :: text ++ ['"']) = some (.literal text) ↔ '"' ∉ text ∧ '\n' ∉ text := by
  constructor
  · intro hparse
    rw [parse] at hparse
    split at hparse
    · rename_i expr hexpr
      cases hparse
      simp only [parseExpr, bind_eq_bind, bind_eq_some_iff] at hexpr
      obtain ⟨⟨atom, rest⟩, hatom, hrest⟩ := hexpr
      obtain ⟨rfl, rfl⟩ := parseRest_eq_literal hrest
      simp only [length_append, length_cons, cons_append, parseAtom, if_true, bind_eq_bind,
        bind_eq_some_iff, some.injEq, Prod.mk.injEq, Expr.literal.injEq] at hatom
      obtain ⟨⟨read, behind⟩, hscan, rfl, rfl⟩ := hatom
      obtain ⟨hlength, hline⟩ := scanLiteral_spec hscan
      rw [length_append, length_singleton, length_nil] at hlength
      dsimp only at hlength hline ⊢
      exact ⟨count_eq_zero.mp (by omega), hline⟩
    · cases hparse
  · intro htext
    have hliteral : (Expr.literal text).wellFormed = true := by
      simpa [Expr.wellFormed] using htext
    exact parse_render hliteral

end Quoted

end MExpression
