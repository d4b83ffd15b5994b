import Lox.Machine.Operator
import Lox.Proofs.Grammar

/-!
# Proper trees

A tree is proper if execution knows what to do at every node of it: operators are of a kind that is
defined at their place, there are no nodes without content, and a return stands in the body of a
function.
-/

namespace Lox

/-- The operators of an expression are known where they stand, and it has no empty nodes. -/
inductive Expr.Proper : Expr → Prop
  | literal (value : Atom) : Proper (.literal value)
  | var (name : Token) : Proper (.var name)
  | assign (name : Token) {value : Expr} (h : Proper value) : Proper (.assign name value)
  | unary {operator : Token} {operand : Expr} (hoperator : operator.kind ∈ Grammar.signs)
      (h : Proper operand) : Proper (.unary operator operand)
  | binary {operator : Token} {left right : Expr} (hoperator : Eval.isBinary operator.kind = true)
      (hleft : Proper left) (hright : Proper right) : Proper (.binary operator left right)
  | logical {operator : Token} {left right : Expr}
      (hoperator : operator.kind = .kwAnd ∨ operator.kind = .kwOr)
      (hleft : Proper left) (hright : Proper right) : Proper (.logical operator left right)
  | call {callee : Expr} (paren : Token) {arguments : List Expr} (hcallee : Proper callee)
      (harguments : ∀ argument ∈ arguments, Proper argument) :
      Proper (.call callee paren arguments)
  | grouping {inner : Expr} (h : Proper inner) : Proper (.grouping inner)

/-- All expressions in a statement are proper, it has no empty nodes, and unless it stands `inside`
a function, its returns do. -/
inductive Stmt.Proper : (inside : Bool) → Stmt → Prop
  | block {inside : Bool} {body : List Stmt} (h : ∀ s ∈ body, Proper inside s) :
      Proper inside (.block body)
  | empty {inside : Bool} : Proper inside .empty
  | expression {inside : Bool} {value : Expr} (h : value.Proper) :
      Proper inside (.expression value)
  | function {inside : Bool} (name : Token) (params : List Token) {body : List Stmt}
      (h : ∀ s ∈ body, Proper true s) : Proper inside (.function name params body)
  | branch {inside : Bool} {condition : Expr} {yes : Stmt} {no : Option Stmt}
      (hcondition : condition.Proper) (hyes : Proper inside yes)
      (hno : ∀ s ∈ no, Proper inside s) : Proper inside (.branch condition yes no)
  | print {inside : Bool} {value : Expr} (h : value.Proper) : Proper inside (.print value)
  | ret (keyword : Token) {value : Option Expr} (h : ∀ e ∈ value, e.Proper) :
      Proper true (.ret keyword value)
  | declare {inside : Bool} (name : Token) {initial : Option Expr}
      (h : ∀ e ∈ initial, e.Proper) : Proper inside (.declare name initial)
  | loop {inside : Bool} {condition : Expr} {body : Stmt} (hcondition : condition.Proper)
      (hbody : Proper inside body) : Proper inside (.loop condition body)

/-- A property of statements that is inherited: a statement is `fit` if the statements in it are and
the expressions in it are `good`.  Outside of a function there need not be a return that is fit. -/
structure Stmt.Inherits (good : Expr → Prop) (fit : (inside : Bool) → Stmt → Prop) : Prop where
  block : ∀ {inside body}, (∀ s ∈ body, fit inside s) → fit inside (.block body)
  empty : ∀ {inside}, fit inside .empty
  expression : ∀ {inside value}, good value → fit inside (.expression value)
  function : ∀ {inside} name params {body}, (∀ s ∈ body, fit true s) →
    fit inside (.function name params body)
  branch : ∀ {inside condition yes no}, good condition → fit inside yes →
    (∀ s ∈ no, fit inside s) → fit inside (.branch condition yes no)
  print : ∀ {inside value}, good value → fit inside (.print value)
  ret : ∀ keyword {value}, (∀ e ∈ value, good e) → fit true (.ret keyword value)
  declare : ∀ {inside} name {initial}, (∀ e ∈ initial, good e) → fit inside (.declare name initial)
  loop : ∀ {inside condition body}, good condition → fit inside body →
    fit inside (.loop condition body)
  /-- The condition of a loop that has none. -/
  forever : good (.literal (.bool true))

/-- What a loop with clauses stands for is fit if the clauses and the body are. -/
theorem Stmt.Inherits.expanded {good : Expr → Prop} {fit : Bool → Stmt → Prop}
    (h : Stmt.Inherits good fit) (inside : Bool) {initial : Option Stmt}
    {condition step : Option Expr} {body : Stmt} (hinitial : ∀ s ∈ initial, fit inside s)
    (hcondition : ∀ e ∈ condition, good e) (hstep : ∀ e ∈ step, good e)
    (hbody : fit inside body) : fit inside (Grammar.expanded initial condition step body) := by
  have htest : good (condition.getD (.literal (.bool true))) := by
    cases condition with
    | none => exact h.forever
    | some condition => exact hcondition condition rfl
  have hopened {loop : Stmt} (hloop : fit inside loop) :
      ∀ first ∈ initial, fit inside (.block [first, loop]) := by
    intro first hfirst
    exact h.block (by simpa using ⟨hinitial first hfirst, hloop⟩)
  cases step with
  | none =>
    have hloop := h.loop htest hbody
    cases initial with
    | none => exact hloop
    | some first => exact hopened hloop first rfl
  | some step =>
    have hround : fit inside (.block [body, .expression step]) :=
      h.block (by simpa using ⟨hbody, h.expression (hstep step rfl)⟩)
    have hloop := h.loop htest hround
    cases initial with
    | none => exact hloop
    | some first => exact hopened hloop first rfl

theorem Stmt.Proper.inherits : Stmt.Inherits Expr.Proper Stmt.Proper where
  block := .block
  empty := .empty
  expression := .expression
  function := .function
  branch := .branch
  print := .print
  ret := .ret
  declare := .declare
  loop := .loop
  forever := .literal _

end Lox
