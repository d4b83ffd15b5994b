import Lox.Precedence
import Lox.Tree

/-!
# The grammar of programs

What a program is, said without a parser.  Expressions are stratified by precedence: a phrase of a
level is made of phrases of that level and of tighter ones.  The levels from `or` to `factor` group
their operands from the left, assignment groups from the right and assigns to a bare name.

An `else` belongs to the nearest `if` that can take it.  A statement is therefore derived together
with the information whether it is shut, which means that no `if` is left open at its end, and only
a shut statement can stand before `else`.  A loop with clauses stands for the loop without clauses
that it abbreviates.
-/

namespace Lox

/-- The level just above; there is none above the tightest. -/
def Precedence.tighter : Precedence → Precedence
  | .none => .assignment
  | .assignment => .or
  | .or => .and
  | .and => .equality
  | .equality => .comparison
  | .comparison => .term
  | .term => .factor
  | .factor => .unary
  | .unary => .call
  | .call | .primary => .primary

namespace Grammar

/-! ## Expressions -/

def operators : Precedence → List Kind
  | .or => [.kwOr]
  | .and => [.kwAnd]
  | .equality => [.equalEqual, .bangEqual]
  | .comparison => [.less, .lessEqual, .greater, .greaterEqual]
  | .term => [.plus, .minus]
  | .factor => [.star, .slash]
  | _ => []

def signs : List Kind := [.bang, .minus]

/-- The value of a token that is an expression by itself. -/
def literal? (token : Token) : Option Atom :=
  match token.kind with
  | .kwFalse => some (.bool false)
  | .kwTrue => some (.bool true)
  | .kwNil => some .nil
  | .number | .string => some token.literal
  | _ => none

def joined (operator : Token) (left right : Expr) : Expr :=
  if operator.kind = .kwAnd ∨ operator.kind = .kwOr then .logical operator left right
  else .binary operator left right

mutual

/-- The tokens are a phrase of the level, with the given tree. -/
inductive Phrase : Precedence → List Token → Expr → Prop
  | literal {token : Token} {value : Atom} (h : literal? token = some value) :
      Phrase .primary [token] (.literal value)
  | name {token : Token} (h : token.kind = .identifier) : Phrase .primary [token] (.var token)
  | grouping {opening closing : Token} {tokens : List Token} {inner : Expr}
      (hopening : opening.kind = .leftParen) (hinner : Phrase .assignment tokens inner)
      (hclosing : closing.kind = .rightParen) :
      Phrase .primary (opening :: (tokens ++ [closing])) (.grouping inner)
  | call {opening closing : Token} {tokens : List Token} {callee : Expr}
      (hcallee : Phrase .call tokens callee) (hopening : opening.kind = .leftParen)
      (hclosing : closing.kind = .rightParen) :
      Phrase .call (tokens ++ [opening, closing]) (.call callee closing [])
  | callWith {opening closing : Token} {tokens inside : List Token} {callee : Expr}
      {arguments : List Expr} (hcallee : Phrase .call tokens callee)
      (hopening : opening.kind = .leftParen) (harguments : Arguments inside arguments)
      (hclosing : closing.kind = .rightParen) :
      Phrase .call (tokens ++ opening :: (inside ++ [closing])) (.call callee closing arguments)
  | signed {operator : Token} {tokens : List Token} {operand : Expr}
      (hoperator : operator.kind ∈ signs) (hoperand : Phrase .unary tokens operand) :
      Phrase .unary (operator :: tokens) (.unary operator operand)
  | operation {level : Precedence} {operator : Token} {before after : List Token}
      {left right : Expr} (hleft : Phrase level before left)
      (hoperator : operator.kind ∈ operators level) (hright : Phrase level.tighter after right) :
      Phrase level (before ++ operator :: after) (joined operator left right)
  | assignment {name equals : Token} {tokens : List Token} {value : Expr}
      (hname : name.kind = .identifier) (hequals : equals.kind = .equal)
      (hvalue : Phrase .assignment tokens value) :
      Phrase .assignment (name :: equals :: tokens) (.assign name value)
  | tighter {level : Precedence} {tokens : List Token} {tree : Expr}
      (h : Phrase level.tighter tokens tree) : Phrase level tokens tree

inductive Arguments : List Token → List Expr → Prop
  | one {tokens : List Token} {argument : Expr} (h : Phrase .assignment tokens argument) :
      Arguments tokens [argument]
  | more {comma : Token} {tokens others : List Token} {argument : Expr} {arguments : List Expr}
      (h : Phrase .assignment tokens argument) (hcomma : comma.kind = .comma)
      (hothers : Arguments others arguments) :
      Arguments (tokens ++ comma :: others) (argument :: arguments)

end

abbrev Expression : List Token → Expr → Prop := Phrase .assignment

def Expression? (tokens : List Token) : Option Expr → Prop
  | some value => Expression tokens value
  | none => tokens = []

/-! ## Statements without statements inside -/

/-- What follows a declared name: an equals sign and an expression, or nothing. -/
def Initializer (tokens : List Token) : Option Expr → Prop
  | some value =>
    ∃ equals after, tokens = equals :: after ∧ equals.kind = .equal ∧ Expression after value
  | none => tokens = []

inductive VariableDeclaration : List Token → Stmt → Prop
  | intro {keyword name semicolon : Token} {tokens : List Token} {initial : Option Expr}
      (hkeyword : keyword.kind = .kwVar) (hname : name.kind = .identifier)
      (hinitial : Initializer tokens initial) (hsemicolon : semicolon.kind = .semicolon) :
      VariableDeclaration (keyword :: name :: (tokens ++ [semicolon])) (.declare name initial)

inductive ExpressionStatement : List Token → Stmt → Prop
  | intro {semicolon : Token} {tokens : List Token} {value : Expr}
      (hvalue : Expression tokens value) (hsemicolon : semicolon.kind = .semicolon) :
      ExpressionStatement (tokens ++ [semicolon]) (.expression value)

inductive Parameters : List Token → List Token → Prop
  | one {param : Token} (h : param.kind = .identifier) : Parameters [param] [param]
  | more {param comma : Token} {others params : List Token} (h : param.kind = .identifier)
      (hcomma : comma.kind = .comma) (hothers : Parameters others params) :
      Parameters (param :: comma :: others) (param :: params)

def Parameters? (tokens params : List Token) : Prop :=
  tokens = [] ∧ params = [] ∨ Parameters tokens params

inductive FirstClause : List Token → Option Stmt → Prop
  | nothing {semicolon : Token} (h : semicolon.kind = .semicolon) : FirstClause [semicolon] none
  | declaration {tokens : List Token} {initial : Stmt} (h : VariableDeclaration tokens initial) :
      FirstClause tokens (some initial)
  | expression {tokens : List Token} {initial : Stmt} (h : ExpressionStatement tokens initial) :
      FirstClause tokens (some initial)

/-- The loop that a loop with clauses abbreviates: what has to be done in every round is added to
the body, what has to be done at first stands before the loop, and without a condition the loop
goes on forever. -/
def expanded (initial : Option Stmt) (condition step : Option Expr) (body : Stmt) : Stmt :=
  let round := match step with
    | none => body
    | some step => .block [body, .expression step]
  let loop := Stmt.loop (condition.getD (.literal (.bool true))) round
  match initial with
  | none => loop
  | some initial => .block [initial, loop]

/-! ## Statements and declarations -/

mutual

/-- The tokens are a statement with the given tree.  A return can only stand `inside` a function,
and no `if` is open at the end of a statement that is `shut`. -/
inductive Statement : (inside shut : Bool) → List Token → Stmt → Prop
  | expression {inside shut : Bool} {tokens : List Token} {tree : Stmt}
      (h : ExpressionStatement tokens tree) : Statement inside shut tokens tree
  | print {inside shut : Bool} {keyword semicolon : Token} {tokens : List Token} {value : Expr}
      (hkeyword : keyword.kind = .kwPrint) (hvalue : Expression tokens value)
      (hsemicolon : semicolon.kind = .semicolon) :
      Statement inside shut (keyword :: (tokens ++ [semicolon])) (.print value)
  | block {inside shut : Bool} {opening closing : Token} {tokens : List Token} {body : List Stmt}
      (hopening : opening.kind = .leftBrace) (hbody : Declarations inside tokens body)
      (hclosing : closing.kind = .rightBrace) :
      Statement inside shut (opening :: (tokens ++ [closing])) (.block body)
  | branch {inside : Bool} {keyword opening closing : Token} {test tokens : List Token}
      {condition : Expr} {yes : Stmt} (hkeyword : keyword.kind = .kwIf)
      (hopening : opening.kind = .leftParen) (hcondition : Expression test condition)
      (hclosing : closing.kind = .rightParen) (hyes : Statement inside false tokens yes) :
      Statement inside false (keyword :: opening :: (test ++ closing :: tokens))
        (.branch condition yes none)
  | branchElse {inside shut : Bool} {keyword opening closing otherwise : Token}
      {test tokens others : List Token} {condition : Expr} {yes no : Stmt}
      (hkeyword : keyword.kind = .kwIf) (hopening : opening.kind = .leftParen)
      (hcondition : Expression test condition) (hclosing : closing.kind = .rightParen)
      (hyes : Statement inside true tokens yes) (hotherwise : otherwise.kind = .kwElse)
      (hno : Statement inside shut others no) :
      Statement inside shut
        (keyword :: opening :: (test ++ closing :: (tokens ++ otherwise :: others)))
        (.branch condition yes (some no))
  | loop {inside shut : Bool} {keyword opening closing : Token} {test tokens : List Token}
      {condition : Expr} {body : Stmt} (hkeyword : keyword.kind = .kwWhile)
      (hopening : opening.kind = .leftParen) (hcondition : Expression test condition)
      (hclosing : closing.kind = .rightParen) (hbody : Statement inside shut tokens body) :
      Statement inside shut (keyword :: opening :: (test ++ closing :: tokens))
        (.loop condition body)
  | clauses {inside shut : Bool} {keyword opening semicolon closing : Token}
      {first test last tokens : List Token} {initial : Option Stmt} {condition step : Option Expr}
      {body : Stmt} (hkeyword : keyword.kind = .kwFor) (hopening : opening.kind = .leftParen)
      (hinitial : FirstClause first initial) (hcondition : Expression? test condition)
      (hsemicolon : semicolon.kind = .semicolon) (hstep : Expression? last step)
      (hclosing : closing.kind = .rightParen) (hbody : Statement inside shut tokens body) :
      Statement inside shut
        (keyword :: opening :: (first ++ (test ++ semicolon :: (last ++ closing :: tokens))))
        (expanded initial condition step body)
  | ret {shut : Bool} {keyword semicolon : Token} {tokens : List Token} {value : Option Expr}
      (hkeyword : keyword.kind = .kwReturn) (hvalue : Expression? tokens value)
      (hsemicolon : semicolon.kind = .semicolon) :
      Statement true shut (keyword :: (tokens ++ [semicolon])) (.ret keyword value)
  | empty {inside shut : Bool} {semicolon : Token} (hsemicolon : semicolon.kind = .semicolon) :
      Statement inside shut [semicolon] .empty

inductive Declaration : (inside : Bool) → List Token → Stmt → Prop
  | var {inside : Bool} {tokens : List Token} {tree : Stmt}
      (h : VariableDeclaration tokens tree) : Declaration inside tokens tree
  | function {inside : Bool} {keyword name opening closing brace final : Token}
      {inner tokens params : List Token} {body : List Stmt} (hkeyword : keyword.kind = .kwFun)
      (hname : name.kind = .identifier) (hopening : opening.kind = .leftParen)
      (hparams : Parameters? inner params) (hclosing : closing.kind = .rightParen)
      (hbrace : brace.kind = .leftBrace) (hbody : Declarations true tokens body)
      (hfinal : final.kind = .rightBrace) :
      Declaration inside
        (keyword :: name :: opening :: (inner ++ closing :: brace :: (tokens ++ [final])))
        (.function name params body)
  | statement {inside : Bool} {tokens : List Token} {tree : Stmt}
      (h : Statement inside false tokens tree) : Declaration inside tokens tree

inductive Declarations : (inside : Bool) → List Token → List Stmt → Prop
  | nil {inside : Bool} : Declarations inside [] []
  | cons {inside : Bool} {tokens others : List Token} {tree : Stmt} {trees : List Stmt}
      (h : Declaration inside tokens tree) (hothers : Declarations inside others trees) :
      Declarations inside (tokens ++ others) (tree :: trees)

end

/-- The tokens are a program: declarations and the mark of the end. -/
inductive Program : List Token → List Stmt → Prop
  | intro {tokens : List Token} {trees : List Stmt} {mark : Token}
      (h : Declarations false tokens trees) (hmark : mark.kind = .eof) :
      Program (tokens ++ [mark]) trees

/-! ## One program after another -/

/-- Programs can be written one behind the other. -/
theorem Declarations.append {inside : Bool} {tokens others : List Token} {trees rest : List Stmt}
    (h : Declarations inside tokens trees) (hothers : Declarations inside others rest) :
    Declarations inside (tokens ++ others) (trees ++ rest) := by
  induction trees generalizing tokens with
  | nil =>
    cases h
    exact hothers
  | cons tree trees ih =>
    cases h with
    | cons h hmore =>
      rw [List.append_assoc]
      exact .cons h (ih hmore)

/-- The tokens of one program without the mark of their end, and then those of another, are the
program that consists of both. -/
theorem Program.append {tokens others : List Token} {mark : Token} {trees rest : List Stmt}
    (h : Program (tokens ++ [mark]) trees) (hothers : Program others rest) :
    Program (tokens ++ others) (trees ++ rest) := by
  generalize htokens : tokens ++ [mark] = marked at h
  obtain ⟨h, -⟩ := h
  obtain ⟨rfl, -⟩ := List.append_inj' htokens rfl
  obtain ⟨hothers, hmark⟩ := hothers
  rw [← List.append_assoc]
  exact .intro (h.append hothers) hmark

end Grammar

end Lox
