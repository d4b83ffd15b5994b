import Lox.Proofs.Parse.ExprCompleteness

/-!
# All statements are read

A statement of the grammar is read to its end, with its tree and without a fault, if enough levels
may be opened.  A statement whose last `if` is open must not be followed by `else`, since that would
be taken as part of it.
-/

namespace Lox

open Stateful

namespace Grammar

/-! ## First tokens -/

def beginsStatement : Kind → Bool
  | .kwPrint | .leftBrace | .kwIf | .kwWhile | .kwFor | .kwReturn | .semicolon => true
  | kind => opensExpression kind

def beginsDeclaration : Kind → Bool
  | .kwVar | .kwFun => true
  | kind => beginsStatement kind

theorem ExpressionStatement.opens {tokens : List Token} {tree : Stmt}
    (h : ExpressionStatement tokens tree) : Opens tokens := by
  obtain ⟨hvalue, -⟩ := h
  exact hvalue.opens.append _

theorem beginsStatement_of_opensExpression {kind : Kind} (h : opensExpression kind = true) :
    beginsStatement kind = true := by
  unfold beginsStatement
  split
  all_goals first | rfl | exact h

theorem beginsDeclaration_of_beginsStatement {kind : Kind} (h : beginsStatement kind = true) :
    beginsDeclaration kind = true := by
  unfold beginsDeclaration
  split
  all_goals first | rfl | exact h

/-- Every statement begins with a token from which it is recognised. -/
theorem Statement.begins {inside shut : Bool} {tokens : List Token} {tree : Stmt}
    (h : Statement inside shut tokens tree) : Begins beginsStatement tokens := by
  cases h with
  | expression h => exact h.opens.imp fun _ ↦ beginsStatement_of_opensExpression
  | print hkeyword => exact begins_cons hkeyword rfl _
  | block hopening => exact begins_cons hopening rfl _
  | branch hkeyword => exact begins_cons hkeyword rfl _
  | branchElse hkeyword => exact begins_cons hkeyword rfl _
  | loop hkeyword => exact begins_cons hkeyword rfl _
  | clauses hkeyword => exact begins_cons hkeyword rfl _
  | ret hkeyword => exact begins_cons hkeyword rfl _
  | empty hsemicolon => exact begins_cons hsemicolon rfl _

/-- Every declaration begins with a token from which it is recognised. -/
theorem Declaration.begins {inside : Bool} {tokens : List Token} {tree : Stmt}
    (h : Declaration inside tokens tree) : Begins beginsDeclaration tokens := by
  cases h with
  | var h =>
    cases h with
    | intro hkeyword => exact begins_cons hkeyword rfl _
  | function hkeyword => exact begins_cons hkeyword rfl _
  | statement h => exact h.begins.imp fun _ ↦ beginsDeclaration_of_beginsStatement

end Grammar

namespace Parser

open Grammar

/-! ## Statements without statements inside -/

section

variable {size levels : Nat} {rest : List Token}

/-- An expression is read up to a token that is no operator. -/
theorem expression_before {tokens : List Token} {tree : Expr} {mark : Token} {kind : Kind}
    (h : Expression tokens tree) (hmark : mark.kind = kind) (hkind : kind.precedence? = none)
    (hsize : (tokens ++ mark :: rest).length ≤ size) (hlevels : 3 * tokens.length ≤ levels) :
    expression size levels .none (tokens ++ mark :: rest) = .ok tree (mark :: rest) :=
  expression_of_phrase h (stops_of_none (hmark ▸ hkind) .none rest) hsize hlevels

/-- An optional expression before a mark is read if it is there. -/
theorem unlessAt_of_expression? {tokens : List Token} {value : Option Expr} {mark : Token}
    {kind : Kind} (h : Expression? tokens value) (hmark : mark.kind = kind)
    (hkind : kind.precedence? = none) (hopens : opensExpression kind = false)
    (hsize : (tokens ++ mark :: rest).length ≤ size) (hlevels : 3 * tokens.length ≤ levels) :
    unlessAt kind (expression size levels .none) (tokens ++ mark :: rest) =
      .ok value (mark :: rest) := by
  unfold unlessAt
  cases value with
  | none =>
    obtain rfl : tokens = [] := h
    exact ite_of_true (sees_cons hmark rest) _ _
  | some tree =>
    have hne : nextKind? (tokens ++ mark :: rest) ≠ some kind :=
      ((Phrase.opens h).append _).nextKind?_ne hopens
    have hread := expression_before h hmark hkind hsize hlevels
    rw [ite_of_false (sees_of_ne hne), map_of_ok hread]

/-- An initial value is read if there is one. -/
theorem after_of_initializer {tokens : List Token} {initial : Option Expr} {semicolon : Token}
    (h : Initializer tokens initial) (hsemicolon : semicolon.kind = .semicolon)
    (hsize : (tokens ++ semicolon :: rest).length ≤ size) (hlevels : 3 * tokens.length ≤ levels) :
    after .equal (expression size levels .none) (tokens ++ semicolon :: rest) =
      .ok initial (semicolon :: rest) := by
  unfold after
  cases initial with
  | none =>
    obtain rfl : tokens = [] := h
    have hne : nextKind? (semicolon :: rest) ≠ some .equal := by simp [hsemicolon]
    exact ite_of_false (accepts_of_ne hne) _ _
  | some value =>
    obtain ⟨equals, others, rfl, hequals, hvalue⟩ := h
    rw [List.cons_append, List.length_cons] at hsize
    rw [List.length_cons] at hlevels
    have hread := expression_before hvalue hsemicolon rfl (Nat.le_of_succ_le hsize)
      (by omega : 3 * others.length ≤ levels)
    rw [List.cons_append, ite_of_true (accepts_cons hequals _), map_of_ok hread]

/-- The keyword has been taken before. -/
theorem variableDeclaration_of_initializer {name semicolon : Token} {tokens : List Token}
    {initial : Option Expr} (hname : name.kind = .identifier) (h : Initializer tokens initial)
    (hsemicolon : semicolon.kind = .semicolon)
    (hsize : (tokens ++ semicolon :: rest).length ≤ size) (hlevels : 3 * tokens.length ≤ levels) :
    variableDeclaration (expression size levels .none) (name :: (tokens ++ semicolon :: rest)) =
      .ok (.declare name initial) rest := by
  unfold variableDeclaration
  rw [bind_of_ok (expect_cons hname _ _),
    bind_of_ok (after_of_initializer h hsemicolon hsize hlevels),
    bind_of_ok (expectSymbol_cons hsemicolon _ _)]
  rfl

/-- An expression with a semicolon behind it is read as a statement. -/
theorem expressionStatement_of_grammar {tokens : List Token} {tree : Stmt}
    (h : ExpressionStatement tokens tree) (hsize : (tokens ++ rest).length ≤ size)
    (hlevels : 3 * tokens.length ≤ levels + 3) :
    expressionStatement (expression size levels .none) (tokens ++ rest) = .ok tree rest := by
  obtain ⟨hvalue, hsemicolon⟩ := h
  rw [List.append_assoc, List.singleton_append] at hsize ⊢
  rw [List.length_append, List.length_singleton] at hlevels
  unfold expressionStatement
  rw [bind_of_ok (expression_before hvalue hsemicolon rfl hsize (by omega)),
    bind_of_ok (expectSymbol_cons hsemicolon _ _)]
  rfl

theorem printStatement_of_expression {tokens : List Token} {value : Expr} {semicolon : Token}
    (h : Expression tokens value) (hsemicolon : semicolon.kind = .semicolon)
    (hsize : (tokens ++ semicolon :: rest).length ≤ size) (hlevels : 3 * tokens.length ≤ levels) :
    printStatement (expression size levels .none) (tokens ++ semicolon :: rest) =
      .ok (.print value) rest := by
  unfold printStatement
  rw [bind_of_ok (expression_before h hsemicolon rfl hsize hlevels),
    bind_of_ok (expectSymbol_cons hsemicolon _ _)]
  rfl

theorem returnStatement_of_expression? {tokens : List Token} {value : Option Expr}
    {semicolon : Token} (keyword : Token) (h : Expression? tokens value)
    (hsemicolon : semicolon.kind = .semicolon)
    (hsize : (tokens ++ semicolon :: rest).length ≤ size) (hlevels : 3 * tokens.length ≤ levels) :
    returnStatement true (expression size levels .none) keyword (tokens ++ semicolon :: rest) =
      .ok (.ret keyword value) rest := by
  unfold returnStatement
  rw [if_pos rfl, bind_of_ok (unlessAt_of_expression? h hsemicolon rfl rfl hsize hlevels),
    bind_of_ok (expectSymbol_cons hsemicolon _ _)]
  rfl

theorem conditionIn_of_expression {opening closing : Token} {tokens : List Token} {value : Expr}
    (hopening : opening.kind = .leftParen) (h : Expression tokens value)
    (hclosing : closing.kind = .rightParen) (before after : Site)
    (hsize : (tokens ++ closing :: rest).length ≤ size) (hlevels : 3 * tokens.length ≤ levels) :
    conditionIn before after (expression size levels .none)
      (opening :: (tokens ++ closing :: rest)) = .ok value rest := by
  unfold conditionIn
  rw [bind_of_ok (expectSymbol_cons hopening _ _),
    bind_of_ok (expression_before h hclosing rfl hsize hlevels),
    bind_of_ok (expectSymbol_cons hclosing _ _)]
  rfl

/-- The first clause of a loop is read, whichever form it has. -/
theorem firstClause_of_grammar {tokens : List Token} {initial : Option Stmt}
    (h : FirstClause tokens initial) (hsize : (tokens ++ rest).length ≤ size)
    (hlevels : 3 * tokens.length ≤ levels) :
    firstClause (expression size levels .none) (tokens ++ rest) = .ok initial rest := by
  unfold firstClause
  cases h with
  | nothing h => exact ite_of_true (accepts_cons h rest) _ _
  | @declaration tokens initial h =>
    obtain @⟨keyword, name, semicolon, tokens, _, hkeyword, hname, hinitial, hsemicolon⟩ := h
    simp only [List.cons_append, List.append_assoc, List.nil_append, List.length_cons,
      List.length_append, List.length_nil] at hsize hlevels ⊢
    have hlength : (tokens ++ semicolon :: rest).length ≤ size := by
      rw [List.length_append, List.length_cons]
      omega
    have hread := variableDeclaration_of_initializer hname hinitial hsemicolon hlength
      (by omega : 3 * tokens.length ≤ levels)
    rw [ite_of_false (accepts_of_ne (by simp [hkeyword])),
      ite_of_true (accepts_cons hkeyword _), map_of_ok hread]
  | @expression tokens initial h =>
    have hopens := h.opens.append rest
    have hread := expressionStatement_of_grammar h hsize (by omega : _ ≤ levels + 3)
    rw [ite_of_false (accepts_of_ne (hopens.nextKind?_ne rfl)),
      ite_of_false (accepts_of_ne (hopens.nextKind?_ne rfl)), map_of_ok hread]

/-- The clauses of a loop are read one by one. -/
theorem forClauses_of_grammar {opening semicolon closing : Token} {first test last : List Token}
    {initial : Option Stmt} {condition step : Option Expr} (hopening : opening.kind = .leftParen)
    (hinitial : FirstClause first initial) (hcondition : Expression? test condition)
    (hsemicolon : semicolon.kind = .semicolon) (hstep : Expression? last step)
    (hclosing : closing.kind = .rightParen)
    (hsize : (first ++ (test ++ semicolon :: (last ++ closing :: rest))).length ≤ size)
    (hlevels : 3 * (first.length + test.length + last.length) ≤ levels) :
    forClauses (expression size levels .none)
      (opening :: (first ++ (test ++ semicolon :: (last ++ closing :: rest)))) =
        .ok ⟨initial, condition.getD (.literal (.bool true)), step⟩ rest := by
  have hfirst := firstClause_of_grammar hinitial hsize (by omega : _ ≤ levels)
  rw [List.length_append] at hsize
  have htest := unlessAt_of_expression? hcondition hsemicolon rfl rfl
    (by omega : (test ++ semicolon :: (last ++ closing :: rest)).length ≤ size)
    (by omega : _ ≤ levels)
  rw [List.length_append, List.length_cons] at hsize
  have hlast := unlessAt_of_expression? hstep hclosing rfl rfl
    (by omega : (last ++ closing :: rest).length ≤ size) (by omega : _ ≤ levels)
  unfold forClauses
  rw [bind_of_ok (expectSymbol_cons hopening _ _), bind_of_ok hfirst, bind_of_ok htest,
    bind_of_ok (expectSymbol_cons hsemicolon _ _), bind_of_ok hlast,
    bind_of_ok (expectSymbol_cons hclosing _ _)]
  rfl

/-! ## Functions -/

theorem furtherItems_of_parameters {tokens params before : List Token} {closing : Token}
    {count : Nat} (h : Parameters tokens params) (hclosing : closing.kind = .rightParen)
    (hcount : tokens.length ≤ count) :
    (expect .identifier .noParameterName >>= fun param ↦
      furtherItems (expect .identifier .noParameterName) count (param :: before))
        (tokens ++ closing :: rest) = .ok (before.reverse ++ params) (closing :: rest) := by
  induction h generalizing count before with
  | one h =>
    obtain ⟨count, rfl⟩ := Nat.exists_eq_succ_of_ne_zero (Nat.ne_of_gt hcount)
    have hcomma : nextKind? (closing :: rest) ≠ some .comma := by simp [hclosing]
    rw [List.singleton_append, bind_of_ok (expect_cons h _ _), furtherItems,
      ite_of_false (accepts_of_ne hcomma)]
    simp [pure, EStateM.pure]
  | more h hcomma _ ih =>
    rw [List.length_cons, List.length_cons] at hcount
    obtain ⟨count, rfl⟩ := Nat.exists_eq_succ_of_ne_zero (by omega : count ≠ 0)
    rw [List.cons_append, List.cons_append, bind_of_ok (expect_cons h _ _), furtherItems,
      ite_of_true (accepts_cons hcomma _), ih (by omega)]
    simp

theorem commaSeparated_of_parameters? {tokens params : List Token} {closing : Token}
    (h : Parameters? tokens params) (hclosing : closing.kind = .rightParen)
    (hsize : tokens.length ≤ size) :
    commaSeparated size (expect .identifier .noParameterName) (tokens ++ closing :: rest) =
      .ok params (closing :: rest) := by
  unfold commaSeparated
  rcases h with ⟨rfl, rfl⟩ | h
  · exact ite_of_true (sees_cons hclosing rest) _ _
  · have hne : nextKind? (tokens ++ closing :: rest) ≠ some .rightParen := by
      cases h <;> simp [*]
    rw [ite_of_false (sees_of_ne hne)]
    exact furtherItems_of_parameters h hclosing hsize

/-- The head of a function is read up to the brace of its body. -/
theorem functionHead_of_grammar {name opening closing brace : Token} {inner params : List Token}
    (hname : name.kind = .identifier) (hopening : opening.kind = .leftParen)
    (hparams : Parameters? inner params) (hclosing : closing.kind = .rightParen)
    (hbrace : brace.kind = .leftBrace) (hsize : inner.length ≤ size) :
    functionHead size (name :: opening :: (inner ++ closing :: brace :: rest)) =
      .ok (name, params) rest := by
  unfold functionHead
  rw [bind_of_ok (expect_cons hname _ _), bind_of_ok (expectSymbol_cons hopening _ _),
    bind_of_ok (commaSeparated_of_parameters? hparams hclosing hsize),
    bind_of_ok (expectSymbol_cons hclosing _ _), bind_of_ok (expectSymbol_cons hbrace _ _)]
  rfl

end

/-! ## Statements -/

/-- A statement is read to its end, and adds nothing to the faults. -/
def ReadStatement (inside shut : Bool) (tokens : List Token) (tree : Stmt) : Prop :=
  ∀ (size levels : Nat) (rest : List Token) (errors : List SyntaxError),
    (shut = false → nextKind? rest ≠ some .kwElse) → (tokens ++ rest).length ≤ size →
    3 * tokens.length + 2 ≤ levels →
    statement size levels inside ⟨tokens ++ rest, errors⟩ = .ok tree ⟨rest, errors⟩

def ReadDeclaration (inside : Bool) (tokens : List Token) (tree : Stmt) : Prop :=
  ∀ (size levels : Nat) (rest : List Token) (errors : List SyntaxError),
    nextKind? rest ≠ some .kwElse → (tokens ++ rest).length ≤ size →
    3 * tokens.length + 3 ≤ levels →
    declaration size levels inside ⟨tokens ++ rest, errors⟩ = .ok (some tree) ⟨rest, errors⟩

theorem lift_of_ok {α : Type} {parser : Parser α} {tokens rest : List Token} {a : α}
    (h : parser tokens = .ok a rest) (errors : List SyntaxError) :
    lift parser ⟨tokens, errors⟩ = .ok a ⟨rest, errors⟩ := by
  unfold lift
  simp only [h]

/-- A leading keyword is taken from the tokens. -/
theorem leader_cons {token : Token} {kind : Kind} (h : token.kind = kind)
    (hkind : beginsStatement kind = true) (hopens : opensExpression kind = false)
    (rest : List Token) : leader (token :: rest) = .ok (some token) rest := by
  subst h
  rw [leader_eq]
  cases hkind' : token.kind <;> simp_all [beginsStatement, opensExpression]

theorem leader_of_opens {tokens : List Token} (h : Opens tokens) :
    leader tokens = .ok none tokens := by
  obtain ⟨token, rest, rfl, hopens⟩ := h
  rw [leader_eq]
  cases hkind : token.kind <;> simp_all [opensExpression]

section

variable {inside shut : Bool}

theorem readStatement_expression {tokens : List Token} {tree : Stmt}
    (h : ExpressionStatement tokens tree) : ReadStatement inside shut tokens tree := by
  intro size levels rest errors _ hsize hlevels
  obtain ⟨levels, rfl⟩ : ∃ below, levels = below + 2 := ⟨levels - 2, by omega⟩
  have hread := expressionStatement_of_grammar h hsize (by omega : _ ≤ levels + 3)
  rw [statement]
  refine (bind_of_ok (lift_of_ok (leader_of_opens (h.opens.append rest)) errors) _).trans ?_
  exact lift_of_ok hread errors

/-- A print statement is read to its end. -/
theorem readStatement_print {keyword semicolon : Token} {tokens : List Token} {value : Expr}
    (hkeyword : keyword.kind = .kwPrint) (hvalue : Expression tokens value)
    (hsemicolon : semicolon.kind = .semicolon) :
    ReadStatement inside shut (keyword :: (tokens ++ [semicolon])) (.print value) := by
  intro size levels rest errors _ hsize hlevels
  obtain ⟨levels, rfl⟩ : ∃ below, levels = below + 2 := ⟨levels - 2, by omega⟩
  simp only [List.cons_append, List.append_assoc, List.nil_append, List.length_cons,
    List.length_append, List.length_nil] at hsize hlevels ⊢
  have hlength : (tokens ++ semicolon :: rest).length ≤ size := by
    rw [List.length_append, List.length_cons]
    omega
  have hread := printStatement_of_expression hvalue hsemicolon hlength (by omega : _ ≤ levels + 1)
  rw [statement]
  refine (bind_of_ok (lift_of_ok (leader_cons hkeyword rfl rfl _) errors) _).trans ?_
  simp only [hkeyword]
  exact lift_of_ok hread errors

theorem readStatement_ret {keyword semicolon : Token} {tokens : List Token}
    {value : Option Expr} (hkeyword : keyword.kind = .kwReturn) (hvalue : Expression? tokens value)
    (hsemicolon : semicolon.kind = .semicolon) :
    ReadStatement true shut (keyword :: (tokens ++ [semicolon])) (.ret keyword value) := by
  intro size levels rest errors _ hsize hlevels
  obtain ⟨levels, rfl⟩ : ∃ below, levels = below + 2 := ⟨levels - 2, by omega⟩
  simp only [List.cons_append, List.append_assoc, List.nil_append, List.length_cons,
    List.length_append, List.length_nil] at hsize hlevels ⊢
  have hlength : (tokens ++ semicolon :: rest).length ≤ size := by
    rw [List.length_append, List.length_cons]
    omega
  have hread := returnStatement_of_expression? keyword hvalue hsemicolon hlength
    (by omega : _ ≤ levels)
  rw [statement]
  refine (bind_of_ok (lift_of_ok (leader_cons hkeyword rfl rfl _) errors) _).trans ?_
  simp only [hkeyword]
  exact lift_of_ok hread errors

theorem readStatement_empty {semicolon : Token} (hsemicolon : semicolon.kind = .semicolon) :
    ReadStatement inside shut [semicolon] .empty := by
  intro size levels rest errors _ hsize hlevels
  obtain ⟨levels, rfl⟩ : ∃ below, levels = below + 2 := ⟨levels - 2, by omega⟩
  rw [statement]
  refine (bind_of_ok (lift_of_ok (leader_cons hsemicolon rfl rfl _) errors) _).trans ?_
  simp only [hsemicolon]
  rfl

/-- A loop is read to its end if its body is. -/
theorem readStatement_loop {keyword opening closing : Token} {test tokens : List Token}
    {condition : Expr} {body : Stmt} (hkeyword : keyword.kind = .kwWhile)
    (hopening : opening.kind = .leftParen) (hcondition : Expression test condition)
    (hclosing : closing.kind = .rightParen) (hbody : ReadStatement inside shut tokens body) :
    ReadStatement inside shut (keyword :: opening :: (test ++ closing :: tokens))
      (.loop condition body) := by
  intro size levels rest errors helse hsize hlevels
  obtain ⟨levels, rfl⟩ : ∃ below, levels = below + 2 := ⟨levels - 2, by omega⟩
  simp only [List.cons_append, List.append_assoc, List.length_cons, List.length_append]
    at hsize hlevels ⊢
  have hlength : (test ++ closing :: (tokens ++ rest)).length ≤ size := by
    rw [List.length_append, List.length_cons, List.length_append]
    omega
  have htest := conditionIn_of_expression hopening hcondition hclosing .whileKeyword .condition
    hlength (by omega : _ ≤ levels)
  have hread := hbody size levels rest errors helse
    (by rw [List.length_append]; omega) (by omega)
  rw [statement]
  refine (bind_of_ok (lift_of_ok (leader_cons hkeyword rfl rfl _) errors) _).trans ?_
  simp only [hkeyword]
  exact (bind_of_ok (lift_of_ok htest errors) _).trans (bind_of_ok hread _)

/-- A loop with clauses is read as what it abbreviates. -/
theorem readStatement_clauses {keyword opening semicolon closing : Token}
    {first test last tokens : List Token} {initial : Option Stmt} {condition step : Option Expr}
    {body : Stmt} (hkeyword : keyword.kind = .kwFor) (hopening : opening.kind = .leftParen)
    (hinitial : FirstClause first initial) (hcondition : Expression? test condition)
    (hsemicolon : semicolon.kind = .semicolon) (hstep : Expression? last step)
    (hclosing : closing.kind = .rightParen) (hbody : ReadStatement inside shut tokens body) :
    ReadStatement inside shut
      (keyword :: opening :: (first ++ (test ++ semicolon :: (last ++ closing :: tokens))))
      (expanded initial condition step body) := by
  intro size levels rest errors helse hsize hlevels
  obtain ⟨levels, rfl⟩ : ∃ below, levels = below + 2 := ⟨levels - 2, by omega⟩
  simp only [List.cons_append, List.append_assoc, List.length_cons, List.length_append]
    at hsize hlevels ⊢
  have hlength :
      (first ++ (test ++ semicolon :: (last ++ closing :: (tokens ++ rest)))).length ≤ size := by
    simp only [List.length_append, List.length_cons]
    omega
  have hclauses := forClauses_of_grammar hopening hinitial hcondition hsemicolon hstep hclosing
    hlength (by omega : _ ≤ levels)
  have hread := hbody size levels rest errors helse
    (by rw [List.length_append]; omega) (by omega)
  rw [statement]
  refine (bind_of_ok (lift_of_ok (leader_cons hkeyword rfl rfl _) errors) _).trans ?_
  simp only [hkeyword]
  refine (bind_of_ok (lift_of_ok hclauses errors) _).trans ?_
  rw [bind_of_ok hread, toLoop_eq_expanded]
  rfl

theorem elseBranch_of_ne {branch : StmtParser Stmt} {rest : List Token}
    (h : nextKind? rest ≠ some .kwElse) (errors : List SyntaxError) :
    elseBranch branch ⟨rest, errors⟩ = .ok none ⟨rest, errors⟩ :=
  (bind_of_ok (lift_of_ok (accepts_of_ne h) errors) _).trans rfl

/-- A branch without an alternative is read where no `else` follows. -/
theorem readStatement_branch {keyword opening closing : Token} {test tokens : List Token}
    {condition : Expr} {yes : Stmt} (hkeyword : keyword.kind = .kwIf)
    (hopening : opening.kind = .leftParen) (hcondition : Expression test condition)
    (hclosing : closing.kind = .rightParen) (hyes : ReadStatement inside false tokens yes) :
    ReadStatement inside false (keyword :: opening :: (test ++ closing :: tokens))
      (.branch condition yes none) := by
  intro size levels rest errors helse hsize hlevels
  obtain ⟨levels, rfl⟩ : ∃ below, levels = below + 2 := ⟨levels - 2, by omega⟩
  simp only [List.cons_append, List.append_assoc, List.length_cons, List.length_append]
    at hsize hlevels ⊢
  have hlength : (test ++ closing :: (tokens ++ rest)).length ≤ size := by
    rw [List.length_append, List.length_cons, List.length_append]
    omega
  have htest := conditionIn_of_expression hopening hcondition hclosing .ifKeyword .ifCondition
    hlength (by omega : _ ≤ levels)
  have hread := hyes size levels rest errors helse
    (by rw [List.length_append]; omega) (by omega)
  rw [statement]
  refine (bind_of_ok (lift_of_ok (leader_cons hkeyword rfl rfl _) errors) _).trans ?_
  simp only [hkeyword]
  refine (bind_of_ok (lift_of_ok htest errors) _).trans ?_
  rw [bind_of_ok hread, bind_of_ok (elseBranch_of_ne (helse rfl) errors)]
  rfl

/-- A branch with an alternative is read; the statement before `else` is shut, so that `else` does
not belong to a branch inside. -/
theorem readStatement_branchElse {keyword opening closing otherwise : Token}
    {test tokens others : List Token} {condition : Expr} {yes no : Stmt}
    (hkeyword : keyword.kind = .kwIf) (hopening : opening.kind = .leftParen)
    (hcondition : Expression test condition) (hclosing : closing.kind = .rightParen)
    (hyes : ReadStatement inside true tokens yes) (hotherwise : otherwise.kind = .kwElse)
    (hno : ReadStatement inside shut others no) :
    ReadStatement inside shut
      (keyword :: opening :: (test ++ closing :: (tokens ++ otherwise :: others)))
      (.branch condition yes (some no)) := by
  intro size levels rest errors helse hsize hlevels
  obtain ⟨levels, rfl⟩ : ∃ below, levels = below + 2 := ⟨levels - 2, by omega⟩
  simp only [List.cons_append, List.append_assoc, List.length_cons, List.length_append]
    at hsize hlevels ⊢
  have hlength :
      (test ++ closing :: (tokens ++ otherwise :: (others ++ rest))).length ≤ size := by
    simp only [List.length_append, List.length_cons]
    omega
  have htest := conditionIn_of_expression hopening hcondition hclosing .ifKeyword .ifCondition
    hlength (by omega : _ ≤ levels)
  have hreadYes := hyes size levels (otherwise :: (others ++ rest)) errors nofun
    (by simp only [List.length_append, List.length_cons]; omega) (by omega)
  have hreadNo := hno size levels rest errors helse
    (by rw [List.length_append]; omega) (by omega)
  have helseBranch : elseBranch (statement size levels inside)
      ⟨otherwise :: (others ++ rest), errors⟩ = .ok (some no) ⟨rest, errors⟩ :=
    (bind_of_ok (lift_of_ok (accepts_cons hotherwise _) errors) _).trans (map_of_ok hreadNo some)
  rw [statement]
  refine (bind_of_ok (lift_of_ok (leader_cons hkeyword rfl rfl _) errors) _).trans ?_
  simp only [hkeyword]
  refine (bind_of_ok (lift_of_ok htest errors) _).trans ?_
  rw [bind_of_ok hreadYes, bind_of_ok helseBranch]
  rfl

/-! ## Declarations -/

def Halts (rest : List Token) : Prop :=
  ∃ token others, rest = token :: others ∧ (token.kind = .rightBrace ∨ token.kind = .eof)

/-- Declarations are read one after the other, up to what ends them. -/
def ReadDeclarations (inside : Bool) (tokens : List Token) (trees : List Stmt) : Prop :=
  ∀ (size levels count : Nat) (rest : List Token) (errors : List SyntaxError) (body : List Stmt),
    Halts rest → (tokens ++ rest).length ≤ size →
    3 * tokens.length + 3 ≤ levels → tokens.length ≤ count →
    declarations (declaration size levels inside) count body ⟨tokens ++ rest, errors⟩ =
      .ok (body.reverse ++ trees) ⟨rest, errors⟩

theorem recover_of_ok {declaration : StmtParser Stmt} {before after : Progress} {tree : Stmt}
    (h : declaration before = .ok tree after) : recover declaration before = .ok (some tree) after := by
  rw [recover_eq]
  simp only [h]

theorem blockBody_of_readDeclarations {tokens : List Token} {trees : List Stmt} {closing : Token}
    (h : ReadDeclarations inside tokens trees) (hclosing : closing.kind = .rightBrace)
    (size levels : Nat) (rest : List Token) (errors : List SyntaxError)
    (hsize : (tokens ++ closing :: rest).length ≤ size) (hlevels : 3 * tokens.length + 3 ≤ levels) :
    blockBody size (declaration size levels inside) ⟨tokens ++ closing :: rest, errors⟩ =
      .ok trees ⟨rest, errors⟩ := by
  have hcount : tokens.length ≤ size := by
    rw [List.length_append] at hsize
    omega
  have hread := h size levels size (closing :: rest) errors [] ⟨closing, rest, rfl, .inl hclosing⟩
    hsize hlevels hcount
  have hbrace := lift_of_ok (expectSymbol_cons hclosing .block rest) errors
  unfold blockBody
  rw [bind_of_ok hread]
  exact (bind_of_ok hbrace _).trans rfl

theorem readStatement_block {opening closing : Token} {tokens : List Token} {body : List Stmt}
    (hopening : opening.kind = .leftBrace) (hbody : ReadDeclarations inside tokens body)
    (hclosing : closing.kind = .rightBrace) :
    ReadStatement inside shut (opening :: (tokens ++ [closing])) (.block body) := by
  intro size levels rest errors _ hsize hlevels
  obtain ⟨levels, rfl⟩ : ∃ below, levels = below + 2 := ⟨levels - 2, by omega⟩
  simp only [List.cons_append, List.append_assoc, List.nil_append, List.length_cons,
    List.length_append, List.length_nil] at hsize hlevels ⊢
  have hread := blockBody_of_readDeclarations hbody hclosing size levels rest errors
    (by rw [List.length_append, List.length_cons]; omega) (by omega)
  rw [statement]
  refine (bind_of_ok (lift_of_ok (leader_cons hopening rfl rfl _) errors) _).trans ?_
  simp only [hopening]
  exact map_of_ok hread _

theorem readDeclaration_var {tokens : List Token} {tree : Stmt}
    (h : VariableDeclaration tokens tree) : ReadDeclaration inside tokens tree := by
  intro size levels rest errors _ hsize hlevels
  obtain ⟨levels, rfl⟩ : ∃ below, levels = below + 3 := ⟨levels - 3, by omega⟩
  obtain @⟨keyword, name, semicolon, tokens, _, hkeyword, hname, hinitial, hsemicolon⟩ := h
  simp only [List.cons_append, List.append_assoc, List.nil_append, List.length_cons,
    List.length_append, List.length_nil] at hsize hlevels ⊢
  have hlength : (tokens ++ semicolon :: rest).length ≤ size := by
    rw [List.length_append, List.length_cons]
    omega
  have hread := variableDeclaration_of_initializer hname hinitial hsemicolon hlength
    (by omega : _ ≤ levels + 1)
  rw [declaration_eq_recover]
  apply recover_of_ok
  refine (bind_of_ok (lift_of_ok (accepts_cons hkeyword _) errors) _).trans ?_
  exact lift_of_ok hread errors

/-- A function is read to its end if its body is. -/
theorem readDeclaration_function {keyword name opening closing brace final : Token}
    {inner tokens params : List Token} {body : List Stmt} (hkeyword : keyword.kind = .kwFun)
    (hname : name.kind = .identifier) (hopening : opening.kind = .leftParen)
    (hparams : Parameters? inner params) (hclosing : closing.kind = .rightParen)
    (hbrace : brace.kind = .leftBrace) (hbody : ReadDeclarations true tokens body)
    (hfinal : final.kind = .rightBrace) :
    ReadDeclaration inside
      (keyword :: name :: opening :: (inner ++ closing :: brace :: (tokens ++ [final])))
      (.function name params body) := by
  intro size levels rest errors _ hsize hlevels
  obtain ⟨levels, rfl⟩ : ∃ below, levels = below + 3 := ⟨levels - 3, by omega⟩
  simp only [List.cons_append, List.append_assoc, List.nil_append, List.length_cons,
    List.length_append, List.length_nil] at hsize hlevels ⊢
  have hhead (more : List Token) :
      functionHead size (name :: opening :: (inner ++ closing :: brace :: more)) =
        .ok (name, params) more :=
    functionHead_of_grammar hname hopening hparams hclosing hbrace (by omega)
  have hread := blockBody_of_readDeclarations hbody hfinal size levels rest errors
    (by rw [List.length_append, List.length_cons]; omega) (by omega)
  have hne (more : List Token) : nextKind? (keyword :: more) ≠ some .kwVar := by simp [hkeyword]
  rw [declaration_eq_recover]
  apply recover_of_ok
  refine (bind_of_ok (lift_of_ok (accepts_of_ne (hne _)) errors) _).trans ?_
  refine (bind_of_ok (lift_of_ok (accepts_cons hkeyword _) errors) _).trans ?_
  refine (bind_of_ok (lift_of_ok (hhead _) errors) _).trans ?_
  exact (bind_of_ok hread _).trans rfl

theorem readDeclaration_statement {tokens : List Token} {tree : Stmt}
    (hbegins : Begins beginsStatement tokens) (h : ReadStatement inside false tokens tree) :
    ReadDeclaration inside tokens tree := by
  intro size levels rest errors helse hsize hlevels
  obtain ⟨levels, rfl⟩ : ∃ below, levels = below + 3 := ⟨levels - 3, by omega⟩
  have hne {kind : Kind} (hkind : beginsStatement kind = false) :=
    accepts_of_ne ((hbegins.append rest).nextKind?_ne hkind)
  have hread := h size (levels + 2) rest errors (fun _ ↦ helse) hsize (by omega)
  rw [declaration_eq_recover]
  apply recover_of_ok
  refine (bind_of_ok (lift_of_ok (hne rfl) errors) _).trans ?_
  refine (bind_of_ok (lift_of_ok (hne rfl) errors) _).trans ?_
  exact hread

theorem Halts.nextKind?_ne {rest : List Token} (h : Halts rest) : nextKind? rest ≠ some .kwElse := by
  obtain ⟨token, others, rfl, hkind | hkind⟩ := h <;> simp [hkind]

theorem readDeclarations_nil : ReadDeclarations inside [] [] := by
  intro size levels count rest errors body hrest _ _ _
  rw [List.append_nil]
  cases count with
  | zero => rfl
  | succ count =>
    obtain ⟨token, others, rfl, hkind | hkind⟩ := hrest <;> simp [declarations, atEnd, hkind]

/-- One round of the loop over declarations. -/
theorem declarations_of_begins {declaration : DeclParser (Option Stmt)} {count : Nat}
    {body : List Stmt} {tokens : List Token} {errors : List SyntaxError} {tree : Stmt}
    {after : Progress} (hbegins : Begins beginsDeclaration tokens)
    (h : declaration ⟨tokens, errors⟩ = .ok (some tree) after) :
    declarations declaration (count + 1) body ⟨tokens, errors⟩ =
      declarations declaration count (tree :: body) after := by
  have heof := hbegins.nextKind?_ne (rfl : beginsDeclaration .eof = false)
  have hbrace := hbegins.nextKind?_ne (rfl : beginsDeclaration .rightBrace = false)
  obtain ⟨token, rest, rfl, -⟩ := hbegins
  rw [nextKind?_cons, ne_eq, Option.some_inj] at heof hbrace
  rw [declarations]
  simp [atEnd, heof, hbrace, h]

/-- Declarations are read one after the other; the next one begins with no `else`. -/
theorem readDeclarations_cons {tokens others : List Token} {tree : Stmt} {trees : List Stmt}
    (hbegins : Begins beginsDeclaration tokens) (h : ReadDeclaration inside tokens tree)
    (hnext : others = [] ∨ Begins beginsDeclaration others)
    (hothers : ReadDeclarations inside others trees) :
    ReadDeclarations inside (tokens ++ others) (tree :: trees) := by
  intro size levels count rest errors body hrest hsize hlevels hcount
  have hpos := hbegins.length_pos
  rw [List.append_assoc] at hsize ⊢
  rw [List.length_append] at hlevels hcount
  obtain ⟨count, rfl⟩ := Nat.exists_eq_succ_of_ne_zero (by omega : count ≠ 0)
  have helse : nextKind? (others ++ rest) ≠ some .kwElse := by
    rcases hnext with rfl | hnext
    · exact hrest.nextKind?_ne
    · exact (hnext.append rest).nextKind?_ne rfl
  have hread := h size levels (others ++ rest) errors helse hsize (by omega)
  rw [declarations_of_begins (hbegins.append _) hread]
  rw [List.length_append] at hsize
  have hmore := hothers size levels count rest errors (tree :: body) hrest (by omega) (by omega)
    (by omega)
  simpa using hmore

end

theorem begins_of_declarations {inside : Bool} {tokens : List Token} {trees : List Stmt}
    (h : Declarations inside tokens trees) : tokens = [] ∨ Begins beginsDeclaration tokens := by
  cases h with
  | nil => exact .inl rfl
  | cons h => exact .inr (h.begins.append _)

/-- All declarations of the grammar are read, by induction on their derivation. -/
theorem readDeclarations_of_grammar {inside : Bool} {tokens : List Token} {trees : List Stmt}
    (h : Declarations inside tokens trees) : ReadDeclarations inside tokens trees := by
  induction h using Declarations.rec
    (motive_1 := fun inside shut tokens tree _ ↦ ReadStatement inside shut tokens tree)
    (motive_2 := fun inside tokens tree _ ↦ ReadDeclaration inside tokens tree) with
  | expression h => exact readStatement_expression h
  | print hkeyword hvalue hsemicolon => exact readStatement_print hkeyword hvalue hsemicolon
  | block hopening _ hclosing ih => exact readStatement_block hopening ih hclosing
  | branch hkeyword hopening hcondition hclosing _ ih =>
    exact readStatement_branch hkeyword hopening hcondition hclosing ih
  | branchElse hkeyword hopening hcondition hclosing _ hotherwise _ ihyes ihno =>
    exact readStatement_branchElse hkeyword hopening hcondition hclosing ihyes hotherwise ihno
  | loop hkeyword hopening hcondition hclosing _ ih =>
    exact readStatement_loop hkeyword hopening hcondition hclosing ih
  | clauses hkeyword hopening hinitial hcondition hsemicolon hstep hclosing _ ih =>
    exact readStatement_clauses hkeyword hopening hinitial hcondition hsemicolon hstep hclosing ih
  | ret hkeyword hvalue hsemicolon => exact readStatement_ret hkeyword hvalue hsemicolon
  | empty hsemicolon => exact readStatement_empty hsemicolon
  | var h => exact readDeclaration_var h
  | function hkeyword hname hopening hparams hclosing hbrace _ hfinal ih =>
    exact readDeclaration_function hkeyword hname hopening hparams hclosing hbrace ih hfinal
  | statement h ih => exact readDeclaration_statement h.begins ih
  | nil => exact readDeclarations_nil
  | cons h hothers ih ihothers =>
    exact readDeclarations_cons h.begins ih (begins_of_declarations hothers) ihothers

/-! ## Programs -/

/-- A program is read as declarations are, if these end at the end. -/
theorem program_of_declarations {declaration : DeclParser (Option Stmt)} {count : Nat}
    {body trees : List Stmt} {before after : Progress}
    (h : declarations declaration count body before = .ok trees after)
    (hend : atEnd after.rest = true) :
    program declaration count body before = ⟨trees, after.errors.reverse, none⟩ := by
  induction count generalizing body before with
  | zero =>
    cases h
    rfl
  | succ count ih =>
    unfold declarations at h
    unfold program
    split at h
    · cases h
      rw [if_pos hend]
    · rename_i hgo
      rw [if_neg fun hstop ↦ hgo (by rw [hstop]; rfl)]
      split at h
      · exact ih h
      · exact ih h
      · cases h

/-- A program of the grammar is parsed without a fault if enough levels may be opened. -/
theorem parse_of_program {tokens : List Token} {trees : List Stmt} {levels : Nat}
    (h : Program tokens trees) (hlevels : 3 * tokens.length ≤ levels) :
    parse levels tokens = ⟨trees, [], none⟩ := by
  obtain @⟨tokens, _, mark, hdeclarations, hmark⟩ := h
  have hlength : (tokens ++ [mark]).length = tokens.length + 1 := List.length_append
  have hread := readDeclarations_of_grammar hdeclarations (tokens ++ [mark]).length levels
    (tokens ++ [mark]).length [mark] [] [] ⟨mark, [], rfl, .inr hmark⟩ (Nat.le_refl _) (by omega)
    (by omega)
  exact program_of_declarations hread (decide_eq_true hmark)

end Parser

end Lox
