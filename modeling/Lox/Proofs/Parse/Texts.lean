import Lox.Proofs.Grammar
import Lox.Proofs.Machine.Texts
import Lox.Proofs.ProperTree

/-!
# Texts in trees

The texts written in a program are those of its tokens: no tree of the grammar holds any others.
-/

namespace Lox.Grammar

variable {texts : String → Prop}

def Supplies (texts : String → Prop) (tokens : List Token) : Prop :=
  ∀ token ∈ tokens, token.literal.TextIn texts

@[simp]
theorem supplies_cons {token : Token} {tokens : List Token} :
    Supplies texts (token :: tokens) ↔ token.literal.TextIn texts ∧ Supplies texts tokens :=
  List.forall_mem_cons

@[simp]
theorem supplies_append {tokens others : List Token} :
    Supplies texts (tokens ++ others) ↔ Supplies texts tokens ∧ Supplies texts others :=
  List.forall_mem_append

theorem textIn_of_literal? {token : Token} {value : Atom} (h : literal? token = some value)
    (htoken : token.literal.TextIn texts) : value.TextIn texts := by
  unfold literal? at h
  split at h
  all_goals cases h
  · trivial
  · trivial
  · trivial
  · exact htoken
  · exact htoken

theorem joined_textsIn (operator : Token) {left right : Expr} (hleft : left.TextsIn texts)
    (hright : right.TextsIn texts) : (joined operator left right).TextsIn texts := by
  unfold joined
  split
  · exact .logical operator hleft hright
  · exact .binary operator hleft hright

/-- The texts in a phrase are those of its tokens. -/
theorem Phrase.textsIn {level : Precedence} {tokens : List Token} {tree : Expr}
    (h : Phrase level tokens tree) (htokens : Supplies texts tokens) : tree.TextsIn texts := by
  induction h using Phrase.rec
    (motive_2 := fun tokens arguments _ ↦ Supplies texts tokens →
      ∀ argument ∈ arguments, Expr.TextsIn texts argument) with
  | literal h => exact .literal (textIn_of_literal? h (supplies_cons.mp htokens).1)
  | name => exact .var _
  | grouping _ _ _ ih =>
    simp only [supplies_cons, supplies_append] at htokens
    exact .grouping (ih htokens.2.1)
  | call _ _ _ ih => exact .call _ (ih (supplies_append.mp htokens).1) (List.forall_mem_nil _)
  | callWith _ _ _ _ ihcallee iharguments =>
    simp only [supplies_cons, supplies_append] at htokens
    obtain ⟨hcallee, -, hinside, -⟩ := htokens
    exact .call _ (ihcallee hcallee) (iharguments hinside)
  | signed _ _ ih => exact .unary _ (ih (supplies_cons.mp htokens).2)
  | operation _ _ _ ihleft ihright =>
    simp only [supplies_cons, supplies_append] at htokens
    exact joined_textsIn _ (ihleft htokens.1) (ihright htokens.2.2)
  | assignment _ _ _ ih =>
    simp only [supplies_cons] at htokens
    exact .assign _ (ih htokens.2.2)
  | tighter _ ih => exact ih htokens
  | one _ ih htokens e he =>
    cases List.mem_singleton.mp he
    exact ih htokens
  | more _ _ _ ih ihothers htokens e he =>
    simp only [supplies_cons, supplies_append] at htokens
    rcases List.mem_cons.mp he with rfl | he
    · exact ih htokens.1
    · exact ihothers htokens.2.2 e he

theorem Expression?.textsIn {tokens : List Token} {value : Option Expr}
    (h : Expression? tokens value) (htokens : Supplies texts tokens) :
    ∀ e ∈ value, Expr.TextsIn texts e := by
  cases value with
  | none => nofun
  | some value =>
    intro e he
    cases he
    exact Phrase.textsIn h htokens

theorem VariableDeclaration.textsIn {tokens : List Token} {tree : Stmt}
    (h : VariableDeclaration tokens tree) (htokens : Supplies texts tokens) :
    tree.TextsIn texts := by
  obtain @⟨_, _, _, tokens, initial, _, _, hinitial, _⟩ := h
  refine .declare _ ?_
  cases initial with
  | none => nofun
  | some value =>
    obtain ⟨equals, after, rfl, -, hvalue⟩ := hinitial
    intro e he
    cases he
    simp only [supplies_cons, supplies_append] at htokens
    obtain ⟨-, -, ⟨-, hafter⟩, -⟩ := htokens
    exact Phrase.textsIn hvalue hafter

theorem ExpressionStatement.textsIn {tokens : List Token} {tree : Stmt}
    (h : ExpressionStatement tokens tree) (htokens : Supplies texts tokens) :
    tree.TextsIn texts := by
  obtain ⟨hvalue, -⟩ := h
  exact .expression (Phrase.textsIn hvalue (supplies_append.mp htokens).1)

theorem FirstClause.textsIn {tokens : List Token} {initial : Option Stmt}
    (h : FirstClause tokens initial) (htokens : Supplies texts tokens) :
    ∀ s ∈ initial, Stmt.TextsIn texts s := by
  cases h with
  | nothing => nofun
  | declaration h =>
    intro s hs
    cases hs
    exact h.textsIn htokens
  | expression h =>
    intro s hs
    cases hs
    exact h.textsIn htokens

/-- What a loop with clauses stands for has no texts but those of its clauses and its body. -/
theorem expanded_textsIn {initial : Option Stmt} {condition step : Option Expr} {body : Stmt}
    (hinitial : ∀ s ∈ initial, Stmt.TextsIn texts s)
    (hcondition : ∀ e ∈ condition, Expr.TextsIn texts e)
    (hstep : ∀ e ∈ step, Expr.TextsIn texts e) (hbody : body.TextsIn texts) :
    (expanded initial condition step body).TextsIn texts := by
  have hinherits : Stmt.Inherits (Expr.TextsIn texts) fun _ ↦ Stmt.TextsIn texts :=
    { block := .block
      empty := .empty
      expression := .expression
      function := .function
      branch := .branch
      print := .print
      ret := .ret
      declare := .declare
      loop := .loop
      forever := .literal trivial }
  exact hinherits.expanded false hinitial hcondition hstep hbody

/-- The texts in declarations are those of their tokens. -/
theorem Declarations.textsIn {inside : Bool} {tokens : List Token} {trees : List Stmt}
    (h : Declarations inside tokens trees) (htokens : Supplies texts tokens) :
    ∀ s ∈ trees, Stmt.TextsIn texts s := by
  induction h using Declarations.rec
    (motive_1 := fun _ _ tokens tree _ ↦ Supplies texts tokens → tree.TextsIn texts)
    (motive_2 := fun _ tokens tree _ ↦ Supplies texts tokens → tree.TextsIn texts) with
  | expression h htokens => exact h.textsIn htokens
  | print _ hvalue _ htokens =>
    simp only [supplies_cons, supplies_append] at htokens
    exact .print (hvalue.textsIn htokens.2.1)
  | block _ _ _ ih htokens =>
    simp only [supplies_cons, supplies_append] at htokens
    exact .block (ih htokens.2.1)
  | branch _ _ hcondition _ _ ih htokens =>
    simp only [supplies_cons, supplies_append] at htokens
    obtain ⟨-, -, htest, -, hyes⟩ := htokens
    exact .branch (hcondition.textsIn htest) (ih hyes) nofun
  | branchElse _ _ hcondition _ _ _ _ ihyes ihno htokens =>
    simp only [supplies_cons, supplies_append] at htokens
    obtain ⟨-, -, htest, -, hyes, -, hno⟩ := htokens
    refine .branch (hcondition.textsIn htest) (ihyes hyes) fun s hs ↦ ?_
    cases hs
    exact ihno hno
  | loop _ _ hcondition _ _ ih htokens =>
    simp only [supplies_cons, supplies_append] at htokens
    obtain ⟨-, -, htest, -, hbody⟩ := htokens
    exact .loop (hcondition.textsIn htest) (ih hbody)
  | clauses _ _ hinitial hcondition _ hstep _ _ ih htokens =>
    simp only [supplies_cons, supplies_append] at htokens
    obtain ⟨-, -, hfirst, htest, -, hlast, -, hbody⟩ := htokens
    exact expanded_textsIn (hinitial.textsIn hfirst) (hcondition.textsIn htest)
      (hstep.textsIn hlast) (ih hbody)
  | ret _ hvalue _ htokens =>
    simp only [supplies_cons, supplies_append] at htokens
    exact .ret _ (hvalue.textsIn htokens.2.1)
  | empty => exact .empty
  | var h htokens => exact h.textsIn htokens
  | function _ _ _ _ _ _ _ _ ih htokens =>
    simp only [supplies_cons, supplies_append] at htokens
    obtain ⟨-, -, -, -, -, -, hbody, -⟩ := htokens
    exact .function _ _ (ih hbody)
  | statement _ ih htokens => exact ih htokens
  | nil => exact List.forall_mem_nil _
  | cons _ _ ih ihothers =>
    obtain ⟨htree, hothers⟩ := supplies_append.mp htokens
    exact List.forall_mem_cons.mpr ⟨ih htree, ihothers hothers⟩

theorem Program.textsIn {tokens : List Token} {trees : List Stmt} (h : Program tokens trees)
    (htokens : Supplies texts tokens) : ∀ s ∈ trees, Stmt.TextsIn texts s := by
  obtain ⟨h, -⟩ := h
  exact h.textsIn (supplies_append.mp htokens).1

end Lox.Grammar
