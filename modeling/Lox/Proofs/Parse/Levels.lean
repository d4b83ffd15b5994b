import Lox.Proofs.Parse.Rules

/-!
# More levels

A parser is given a number of levels that it may open.  With more levels it answers as before,
unless it gave up because there were too few.  This holds of every construct by the way it is
composed, and of expressions and statements by induction on the number of levels.
-/

namespace Lox.Parser

open Stateful

def Refusal.TooDeep (refusal : Refusal) : Prop := refusal = .interrupted .tooDeep

abbrev Deepens {σ α : Type} (p q : EStateM Refusal σ α) : Prop :=
  Approximates Refusal.TooDeep p q

abbrev DeepensDeclarations {α : Type} (p q : DeclParser α) : Prop :=
  Approximates (· = .tooDeep) p q

/-! ## Expressions -/

/-- With more levels for each item, lists are read alike. -/
theorem furtherItems_deepens {α : Type} {item item' : Parser α} (h : Deepens item item')
    (count : Nat) (items : List α) :
    Deepens (furtherItems item count items) (furtherItems item' count items) := by
  induction count generalizing items with
  | zero => exact .refl _
  | succ count ih =>
    unfold furtherItems
    refine .bind (.refl _) fun comma ↦ .ite (.bind h fun a ↦ ih _) (.refl _)

theorem commaSeparated_deepens {α : Type} {item item' : Parser α} (h : Deepens item item')
    (count : Nat) : Deepens (commaSeparated count item) (commaSeparated count item') := by
  unfold commaSeparated
  exact .bind (.refl _) fun closed ↦
    .ite (.refl _) (.bind h fun a ↦ furtherItems_deepens h count [a])

/-- With more levels for the expressions inside, operands are read alike. -/
theorem operand_deepens {nested nested' : Precedence → Parser Expr}
    (h : ∀ least, Deepens (nested least) (nested' least)) :
    Deepens (operand nested) (operand nested') := by
  have hgroup : Deepens (operand.group nested) (operand.group nested') :=
    .bind (h .none) fun _ ↦ .refl _
  intro tokens
  match tokens with
  | [] => exact .inr rfl
  | token :: rest =>
    simp only [operand_eq]
    split
    · exact hgroup rest
    · exact Approximates.map _ (h .unary) rest
    · exact Approximates.map _ (h .unary) rest
    all_goals exact .inr rfl

theorem callOf_deepens {argument argument' : Parser Expr} (h : Deepens argument argument')
    (count : Nat) (callee : Expr) :
    Deepens (callOf count argument callee) (callOf count argument' callee) :=
  .bind (commaSeparated_deepens h count) fun _ ↦ .refl _

/-- With more levels for their operands, operators are read alike. -/
theorem climb_deepens {size : Nat} {nested nested' : Precedence → Parser Expr}
    {argument argument' : Parser Expr} (hnested : ∀ least, Deepens (nested least) (nested' least))
    (hargument : Deepens argument argument') (least : Precedence) (count : Nat) (left : Expr) :
    Deepens (climb size nested argument least count left)
      (climb size nested' argument' least count left) := by
  induction count generalizing left with
  | zero => exact .refl _
  | succ count ih =>
    intro tokens
    match tokens with
    | [] => exact .inr rfl
    | operator :: rest =>
      simp only [climb_cons]
      split
      · exact .inr rfl
      · split
        · refine Approximates.bind ?_ ih rest
          exact .ite (callOf_deepens hargument size left) (.bind (hnested _) fun _ ↦ .refl _)
        · exact .inr rfl

/-- An expression that is not nested too deeply is read alike with more levels. -/
theorem expression_deepens (size : Nat) {levels levels' : Nat} (hle : levels ≤ levels')
    (least : Precedence) :
    Deepens (expression size levels least) (expression size levels' least) := by
  induction levels using Nat.strongRecOn generalizing levels' least with
  | ind levels ih =>
    match levels, levels' with
    | 0, _ | 1, _ | 2, _ => exact .of_lost fun tokens ↦ ⟨_, tokens, rfl, rfl⟩
    | levels + 3, levels' + 3 =>
      unfold expression
      refine .bind (operand_deepens fun least ↦ ih _ (by omega) (by omega) least) fun left ↦ ?_
      exact climb_deepens (fun least ↦ ih _ (by omega) (by omega) least)
        (ih _ (by omega) (by omega) .none) least size left

/-! ## Statements -/

theorem lift_deepens {α : Type} {p q : Parser α} (h : Deepens p q) :
    Deepens (lift p) (lift q) := by
  intro progress
  unfold lift
  rcases h progress.rest with ⟨refusal, rest, hp, hlost⟩ | hq
  · exact .inl ⟨refusal, { progress with rest }, by rw [hp], hlost⟩
  · exact .inr (by rw [hq])

theorem after_deepens {α : Type} {p q : Parser α} (h : Deepens p q) (kind : Kind) :
    Deepens (after kind p) (after kind q) :=
  .bind (.refl _) fun _ ↦ .ite (.map _ h) (.refl _)

theorem unlessAt_deepens {α : Type} {p q : Parser α} (h : Deepens p q) (kind : Kind) :
    Deepens (unlessAt kind p) (unlessAt kind q) :=
  .bind (.refl _) fun _ ↦ .ite (.refl _) (.map _ h)

section

variable {expr expr' : Parser Expr} (h : Deepens expr expr')
include h

theorem variableDeclaration_deepens :
    Deepens (variableDeclaration expr) (variableDeclaration expr') :=
  .bind (.refl _) fun _ ↦ .bind (after_deepens h _) fun _ ↦ .refl _

theorem expressionStatement_deepens :
    Deepens (expressionStatement expr) (expressionStatement expr') :=
  .bind h fun _ ↦ .refl _

theorem printStatement_deepens : Deepens (printStatement expr) (printStatement expr') :=
  .bind h fun _ ↦ .refl _

theorem returnStatement_deepens (inside : Bool) (keyword : Token) :
    Deepens (returnStatement inside expr keyword) (returnStatement inside expr' keyword) :=
  .ite (.bind (unlessAt_deepens h _) fun _ ↦ .refl _) (.refl _)

theorem conditionIn_deepens (before after : Site) :
    Deepens (conditionIn before after expr) (conditionIn before after expr') :=
  .bind (.refl _) fun _ ↦ .bind h fun _ ↦ .refl _

theorem firstClause_deepens : Deepens (firstClause expr) (firstClause expr') :=
  .bind (.refl _) fun _ ↦ .ite (.refl _) (.bind (.refl _) fun _ ↦
    .ite (.map _ (variableDeclaration_deepens h)) (.map _ (expressionStatement_deepens h)))

theorem forClauses_deepens : Deepens (forClauses expr) (forClauses expr') :=
  .bind (.refl _) fun _ ↦ .bind (firstClause_deepens h) fun _ ↦
    .bind (unlessAt_deepens h _) fun _ ↦ .bind (.refl _) fun _ ↦
      .bind (unlessAt_deepens h _) fun _ ↦ .refl _

end

theorem elseBranch_deepens {branch branch' : StmtParser Stmt} (h : Deepens branch branch') :
    Deepens (elseBranch branch) (elseBranch branch') :=
  .bind (.refl _) fun _ ↦ .ite (.map _ h) (.refl _)

/-- A declaration is recovered from alike, since a lack of levels is no fault to recover from. -/
theorem recover_deepens {declaration declaration' : StmtParser Stmt}
    (h : Deepens declaration declaration') :
    DeepensDeclarations (recover declaration) (recover declaration') := by
  intro progress
  rcases h progress with ⟨refusal, after, hlost, rfl⟩ | heq
  · exact .inl ⟨.tooDeep, after, by rw [recover_eq, hlost], rfl⟩
  · exact .inr (by rw [recover_eq, recover_eq, heq])

/-- Blocks are read alike if their declarations are. -/
theorem declarations_deepens {declaration declaration' : DeclParser (Option Stmt)}
    (h : DeepensDeclarations declaration declaration') (count : Nat) (body : List Stmt) :
    Deepens (declarations declaration count body) (declarations declaration' count body) := by
  induction count generalizing body with
  | zero => exact .refl _
  | succ count ih =>
    intro progress
    unfold declarations
    split
    · exact .inr rfl
    · rcases h progress with ⟨cause, after, hlost, rfl⟩ | heq
      · exact .inl ⟨.interrupted .tooDeep, after, by rw [hlost], rfl⟩
      · rw [heq]
        split
        · exact ih _ _
        · exact ih _ _
        · exact .inr rfl

theorem blockBody_deepens {declaration declaration' : DeclParser (Option Stmt)} (size : Nat)
    (h : DeepensDeclarations declaration declaration') :
    Deepens (blockBody size declaration) (blockBody size declaration') :=
  .bind (declarations_deepens h size []) fun _ ↦ .refl _

/-- Declarations and statements that are not nested too deeply are read alike with more levels. -/
theorem declaration_statement_deepens (size : Nat) {levels levels' : Nat} (hle : levels ≤ levels')
    (inside : Bool) :
    DeepensDeclarations (declaration size levels inside) (declaration size levels' inside) ∧
      Deepens (statement size levels inside) (statement size levels' inside) := by
  induction levels using Nat.strongRecOn generalizing levels' inside with
  | ind levels ih =>
    constructor
    · rcases levels with _ | _ | _ | levels
      iterate 3 exact .of_lost fun progress ↦ ⟨_, progress, rfl, rfl⟩
      · obtain ⟨levels', rfl⟩ : ∃ below, levels' = below + 3 := ⟨levels' - 3, by omega⟩
        have hexpr := expression_deepens size (by omega : levels + 1 ≤ levels' + 1) .none
        have hbody := (ih levels (by omega) (by omega : levels ≤ levels') true).1
        have hstatement := (ih (levels + 2) (by omega) (by omega : levels + 2 ≤ levels' + 2) inside).2
        unfold declaration
        refine recover_deepens (.bind (.refl _) fun _ ↦ .ite ?_ (.bind (.refl _) fun _ ↦ .ite ?_ ?_))
        · exact lift_deepens (variableDeclaration_deepens hexpr)
        · exact .bind (.refl _) fun _ ↦ .bind (blockBody_deepens size hbody) fun _ ↦ .refl _
        · exact hstatement
    · rcases levels with _ | _ | levels
      iterate 2 exact .of_lost fun progress ↦ ⟨_, progress, rfl, rfl⟩
      · obtain ⟨levels', rfl⟩ : ∃ below, levels' = below + 2 := ⟨levels' - 2, by omega⟩
        have hexpr := expression_deepens size (by omega : levels ≤ levels') .none
        have hstatement := (ih levels (by omega) (by omega : levels ≤ levels') inside).2
        have hbody := (ih levels (by omega) (by omega : levels ≤ levels') inside).1
        unfold statement
        refine .bind (.refl _) fun leading ↦ ?_
        cases leading with
        | none => exact lift_deepens (expressionStatement_deepens hexpr)
        | some token =>
          dsimp only
          split
          · exact .bind (lift_deepens (forClauses_deepens hexpr)) fun _ ↦
              .bind hstatement fun _ ↦ .refl _
          · exact .bind (lift_deepens (conditionIn_deepens hexpr _ _)) fun _ ↦
              .bind hstatement fun _ ↦ .bind (elseBranch_deepens hstatement) fun _ ↦ .refl _
          · exact .map _ (blockBody_deepens size hbody)
          · exact lift_deepens (printStatement_deepens
              (expression_deepens size (by omega : levels + 1 ≤ levels' + 1) .none))
          · exact lift_deepens (returnStatement_deepens hexpr inside token)
          · exact .bind (lift_deepens (conditionIn_deepens hexpr _ _)) fun _ ↦
              .bind hstatement fun _ ↦ .refl _
          · exact .refl _

end Lox.Parser
