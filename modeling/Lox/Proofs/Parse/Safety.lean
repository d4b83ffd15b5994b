import Lox.Proofs.Parse.Rules
import Lox.Proofs.Parse.Binding
import Lox.Proofs.ProperTree

/-!
# What parsers maintain

However a parser ends, it has taken tokens from the front, none of which marks the end, and it has
added to the faults.  A property that survives both is an invariant of every parser.  What holds of
all expressions that are read, and is inherited by statements, holds of all trees that are returned,
also of those between which a faulty declaration was skipped; in particular they are proper.
-/

namespace Lox.Parser

open Stateful

/-! ## Expressions -/

/-- A property of the tokens ahead that outlasts every token but the mark of the end.  Tokens run
out only if the property allows it. -/
structure Lasting (ahead : List Token → Prop) (bad : Refusal → Prop) : Prop where
  step : ∀ token rest, token.kind ≠ .eof → ahead (token :: rest) → ahead rest
  invalid : ∀ error, bad (.invalid error)
  tooDeep : bad (.interrupted .tooDeep)
  ranOut : ahead [] → bad (.interrupted .ranOut)

section

variable {ahead : List Token → Prop} {bad : Refusal → Prop} (h : Lasting ahead bad)
include h

/-- A required token is not the mark of the end, so that what holds ahead of it holds behind it. -/
theorem expect_maintains {kind : Kind} (hkind : kind ≠ .eof) (cause : SyntaxCause) :
    Maintains ahead (·.kind = kind) bad (expect kind cause) := by
  intro tokens hahead
  match tokens with
  | [] => exact ⟨hahead, h.ranOut hahead⟩
  | token :: rest =>
    simp only [expect_eq]
    split
    · rename_i heq
      exact ⟨h.step token rest (heq ▸ hkind) hahead, heq⟩
    · exact ⟨hahead, h.invalid _⟩

theorem expectSymbol_maintains {symbol : Kind} (hsymbol : symbol ≠ .eof) (site : Site) :
    Maintains ahead (fun _ ↦ True) bad (expectSymbol symbol site) :=
  (expect_maintains h hsymbol _).imp (fun _ _ ↦ trivial) fun _ hbad ↦ hbad

theorem accepts_maintains {kind : Kind} (hkind : kind ≠ .eof) :
    Maintains ahead (fun _ ↦ True) bad (accepts kind) := by
  intro tokens hahead
  match tokens with
  | [] => exact ⟨hahead, trivial⟩
  | token :: rest =>
    simp only [accepts_eq]
    split
    · rename_i heq
      exact ⟨h.step token rest (heq ▸ hkind) hahead, trivial⟩
    · exact ⟨hahead, trivial⟩

omit h in
theorem sees_maintains (kind : Kind) : Maintains ahead (fun _ ↦ True) bad (sees kind) := by
  intro tokens hahead
  rw [sees_eq]
  exact ⟨hahead, trivial⟩

theorem reject_maintains {α : Type} {good : α → Prop} (token : Token) (cause : SyntaxCause) :
    Maintains ahead good bad (reject token cause) :=
  fun _ hahead ↦ ⟨hahead, h.invalid _⟩

/-- Further items keep what holds ahead, and all of them are good. -/
theorem furtherItems_maintains {α : Type} {good : α → Prop} {item : Parser α}
    (hitem : Maintains ahead good bad item) (count : Nat) {items : List α}
    (hitems : ∀ a ∈ items, good a) :
    Maintains ahead (fun items ↦ ∀ a ∈ items, good a) bad (furtherItems item count items) := by
  induction count generalizing items with
  | zero => exact .pure fun a ha ↦ hitems a (List.mem_reverse.mp ha)
  | succ count ih =>
    unfold furtherItems
    refine .bind (accepts_maintains h (by decide)) fun comma _ ↦ .ite (fun _ ↦ ?_) fun _ ↦ ?_
    · refine .bind hitem fun a ha ↦ ih fun b hb ↦ ?_
      rcases List.mem_cons.mp hb with rfl | hb
      · exact ha
      · exact hitems b hb
    · exact .pure fun a ha ↦ hitems a (List.mem_reverse.mp ha)

theorem commaSeparated_maintains {α : Type} {good : α → Prop} {item : Parser α}
    (hitem : Maintains ahead good bad item) (count : Nat) :
    Maintains ahead (fun items ↦ ∀ a ∈ items, good a) bad (commaSeparated count item) := by
  unfold commaSeparated
  refine .bind (sees_maintains _) fun closed _ ↦ .ite (fun _ ↦ .pure nofun) fun _ ↦ ?_
  refine .bind hitem fun a ha ↦ furtherItems_maintains h hitem count fun b hb ↦ ?_
  rw [List.mem_singleton.mp hb]
  exact ha

/-- An operand is proper if the expressions inside are. -/
theorem operand_maintains {nested : Precedence → Parser Expr}
    (hnested : ∀ least, Maintains ahead Expr.Proper bad (nested least)) :
    Maintains ahead Expr.Proper bad (operand nested) := by
  intro tokens hahead
  match tokens with
  | [] => exact ⟨hahead, h.ranOut hahead⟩
  | token :: rest =>
    have hstep (hkind : token.kind ≠ .eof) : ahead rest := h.step token rest hkind hahead
    have hsigned (hkind : token.kind ∈ Grammar.signs) :
        Maintains ahead Expr.Proper bad (Expr.unary token <$> nested .unary) :=
      (hnested .unary).map fun _ hinner ↦ .unary hkind hinner
    have hgroup : Maintains ahead Expr.Proper bad (operand.group nested) := by
      refine .bind (hnested .none) fun inner hinner ↦ ?_
      exact .bind (expectSymbol_maintains h (by decide) _) fun _ _ ↦ .pure (.grouping hinner)
    simp only [operand_eq]
    split
    case h_1 hkind => exact hgroup rest (hstep (by simp [hkind]))
    case h_2 hkind => exact hsigned (by simp [hkind, Grammar.signs]) rest (hstep (by simp [hkind]))
    case h_3 hkind => exact hsigned (by simp [hkind, Grammar.signs]) rest (hstep (by simp [hkind]))
    case h_9 hkind => exact ⟨hstep (by simp [hkind]), .var token⟩
    case h_10 => exact ⟨hahead, h.invalid _⟩
    all_goals exact ⟨hstep (by simp [*]), .literal _⟩

/-- The operator between two proper operands is one that is known there. -/
theorem combine_maintains {operator : Token} {own : Precedence} {left right : Expr}
    (hown : operator.kind.precedence? = some own) (hparen : operator.kind ≠ .leftParen)
    (hleft : left.Proper) (hright : right.Proper) :
    Maintains ahead Expr.Proper bad (combine operator left right) := by
  unfold combine
  split
  · split
    · exact .pure (.assign _ hright)
    · exact reject_maintains h _ _
  · exact .pure (.logical (.inl ‹_›) hleft hright)
  · exact .pure (.logical (.inr ‹_›) hleft hright)
  · refine .pure (.binary ?_ hleft hright)
    revert hown
    cases hkind : operator.kind <;> simp_all [Kind.precedence?, Eval.isBinary, Operation.ofKind?]

theorem callOf_maintains {argument : Parser Expr}
    (hargument : Maintains ahead Expr.Proper bad argument) (count : Nat) {callee : Expr}
    (hcallee : callee.Proper) :
    Maintains ahead Expr.Proper bad (callOf count argument callee) := by
  refine .bind (commaSeparated_maintains h hargument count) fun arguments harguments ↦ ?_
  exact .bind (expectSymbol_maintains h (by decide) _) fun paren _ ↦
    .pure (.call paren hcallee harguments)

/-- Extending a proper expression gives a proper one. -/
theorem climb_maintains {size : Nat} {nested : Precedence → Parser Expr} {argument : Parser Expr}
    (hnested : ∀ least, Maintains ahead Expr.Proper bad (nested least))
    (hargument : Maintains ahead Expr.Proper bad argument) (least : Precedence) (count : Nat)
    {left : Expr} (hleft : left.Proper) :
    Maintains ahead Expr.Proper bad (climb size nested argument least count left) := by
  induction count generalizing left with
  | zero => exact .pure hleft
  | succ count ih =>
    intro tokens hahead
    match tokens with
    | [] => exact ⟨hahead, hleft⟩
    | operator :: rest =>
      rw [climb_cons]
      split
      · exact ⟨hahead, hleft⟩
      · rename_i own hown
        split
        · have hkind : operator.kind ≠ .eof := by
            intro heq
            rw [heq] at hown
            cases hown
          refine Maintains.bind ?_ (fun _ ↦ ih) rest (h.step operator rest hkind hahead)
          refine .ite (fun _ ↦ callOf_maintains h hargument size hleft) fun hparen ↦ ?_
          exact .bind (hnested _) fun right hright ↦ combine_maintains h hown hparen hleft hright
        · exact ⟨hahead, hleft⟩

/-- Expressions are proper, and reading them keeps what holds ahead. -/
theorem expression_maintains (size levels : Nat) (least : Precedence) :
    Maintains ahead Expr.Proper bad (expression size levels least) := by
  induction levels using Nat.strongRecOn generalizing least with
  | ind levels ih =>
    match levels with
    | 0 | 1 | 2 => exact fun _ hahead ↦ ⟨hahead, h.tooDeep⟩
    | levels + 3 =>
      unfold expression
      refine .bind (operand_maintains h fun least ↦ ih _ (by omega) least) fun left hleft ↦ ?_
      exact climb_maintains h (fun least ↦ ih _ (by omega) least) (ih _ (by omega) .none) least size
        hleft

/-! ## Statements without statements inside -/

theorem after_maintains {α : Type} {good : α → Prop} {parser : Parser α} {kind : Kind}
    (hkind : kind ≠ .eof) (hparser : Maintains ahead good bad parser) :
    Maintains ahead (fun result ↦ ∀ a ∈ result, good a) bad (after kind parser) := by
  refine .bind (accepts_maintains h hkind) fun _ _ ↦ .ite (fun _ ↦ ?_) fun _ ↦ .pure nofun
  exact hparser.map fun a ha b hb ↦ Option.some.inj hb ▸ ha

omit h in
theorem unlessAt_maintains {α : Type} {good : α → Prop} {parser : Parser α} (kind : Kind)
    (hparser : Maintains ahead good bad parser) :
    Maintains ahead (fun result ↦ ∀ a ∈ result, good a) bad (unlessAt kind parser) := by
  refine .bind (sees_maintains kind) fun _ _ ↦ .ite (fun _ ↦ .pure nofun) fun _ ↦ ?_
  exact hparser.map fun a ha b hb ↦ Option.some.inj hb ▸ ha

section

variable {good : Expr → Prop} {fit : Bool → Stmt → Prop} {expr : Parser Expr}
  (hexpr : Maintains ahead good bad expr)
include hexpr

theorem conditionIn_maintains (before after : Site) :
    Maintains ahead good bad (conditionIn before after expr) := by
  refine .bind (expectSymbol_maintains h (by decide) _) fun _ _ ↦ .bind hexpr fun _ hcondition ↦ ?_
  exact .bind (expectSymbol_maintains h (by decide) _) fun _ _ ↦ .pure hcondition

variable (hfit : Stmt.Inherits good fit) (inside : Bool)
include hfit

theorem variableDeclaration_maintains :
    Maintains ahead (fit inside) bad (variableDeclaration expr) := by
  refine .bind (expect_maintains h (by decide) _) fun name _ ↦ ?_
  refine .bind (after_maintains h (by decide) hexpr) fun initial hinitial ↦ ?_
  exact .bind (expectSymbol_maintains h (by decide) _) fun _ _ ↦ .pure (hfit.declare name hinitial)

theorem expressionStatement_maintains :
    Maintains ahead (fit inside) bad (expressionStatement expr) :=
  .bind hexpr fun _ hvalue ↦
    .bind (expectSymbol_maintains h (by decide) _) fun _ _ ↦ .pure (hfit.expression hvalue)

theorem printStatement_maintains : Maintains ahead (fit inside) bad (printStatement expr) :=
  .bind hexpr fun _ hvalue ↦
    .bind (expectSymbol_maintains h (by decide) _) fun _ _ ↦ .pure (hfit.print hvalue)

theorem returnStatement_maintains (keyword : Token) :
    Maintains ahead (fit inside) bad (returnStatement inside expr keyword) := by
  refine .ite (fun hinside ↦ ?_) fun _ ↦ reject_maintains h _ _
  rw [hinside]
  refine .bind (unlessAt_maintains _ hexpr) fun value hvalue ↦ ?_
  exact .bind (expectSymbol_maintains h (by decide) _) fun _ _ ↦ .pure (hfit.ret keyword hvalue)

theorem firstClause_maintains :
    Maintains ahead (fun initial ↦ ∀ s ∈ initial, fit inside s) bad (firstClause expr) := by
  have hsome {parser : Parser Stmt} (hparser : Maintains ahead (fit inside) bad parser) :
      Maintains ahead (fun initial ↦ ∀ s ∈ initial, fit inside s) bad (some <$> parser) :=
    hparser.map fun s hs t ht ↦ Option.some.inj ht ▸ hs
  refine .bind (accepts_maintains h (by decide)) fun _ _ ↦ .ite (fun _ ↦ .pure nofun) fun _ ↦ ?_
  refine .bind (accepts_maintains h (by decide)) fun _ _ ↦ .ite (fun _ ↦ ?_) fun _ ↦ ?_
  · exact hsome (variableDeclaration_maintains h hexpr hfit inside)
  · exact hsome (expressionStatement_maintains h hexpr hfit inside)

/-- The loop made of clauses and a body that is fit is fit. -/
theorem forClauses_maintains :
    Maintains ahead (fun clauses ↦ ∀ body, fit inside body → fit inside (clauses.toLoop body)) bad
      (forClauses expr) := by
  refine .bind (expectSymbol_maintains h (by decide) _) fun _ _ ↦ ?_
  refine .bind (firstClause_maintains h hexpr hfit inside) fun initial hinitial ↦ ?_
  refine .bind (unlessAt_maintains _ hexpr) fun condition hcondition ↦ ?_
  refine .bind (expectSymbol_maintains h (by decide) _) fun _ _ ↦ ?_
  refine .bind (unlessAt_maintains _ hexpr) fun step hstep ↦ ?_
  refine .bind (expectSymbol_maintains h (by decide) _) fun _ _ ↦ .pure fun body hbody ↦ ?_
  rw [toLoop_eq_expanded]
  exact hfit.expanded inside hinitial hcondition hstep hbody

end

theorem functionHead_maintains (size : Nat) :
    Maintains ahead (fun _ ↦ True) bad (functionHead size) := by
  refine .bind (expect_maintains h (by decide) _) fun _ _ ↦ ?_
  refine .bind (expectSymbol_maintains h (by decide) _) fun _ _ ↦ ?_
  refine .bind (commaSeparated_maintains h (expect_maintains h (by decide) _) size) fun _ _ ↦ ?_
  refine .bind (expectSymbol_maintains h (by decide) _) fun _ _ ↦ ?_
  exact .bind (expectSymbol_maintains h (by decide) _) fun _ _ ↦ .pure trivial

theorem leader_maintains : Maintains ahead (fun _ ↦ True) bad leader := by
  intro tokens hahead
  match tokens with
  | [] => exact ⟨hahead, trivial⟩
  | token :: rest =>
    simp only [leader_eq]
    split
    case h_8 => exact ⟨hahead, trivial⟩
    all_goals exact ⟨h.step token rest (by simp [*]) hahead, trivial⟩

/-- Skipping never passes the mark of the end, so it keeps what holds ahead. -/
theorem ahead_skippedFrom {passed : Token} {tokens : List Token} (hahead : ahead tokens) :
    ahead (skippedFrom passed tokens) := by
  induction tokens generalizing passed with
  | nil => exact hahead
  | cons token rest ih =>
    unfold skippedFrom
    split
    · exact hahead
    · rename_i hgo
      exact ih (h.step token rest (not_or.mp hgo).1 hahead)

/-- Skipping a faulty declaration stops at the mark of the end at the latest. -/
theorem ahead_skipped {tokens : List Token} (hahead : ahead tokens) :
    ahead (skipped tokens) := by
  match tokens with
  | [] => exact hahead
  | token :: rest =>
    simp only [skipped]
    split
    · exact hahead
    · rename_i hkind
      exact ahead_skippedFrom h (h.step token rest hkind hahead)

end

/-! ## Statements -/

/-- A property of what is ahead and of the faults so far that outlasts every token but the mark of
the end, and every further fault. -/
structure LastingProgress (state : Progress → Prop) (bad : Refusal → Prop) : Prop where
  lasting : ∀ errors, Lasting (fun rest ↦ state ⟨rest, errors⟩) bad
  record : ∀ error rest errors, state ⟨rest, errors⟩ → state ⟨rest, error :: errors⟩

abbrev ProperOption (inside : Bool) (result : Option Stmt) : Prop :=
  ∀ s ∈ result, Stmt.Proper inside s

abbrev ProperAll (inside : Bool) (body : List Stmt) : Prop :=
  ∀ s ∈ body, Stmt.Proper inside s

section

variable {state : Progress → Prop} {bad : Refusal → Prop} {good : Expr → Prop}
  {fit : Bool → Stmt → Prop} (h : LastingProgress state bad)

theorem lift_maintains {α : Type} {good : α → Prop} {parser : Parser α}
    (hparser : ∀ errors, Maintains (fun rest ↦ state ⟨rest, errors⟩) good bad parser) :
    Maintains state good bad (lift parser) := by
  intro progress hstate
  have hend := hparser progress.errors progress.rest hstate
  unfold lift
  split
  · rename_i heq
    rwa [heq] at hend
  · rename_i heq
    rwa [heq] at hend

include h

/-- Recovering from a fault keeps what holds ahead and adds to the faults. -/
theorem recover_maintains {inside : Bool} {declaration : StmtParser Stmt}
    (hdeclaration : Maintains state (fit inside) bad declaration) :
    Maintains state (fun result ↦ ∀ s ∈ result, fit inside s) (fun cause ↦ bad (.interrupted cause))
      (recover declaration) := by
  intro progress hstate
  have hend := hdeclaration progress hstate
  rw [recover_eq]
  split
  · rename_i stmt after heq
    rw [heq] at hend
    exact ⟨hend.1, fun s hs ↦ Option.some.inj hs ▸ hend.2⟩
  · rename_i error after heq
    rw [heq] at hend
    have hskipped := ahead_skipped (h.lasting after.errors) hend.1
    exact ⟨h.record error _ _ hskipped, nofun⟩
  · rename_i cause after heq
    rwa [heq] at hend

omit h in
/-- The declarations of a block are fit if each of them is. -/
theorem declarations_maintains {inside : Bool} {declaration : DeclParser (Option Stmt)}
    (hdeclaration : Maintains state (fun result ↦ ∀ s ∈ result, fit inside s)
      (fun cause ↦ bad (.interrupted cause)) declaration)
    (count : Nat) {body : List Stmt} (hbody : ∀ s ∈ body, fit inside s) :
    Maintains state (fun body ↦ ∀ s ∈ body, fit inside s) bad
      (declarations declaration count body) := by
  have hreverse {body : List Stmt} (hbody : ∀ s ∈ body, fit inside s) :
      ∀ s ∈ body.reverse, fit inside s :=
    fun s hs ↦ hbody s (List.mem_reverse.mp hs)
  induction count generalizing body with
  | zero => exact .pure (hreverse hbody)
  | succ count ih =>
    intro progress hstate
    have hend := hdeclaration progress hstate
    unfold declarations
    split
    · exact ⟨hstate, hreverse hbody⟩
    · split
      · rename_i stmt after heq
        rw [heq] at hend
        refine ih (fun s hs ↦ ?_) after hend.1
        rcases List.mem_cons.mp hs with rfl | hs
        · exact hend.2 s rfl
        · exact hbody s hs
      · rename_i after heq
        rw [heq] at hend
        exact ih hbody after hend.1
      · rename_i cause after heq
        rwa [heq] at hend

theorem blockBody_maintains {inside : Bool} {declaration : DeclParser (Option Stmt)} (size : Nat)
    (hdeclaration : Maintains state (fun result ↦ ∀ s ∈ result, fit inside s)
      (fun cause ↦ bad (.interrupted cause)) declaration) :
    Maintains state (fun body ↦ ∀ s ∈ body, fit inside s) bad (blockBody size declaration) := by
  refine .bind (declarations_maintains hdeclaration size nofun) fun body hbody ↦ ?_
  have hclosing := lift_maintains fun errors ↦
    expectSymbol_maintains (h.lasting errors) (by decide : Kind.rightBrace ≠ .eof) .block
  exact .bind hclosing fun _ _ ↦ .pure hbody

theorem elseBranch_maintains {inside : Bool} {branch : StmtParser Stmt}
    (hbranch : Maintains state (fit inside) bad branch) :
    Maintains state (fun result ↦ ∀ s ∈ result, fit inside s) bad (elseBranch branch) := by
  have helse := lift_maintains fun errors ↦
    accepts_maintains (h.lasting errors) (by decide : Kind.kwElse ≠ .eof)
  refine .bind helse fun _ _ ↦ .ite (fun _ ↦ ?_) fun _ ↦ .pure nofun
  exact hbranch.map fun s hs t ht ↦ Option.some.inj ht ▸ hs

theorem declared_maintains (hfit : Stmt.Inherits good fit) {inside : Bool} {size : Nat}
    {expr : Parser Expr} {nested : DeclParser (Option Stmt)} {other : StmtParser Stmt}
    (hexpr : ∀ errors, Maintains (fun rest ↦ state ⟨rest, errors⟩) good bad expr)
    (hnested : Maintains state (fun result ↦ ∀ s ∈ result, fit true s)
      (fun cause ↦ bad (.interrupted cause)) nested)
    (hother : Maintains state (fit inside) bad other) :
    Maintains state (fit inside) bad (declared size expr nested other) := by
  have haccepts {kind : Kind} (hkind : kind ≠ .eof) :=
    lift_maintains fun errors ↦ accepts_maintains (h.lasting errors) hkind
  refine .bind (haccepts (by decide)) fun _ _ ↦ .ite (fun _ ↦ ?_) fun _ ↦ ?_
  · exact lift_maintains fun errors ↦
      variableDeclaration_maintains (h.lasting errors) (hexpr errors) hfit inside
  refine .bind (haccepts (by decide)) fun _ _ ↦ .ite (fun _ ↦ ?_) fun _ ↦ hother
  refine .bind (lift_maintains fun errors ↦ functionHead_maintains (h.lasting errors) size)
    fun head _ ↦ ?_
  exact .bind (blockBody_maintains h size hnested) fun body hbody ↦
    .pure (hfit.function head.1 head.2 hbody)

/-- The invariant of declarations and statements, by induction on the levels that may be opened. -/
theorem declaration_statement_inherits (hfit : Stmt.Inherits good fit) {size : Nat}
    (hexpr : ∀ levels errors, Maintains (fun rest ↦ state ⟨rest, errors⟩) good bad
      (expression size levels .none)) (levels : Nat) (inside : Bool) :
    Maintains state (fun result ↦ ∀ s ∈ result, fit inside s) (fun cause ↦ bad (.interrupted cause))
        (declaration size levels inside) ∧
      Maintains state (fit inside) bad (statement size levels inside) := by
  induction levels using Nat.strongRecOn generalizing inside with
  | ind levels ih =>
    constructor
    · rcases levels with _ | _ | _ | levels
      iterate 3 exact fun progress hstate ↦ ⟨hstate, (h.lasting progress.errors).tooDeep⟩
      · rw [declaration_eq_recover]
        exact recover_maintains h (declared_maintains h hfit (hexpr _) (ih levels (by omega) true).1
          (ih (levels + 2) (by omega) inside).2)
    · rcases levels with _ | _ | levels
      iterate 2 exact fun progress hstate ↦ ⟨hstate, (h.lasting progress.errors).tooDeep⟩
      · have hstatement := (ih levels (by omega) inside).2
        have hcondition (before after : Site) := lift_maintains fun errors ↦
          conditionIn_maintains (h.lasting errors) (hexpr levels errors) before after
        unfold statement
        refine .bind (lift_maintains fun errors ↦ leader_maintains (h.lasting errors))
          fun leading _ ↦ ?_
        cases leading with
        | none =>
          exact lift_maintains fun errors ↦
            expressionStatement_maintains (h.lasting errors) (hexpr _ errors) hfit inside
        | some token =>
          dsimp only
          split
          · refine .bind (lift_maintains fun errors ↦
              forClauses_maintains (h.lasting errors) (hexpr _ errors) hfit inside)
              fun _ hclauses ↦ ?_
            exact .bind hstatement fun body hbody ↦ .pure (hclauses body hbody)
          · refine .bind (hcondition _ _) fun _ hcondition ↦ .bind hstatement fun _ hyes ↦ ?_
            exact .bind (elseBranch_maintains h hstatement) fun _ hno ↦
              .pure (hfit.branch hcondition hyes hno)
          · exact (blockBody_maintains h size (ih levels (by omega) inside).1).map fun _ hbody ↦
              hfit.block hbody
          · exact lift_maintains fun errors ↦
              printStatement_maintains (h.lasting errors) (hexpr _ errors) hfit inside
          · exact lift_maintains fun errors ↦
              returnStatement_maintains (h.lasting errors) (hexpr _ errors) hfit inside token
          · refine .bind (hcondition _ _) fun _ hcondition ↦ .bind hstatement fun _ hbody ↦ ?_
            exact .pure (hfit.loop hcondition hbody)
          · exact .pure hfit.empty

/-- All trees that declarations and statements return are proper. -/
theorem declaration_statement_maintains (size levels : Nat) (inside : Bool) :
    Maintains state (ProperOption inside) (fun cause ↦ bad (.interrupted cause))
        (declaration size levels inside) ∧
      Maintains state (Stmt.Proper inside) bad (statement size levels inside) :=
  declaration_statement_inherits h Stmt.Proper.inherits
    (fun levels errors ↦ expression_maintains (h.lasting errors) size levels .none) levels inside

/-! ## Programs -/

omit h in
/-- All trees of a program are fit, and where it stopped the invariant holds. -/
theorem program_maintains {declaration : DeclParser (Option Stmt)} {stop : Interruption → Prop}
    (hdeclaration : Maintains state (fun result ↦ ∀ s ∈ result, fit false s) stop declaration)
    (count : Nat) {body : List Stmt} (hbody : ∀ s ∈ body, fit false s) (progress : Progress)
    (hstate : state progress) :
    (∀ s ∈ (program declaration count body progress).statements, fit false s) ∧
      ∀ cause rest, (program declaration count body progress).stopped = some (cause, rest) →
        stop cause ∧ ∃ errors, state ⟨rest, errors⟩ := by
  have hreverse {body : List Stmt} (hbody : ∀ s ∈ body, fit false s) :
      ∀ s ∈ body.reverse, fit false s :=
    fun s hs ↦ hbody s (List.mem_reverse.mp hs)
  induction count generalizing body progress with
  | zero => exact ⟨hreverse hbody, nofun⟩
  | succ count ih =>
    have hend := hdeclaration progress hstate
    unfold program
    split
    · exact ⟨hreverse hbody, nofun⟩
    · split
      · rename_i stmt after heq
        rw [heq] at hend
        refine ih (fun s hs ↦ ?_) after hend.1
        rcases List.mem_cons.mp hs with rfl | hs
        · exact hend.2 s rfl
        · exact hbody s hs
      · rename_i after heq
        rw [heq] at hend
        exact ih hbody after hend.1
      · rename_i cause after heq
        rw [heq] at hend
        refine ⟨hreverse hbody, fun cause' rest hstopped ↦ ?_⟩
        cases hstopped
        exact ⟨hend.2, after.errors, hend.1⟩

/-- The invariant of parsing as a whole. -/
theorem parse_inherits (hfit : Stmt.Inherits good fit) {tokens : List Token}
    (hexpr : ∀ levels errors, Maintains (fun rest ↦ state ⟨rest, errors⟩) good bad
      (expression tokens.length levels .none)) (hstate : state ⟨tokens, []⟩) (levels : Nat) :
    (∀ s ∈ (parse levels tokens).statements, fit false s) ∧
      ∀ cause rest, (parse levels tokens).stopped = some (cause, rest) →
        bad (.interrupted cause) ∧ ∃ errors, state ⟨rest, errors⟩ :=
  program_maintains (declaration_statement_inherits h hfit hexpr levels false).1 tokens.length
    (List.forall_mem_nil _) ⟨tokens, []⟩ hstate

end

def HasEnd (tokens : List Token) : Prop := ∃ token ∈ tokens, token.kind = .eof

theorem HasEnd.of_cons {token : Token} {rest : List Token} (h : HasEnd (token :: rest))
    (hkind : token.kind ≠ .eof) : HasEnd rest := by
  obtain ⟨mark, hmem, hmark⟩ := h
  rcases List.mem_cons.mp hmem with rfl | hmem
  · exact absurd hmark hkind
  · exact ⟨mark, hmem, hmark⟩

theorem not_hasEnd_nil : ¬HasEnd [] := by
  rintro ⟨mark, hmem, -⟩
  cases hmem

/-- As long as the mark of the end is ahead, tokens do not run out. -/
theorem hasEnd_lasting :
    LastingProgress (fun progress ↦ HasEnd progress.rest)
      (fun refusal ↦ ∀ cause, refusal = .interrupted cause → cause = .tooDeep) where
  lasting _ :=
    { step := fun _ _ hkind h ↦ h.of_cons hkind
      invalid := fun _ _ heq ↦ by cases heq
      tooDeep := fun _ heq ↦ by cases heq; rfl
      ranOut := fun h ↦ absurd h not_hasEnd_nil }
  record _ _ _ h := h

/-- Whatever is wrong with tokens whose end is marked, the trees that are returned are proper, and
parsing stops early only if they are nested too deeply. -/
theorem parse_safe {tokens : List Token} (h : HasEnd tokens) (levels : Nat) :
    ProperAll false (parse levels tokens).statements ∧
      ∀ cause rest, (parse levels tokens).stopped = some (cause, rest) →
        cause = .tooDeep ∧ HasEnd rest := by
  obtain ⟨hproper, hsafe⟩ := parse_inherits hasEnd_lasting Stmt.Proper.inherits
    (fun levels errors ↦
      expression_maintains (hasEnd_lasting.lasting errors) tokens.length levels .none) h levels
  refine ⟨hproper, fun cause rest hstopped ↦ ?_⟩
  obtain ⟨hcause, errors, hrest⟩ := hsafe cause rest hstopped
  exact ⟨hcause cause rfl, hrest⟩

end Lox.Parser
