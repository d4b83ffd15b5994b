import Lox.Proofs.Parse.ExprSoundness
import Lox.Proofs.Parse.Safety

/-!
# Only statements are read

A statement that is read without recording a fault is derived by the grammar from the tokens that
were taken.  Faults are never forgotten, so if none was added at the end, none was added on the way.
An `if` is left open only if no `else` comes next, which is why what stands before an `else` is
shut.
-/

namespace Lox.Parser

open Stateful Grammar

/-! ## Statements without statements inside -/

section

variable {size : Nat} {expr : Parser Expr} (hexpr : Reads size .none expr)
include hexpr

theorem after_eq_ok {tokens rest : List Token} {initial : Option Expr}
    (hsize : tokens.length ≤ size) (h : after .equal expr tokens = .ok initial rest) :
    ∃ taken, tokens = taken ++ rest ∧ Initializer taken initial := by
  rcases ite_eq_ok h with ⟨mid, haccepts, hsome⟩ | ⟨mid, haccepts, hnone⟩
  · obtain ⟨equals, rfl, hequals⟩ := accepts_eq_ok_true haccepts
    obtain ⟨value, hvalue, rfl⟩ := map_eq_ok hsome
    rw [List.length_cons] at hsize
    obtain ⟨taken, rfl, hphrase, -⟩ := hexpr _ _ _ (by omega) hvalue
    exact ⟨equals :: taken, rfl, equals, taken, rfl, hequals, hphrase⟩
  · obtain ⟨rfl, rfl⟩ := pure_eq_ok hnone
    obtain ⟨rfl, -⟩ := accepts_eq_ok_false haccepts
    exact ⟨[], rfl, rfl⟩

theorem unlessAt_eq_ok {kind : Kind} {tokens rest : List Token} {value : Option Expr}
    (hsize : tokens.length ≤ size) (h : unlessAt kind expr tokens = .ok value rest) :
    ∃ taken, tokens = taken ++ rest ∧ Expression? taken value := by
  rcases ite_eq_ok h with ⟨mid, hsees, hnone⟩ | ⟨mid, hsees, hsome⟩
  · obtain ⟨rfl, -⟩ := sees_eq_ok hsees
    obtain ⟨rfl, rfl⟩ := pure_eq_ok hnone
    exact ⟨[], rfl, rfl⟩
  · obtain ⟨rfl, -⟩ := sees_eq_ok hsees
    obtain ⟨tree, htree, rfl⟩ := map_eq_ok hsome
    obtain ⟨taken, rfl, hphrase, -⟩ := hexpr _ _ _ hsize htree
    exact ⟨taken, rfl, hphrase⟩

/-- The keyword has been taken before. -/
theorem variableDeclaration_eq_ok {keyword : Token} {tokens rest : List Token} {tree : Stmt}
    (hsize : tokens.length ≤ size) (hkeyword : keyword.kind = .kwVar)
    (h : variableDeclaration expr tokens = .ok tree rest) :
    ∃ taken, tokens = taken ++ rest ∧ VariableDeclaration (keyword :: taken) tree := by
  obtain ⟨name, afterName, hname, hrest⟩ := bind_eq_ok h
  obtain ⟨initial, afterInitial, hinitial, hclose⟩ := bind_eq_ok hrest
  obtain ⟨semicolon, _, hsemicolon, hpure⟩ := bind_eq_ok hclose
  obtain ⟨rfl, rfl⟩ := pure_eq_ok hpure
  obtain ⟨rfl, hidentifier⟩ := expect_eq_ok hname
  obtain ⟨rfl, hsymbol⟩ := expectSymbol_eq_ok hsemicolon
  rw [List.length_cons] at hsize
  obtain ⟨taken, rfl, hinitializer⟩ := after_eq_ok hexpr (by omega) hinitial
  exact ⟨name :: (taken ++ [semicolon]), by simp, .intro hkeyword hidentifier hinitializer hsymbol⟩

/-- What is read as an expression statement is one. -/
theorem expressionStatement_eq_ok {tokens rest : List Token} {tree : Stmt}
    (hsize : tokens.length ≤ size) (h : expressionStatement expr tokens = .ok tree rest) :
    ∃ taken, tokens = taken ++ rest ∧ ExpressionStatement taken tree := by
  obtain ⟨value, afterValue, hvalue, hclose⟩ := bind_eq_ok h
  obtain ⟨semicolon, _, hsemicolon, hpure⟩ := bind_eq_ok hclose
  obtain ⟨rfl, rfl⟩ := pure_eq_ok hpure
  obtain ⟨rfl, hsymbol⟩ := expectSymbol_eq_ok hsemicolon
  obtain ⟨taken, rfl, hphrase, -⟩ := hexpr _ _ _ hsize hvalue
  exact ⟨taken ++ [semicolon], by simp, .intro hphrase hsymbol⟩

theorem printStatement_eq_ok {inside : Bool} {keyword : Token} {tokens rest : List Token}
    {tree : Stmt} (hsize : tokens.length ≤ size) (hkeyword : keyword.kind = .kwPrint)
    (h : printStatement expr tokens = .ok tree rest) :
    ∃ taken, tokens = taken ++ rest ∧ ∀ shut, Statement inside shut (keyword :: taken) tree := by
  obtain ⟨value, afterValue, hvalue, hclose⟩ := bind_eq_ok h
  obtain ⟨semicolon, _, hsemicolon, hpure⟩ := bind_eq_ok hclose
  obtain ⟨rfl, rfl⟩ := pure_eq_ok hpure
  obtain ⟨rfl, hsymbol⟩ := expectSymbol_eq_ok hsemicolon
  obtain ⟨taken, rfl, hphrase, -⟩ := hexpr _ _ _ hsize hvalue
  exact ⟨taken ++ [semicolon], by simp, fun _ ↦ .print hkeyword hphrase hsymbol⟩

theorem returnStatement_eq_ok {inside : Bool} {keyword : Token} {tokens rest : List Token}
    {tree : Stmt} (hsize : tokens.length ≤ size) (hkeyword : keyword.kind = .kwReturn)
    (h : returnStatement inside expr keyword tokens = .ok tree rest) :
    ∃ taken, tokens = taken ++ rest ∧ ∀ shut, Statement inside shut (keyword :: taken) tree := by
  unfold returnStatement at h
  split at h
  · rename_i hinside
    subst hinside
    obtain ⟨value, afterValue, hvalue, hclose⟩ := bind_eq_ok h
    obtain ⟨semicolon, _, hsemicolon, hpure⟩ := bind_eq_ok hclose
    obtain ⟨rfl, rfl⟩ := pure_eq_ok hpure
    obtain ⟨rfl, hsymbol⟩ := expectSymbol_eq_ok hsemicolon
    obtain ⟨taken, rfl, hexpression⟩ := unlessAt_eq_ok hexpr hsize hvalue
    exact ⟨taken ++ [semicolon], by simp, fun _ ↦ .ret hkeyword hexpression hsymbol⟩
  · cases h

theorem conditionIn_eq_ok {before after : Site} {tokens rest : List Token} {condition : Expr}
    (hsize : tokens.length ≤ size) (h : conditionIn before after expr tokens = .ok condition rest) :
    ∃ opening test closing, tokens = opening :: (test ++ closing :: rest) ∧
      opening.kind = .leftParen ∧ Expression test condition ∧ closing.kind = .rightParen := by
  obtain ⟨opening, afterOpening, hopening, hrest⟩ := bind_eq_ok h
  obtain ⟨value, afterValue, hvalue, hclose⟩ := bind_eq_ok hrest
  obtain ⟨closing, _, hclosing, hpure⟩ := bind_eq_ok hclose
  obtain ⟨rfl, rfl⟩ := pure_eq_ok hpure
  obtain ⟨rfl, hleft⟩ := expectSymbol_eq_ok hopening
  obtain ⟨rfl, hright⟩ := expectSymbol_eq_ok hclosing
  rw [List.length_cons] at hsize
  obtain ⟨test, rfl, hphrase, -⟩ := hexpr _ _ _ (by omega) hvalue
  exact ⟨opening, test, closing, rfl, hleft, hphrase, hright⟩

/-- What is read as the first clause of a loop is one. -/
theorem firstClause_eq_ok {tokens rest : List Token} {initial : Option Stmt}
    (hsize : tokens.length ≤ size) (h : firstClause expr tokens = .ok initial rest) :
    ∃ taken, tokens = taken ++ rest ∧ FirstClause taken initial := by
  rcases ite_eq_ok h with ⟨mid, hnothing, hpure⟩ | ⟨mid, hsomething, hrest⟩
  · obtain ⟨semicolon, rfl, hsemicolon⟩ := accepts_eq_ok_true hnothing
    obtain ⟨rfl, rfl⟩ := pure_eq_ok hpure
    exact ⟨[semicolon], rfl, .nothing hsemicolon⟩
  obtain ⟨rfl, -⟩ := accepts_eq_ok_false hsomething
  rcases ite_eq_ok hrest with ⟨mid, hvar, hdeclare⟩ | ⟨mid, hother, hexpression⟩
  · obtain ⟨keyword, rfl, hkeyword⟩ := accepts_eq_ok_true hvar
    obtain ⟨tree, htree, rfl⟩ := map_eq_ok hdeclare
    rw [List.length_cons] at hsize
    obtain ⟨taken, rfl, hdeclaration⟩ := variableDeclaration_eq_ok hexpr (by omega) hkeyword htree
    exact ⟨keyword :: taken, rfl, .declaration hdeclaration⟩
  · obtain ⟨rfl, -⟩ := accepts_eq_ok_false hother
    obtain ⟨tree, htree, rfl⟩ := map_eq_ok hexpression
    obtain ⟨taken, rfl, hstatement⟩ := expressionStatement_eq_ok hexpr hsize htree
    exact ⟨taken, rfl, .expression hstatement⟩

/-- The clauses make every statement that follows them a loop of the grammar. -/
theorem forClauses_eq_ok {keyword : Token} {tokens rest : List Token} {clauses : ForClauses}
    (hsize : tokens.length ≤ size) (hkeyword : keyword.kind = .kwFor)
    (h : forClauses expr tokens = .ok clauses rest) :
    ∃ taken, tokens = taken ++ rest ∧ ∀ inside shut others body,
      Statement inside shut others body →
        Statement inside shut (keyword :: (taken ++ others)) (clauses.toLoop body) := by
  obtain ⟨opening, afterOpening, hopening, hfirst⟩ := bind_eq_ok h
  obtain ⟨initial, afterInitial, hinitial, htest⟩ := bind_eq_ok hfirst
  obtain ⟨condition, afterCondition, hcondition, hmiddle⟩ := bind_eq_ok htest
  obtain ⟨semicolon, afterSemicolon, hsemicolon, hlast⟩ := bind_eq_ok hmiddle
  obtain ⟨step, afterStep, hstep, hclose⟩ := bind_eq_ok hlast
  obtain ⟨closing, _, hclosing, hpure⟩ := bind_eq_ok hclose
  obtain ⟨rfl, rfl⟩ := pure_eq_ok hpure
  obtain ⟨rfl, hleft⟩ := expectSymbol_eq_ok hopening
  obtain ⟨rfl, hmark⟩ := expectSymbol_eq_ok hsemicolon
  obtain ⟨rfl, hright⟩ := expectSymbol_eq_ok hclosing
  rw [List.length_cons] at hsize
  obtain ⟨first, rfl, hfirstClause⟩ := firstClause_eq_ok hexpr (by omega) hinitial
  rw [List.length_append] at hsize
  obtain ⟨test, rfl, hexpression⟩ := unlessAt_eq_ok hexpr (by omega) hcondition
  rw [List.length_append, List.length_cons] at hsize
  obtain ⟨last, rfl, hround⟩ := unlessAt_eq_ok hexpr (by omega) hstep
  refine ⟨opening :: (first ++ (test ++ semicolon :: (last ++ [closing]))), by simp, ?_⟩
  intro inside shut others body hbody
  have hloop := Statement.clauses hkeyword hleft hfirstClause hexpression hmark hround hright hbody
  rw [toLoop_eq_expanded]
  simpa using hloop

end

theorem separates_parameters :
    Separates (fun tokens param ↦ tokens = [param] ∧ param.kind = .identifier) Parameters := by
  rintro _ others param params ⟨rfl, hparam⟩ hothers
  rcases hothers with ⟨rfl, rfl⟩ | ⟨comma, others, rfl, hcomma, hothers⟩
  · exact .one hparam
  · exact .more hparam hcomma hothers

/-- What is read as the head of a function is one. -/
theorem functionHead_eq_ok {size : Nat} {tokens rest : List Token} {head : Token × List Token}
    (hsize : tokens.length ≤ size) (h : functionHead size tokens = .ok head rest) :
    ∃ opening inner closing brace,
      tokens = head.1 :: opening :: (inner ++ closing :: brace :: rest) ∧
        head.1.kind = .identifier ∧ opening.kind = .leftParen ∧ Parameters? inner head.2 ∧
        closing.kind = .rightParen ∧ brace.kind = .leftBrace := by
  obtain ⟨name, afterName, hname, hopen⟩ := bind_eq_ok h
  obtain ⟨opening, afterOpening, hopening, hinner⟩ := bind_eq_ok hopen
  obtain ⟨params, afterParams, hparams, hclose⟩ := bind_eq_ok hinner
  obtain ⟨closing, afterClosing, hclosing, hbody⟩ := bind_eq_ok hclose
  obtain ⟨brace, _, hbrace, hpure⟩ := bind_eq_ok hbody
  obtain ⟨rfl, rfl⟩ := pure_eq_ok hpure
  obtain ⟨rfl, hidentifier⟩ := expect_eq_ok hname
  obtain ⟨rfl, hleft⟩ := expectSymbol_eq_ok hopening
  obtain ⟨rfl, hright⟩ := expectSymbol_eq_ok hclosing
  obtain ⟨rfl, hleftBrace⟩ := expectSymbol_eq_ok hbrace
  have hitem : ReadsItem size (fun tokens param ↦ tokens = [param] ∧ param.kind = .identifier)
      (expect .identifier .noParameterName) := by
    intro tokens param rest _ hread
    obtain ⟨rfl, hparam⟩ := expect_eq_ok hread
    exact ⟨[param], rfl, rfl, hparam⟩
  rw [List.length_cons, List.length_cons] at hsize
  obtain ⟨inner, rfl, hitems⟩ :=
    commaSeparated_eq_ok hitem separates_parameters (by omega) hparams
  exact ⟨opening, inner, closing, brace, rfl, hidentifier, hleft, hitems, hright, hleftBrace⟩

/-! ## Faults are not forgotten -/

/-- The faults that were there before are there afterwards. -/
def Grows {ε α : Type} (parser : EStateM ε Progress α) : Prop :=
  ∀ before a after, parser before = .ok a after → before.errors <:+ after.errors

theorem growing (errors : List SyntaxError) :
    LastingProgress (fun progress ↦ errors <:+ progress.errors) fun _ ↦ True where
  lasting _ :=
    { step := fun _ _ _ h ↦ h
      invalid := fun _ ↦ trivial
      tooDeep := trivial
      ranOut := fun _ ↦ trivial }
  record error _ _ h := h.trans (List.suffix_cons error _)

/-- A parser that keeps every suffix of faults only adds to them. -/
theorem grows_of_maintains {ε α : Type} {good : α → Prop} {bad : ε → Prop}
    {parser : EStateM ε Progress α}
    (h : ∀ errors, Maintains (fun progress ↦ errors <:+ progress.errors) good bad parser) :
    Grows parser := by
  intro before a after hread
  exact ((h before.errors).ok (List.suffix_refl _) hread).1

theorem declaration_grows (size levels : Nat) (inside : Bool) :
    Grows (declaration size levels inside) :=
  grows_of_maintains fun errors ↦
    (declaration_statement_maintains (growing errors) size levels inside).1

theorem statement_grows (size levels : Nat) (inside : Bool) : Grows (statement size levels inside) :=
  grows_of_maintains fun errors ↦
    (declaration_statement_maintains (growing errors) size levels inside).2

theorem declared_growing (errors : List SyntaxError) (size levels : Nat) (inside : Bool) :
    Maintains (fun progress ↦ errors <:+ progress.errors) (Stmt.Proper inside) (fun _ ↦ True)
      (declared size (expression size (levels + 1) .none) (declaration size levels true)
        (statement size (levels + 2) inside)) :=
  declared_maintains (growing errors) Stmt.Proper.inherits
    (fun errors' ↦ expression_maintains ((growing errors).lasting errors') size _ .none)
    (declaration_statement_maintains (growing errors) size levels true).1
    (declaration_statement_maintains (growing errors) size (levels + 2) inside).2

theorem grows_pure {ε α : Type} (a : α) : Grows (pure a : EStateM ε Progress α) := by
  intro before b after h
  obtain ⟨-, rfl⟩ := pure_eq_ok h
  exact List.suffix_refl _

/-- What a lifted parser reads, it reads without touching the faults. -/
theorem lift_eq_ok {α : Type} {parser : Parser α} {tokens : List Token}
    {errors : List SyntaxError} {after : Progress} {a : α}
    (h : lift parser ⟨tokens, errors⟩ = .ok a after) :
    ∃ rest, parser tokens = .ok a rest ∧ after = ⟨rest, errors⟩ := by
  unfold lift at h
  split at h
  · rename_i hread
    cases h
    exact ⟨_, hread, rfl⟩
  · cases h

theorem eq_ok_of_lift {α : Type} {parser : Parser α} {tokens rest : List Token}
    {errors errors' : List SyntaxError} {a : α}
    (h : lift parser ⟨tokens, errors⟩ = .ok a ⟨rest, errors'⟩) : parser tokens = .ok a rest := by
  obtain ⟨after, hread, hprogress⟩ := lift_eq_ok h
  cases hprogress
  exact hread

theorem grows_lift {α : Type} (parser : Parser α) : Grows (lift parser) := by
  intro before a after h
  obtain ⟨rest, -, rfl⟩ := lift_eq_ok h
  exact List.suffix_refl _

theorem Grows.bind {ε α β : Type} {p : EStateM ε Progress α} {next : α → EStateM ε Progress β}
    (hp : Grows p) (hnext : ∀ a, Grows (next a)) : Grows (p >>= next) := by
  intro before b after h
  obtain ⟨a, mid, hfirst, hsecond⟩ := bind_eq_ok h
  exact (hp _ _ _ hfirst).trans (hnext a _ _ _ hsecond)

theorem Grows.map {ε α β : Type} {p : EStateM ε Progress α} (hp : Grows p) (f : α → β) :
    Grows (f <$> p) := by
  intro before b after h
  obtain ⟨a, hread, -⟩ := map_eq_ok h
  exact hp _ _ _ hread

theorem elseBranch_grows {branch : StmtParser Stmt} (h : Grows branch) :
    Grows (elseBranch branch) := by
  refine .bind (grows_lift _) fun answer ↦ ?_
  cases answer with
  | true => exact h.map some
  | false => exact grows_pure none

theorem eq_of_suffix_of_suffix {α : Type} {a b : List α} (h : a <:+ b) (h' : b <:+ a) : a = b :=
  h.eq_of_length (Nat.le_antisymm h.length_le h'.length_le)

/-- Two steps that add no fault together add none each. -/
theorem bind_eq_ok_of_grows {ε α β : Type} {p : EStateM ε Progress α}
    {next : α → EStateM ε Progress β} {tokens rest : List Token} {errors : List SyntaxError} {b : β}
    (hp : Grows p) (hnext : ∀ a, Grows (next a))
    (h : (p >>= next) ⟨tokens, errors⟩ = .ok b ⟨rest, errors⟩) :
    ∃ a mid, p ⟨tokens, errors⟩ = .ok a ⟨mid, errors⟩ ∧ next a ⟨mid, errors⟩ = .ok b ⟨rest, errors⟩ := by
  obtain ⟨a, ⟨mid, errors'⟩, hfirst, hsecond⟩ := bind_eq_ok h
  obtain rfl : errors = errors' :=
    eq_of_suffix_of_suffix (hp _ _ _ hfirst) (hnext a _ _ _ hsecond)
  exact ⟨a, mid, hfirst, hsecond⟩

/-! ## Statements -/

/-- What was taken is a statement, and a shut one if it stands before `else`. -/
def Derived (inside : Bool) (taken rest : List Token) (tree : Stmt) : Prop :=
  ∀ shut, (shut = true → nextKind? rest = some .kwElse) → Statement inside shut taken tree

/-- What the parser reads without adding a fault is a statement. -/
def ReadsStatement (size : Nat) (inside : Bool) (parser : StmtParser Stmt) : Prop :=
  ∀ tokens errors tree rest, tokens.length ≤ size →
    parser ⟨tokens, errors⟩ = .ok tree ⟨rest, errors⟩ →
    ∃ taken, tokens = taken ++ rest ∧ Derived inside taken rest tree

def ReadsDeclaration (size : Nat) (inside : Bool) (parser : DeclParser (Option Stmt)) : Prop :=
  ∀ tokens errors result rest, tokens.length ≤ size →
    parser ⟨tokens, errors⟩ = .ok result ⟨rest, errors⟩ →
    ∃ tree taken, result = some tree ∧ tokens = taken ++ rest ∧ Declaration inside taken tree

/-- The kinds of tokens by which a statement other than an expression is recognised. -/
def leaders : List Kind :=
  [.kwFor, .kwIf, .leftBrace, .kwPrint, .kwReturn, .kwWhile, .semicolon]

/-- A token that leads a statement is taken, and another one left alone. -/
theorem leader_eq_ok {tokens rest : List Token} {leading : Option Token}
    (h : leader tokens = .ok leading rest) :
    tokens = leading.toList ++ rest ∧ ∀ token ∈ leading, token.kind ∈ leaders := by
  rw [leader_eq] at h
  split at h
  · cases h
    exact ⟨rfl, nofun⟩
  · split at h
    all_goals
      cases h
      simp [leaders, *]

section

variable {size : Nat} {inside : Bool} {tokens rest : List Token} {errors : List SyntaxError}
  {keyword : Token} {tree : Stmt}

/-- A loop without clauses, from its condition on. -/
theorem loop_eq_ok {expr : Parser Expr} {statement : StmtParser Stmt} {before after : Site}
    (hexpr : Reads size .none expr) (hstatement : ReadsStatement size inside statement)
    (hsize : tokens.length ≤ size) (hkeyword : keyword.kind = .kwWhile)
    (h : (lift (conditionIn before after expr) >>= fun condition ↦
      statement >>= fun body ↦ pure (Stmt.loop condition body)) ⟨tokens, errors⟩ =
        .ok tree ⟨rest, errors⟩) :
    ∃ taken, tokens = taken ++ rest ∧ Derived inside (keyword :: taken) rest tree := by
  obtain ⟨condition, _, hlifted, hrest⟩ := bind_eq_ok h
  obtain ⟨mid, hcondition, rfl⟩ := lift_eq_ok hlifted
  obtain ⟨body, _, hbody, hpure⟩ := bind_eq_ok hrest
  obtain ⟨rfl, rfl⟩ := pure_eq_ok hpure
  obtain ⟨opening, test, closing, rfl, hopening, hphrase, hclosing⟩ :=
    conditionIn_eq_ok hexpr hsize hcondition
  simp only [List.length_cons, List.length_append] at hsize
  obtain ⟨taken, rfl, hderived⟩ := hstatement _ _ _ _ (by omega) hbody
  refine ⟨opening :: (test ++ closing :: taken), by simp, fun shut hshut ↦ ?_⟩
  exact .loop hkeyword hopening hphrase hclosing (hderived shut hshut)

/-- A loop with clauses, from these on. -/
theorem clauses_eq_ok {expr : Parser Expr} {statement : StmtParser Stmt}
    (hexpr : Reads size .none expr) (hstatement : ReadsStatement size inside statement)
    (hsize : tokens.length ≤ size) (hkeyword : keyword.kind = .kwFor)
    (h : (lift (forClauses expr) >>= fun clauses ↦
      statement >>= fun body ↦ pure (clauses.toLoop body)) ⟨tokens, errors⟩ =
        .ok tree ⟨rest, errors⟩) :
    ∃ taken, tokens = taken ++ rest ∧ Derived inside (keyword :: taken) rest tree := by
  obtain ⟨clauses, _, hlifted, hrest⟩ := bind_eq_ok h
  obtain ⟨mid, hclauses, rfl⟩ := lift_eq_ok hlifted
  obtain ⟨body, _, hbody, hpure⟩ := bind_eq_ok hrest
  obtain ⟨rfl, rfl⟩ := pure_eq_ok hpure
  obtain ⟨head, rfl, hloop⟩ := forClauses_eq_ok hexpr hsize hkeyword hclauses
  rw [List.length_append] at hsize
  obtain ⟨taken, rfl, hderived⟩ := hstatement _ _ _ _ (by omega) hbody
  refine ⟨head ++ taken, by simp, fun shut hshut ↦ ?_⟩
  exact hloop inside shut taken body (hderived shut hshut)

/-- After a statement, `else` is never left over. -/
theorem elseBranch_eq_ok {branch : StmtParser Stmt} {result : Option Stmt}
    (hbranch : ReadsStatement size inside branch) (hsize : tokens.length ≤ size)
    (h : elseBranch branch ⟨tokens, errors⟩ = .ok result ⟨rest, errors⟩) :
    (tokens = rest ∧ result = none ∧ nextKind? rest ≠ some .kwElse) ∨
      ∃ otherwise others no, tokens = otherwise :: (others ++ rest) ∧ result = some no ∧
        otherwise.kind = .kwElse ∧ Derived inside others rest no := by
  rcases ite_eq_ok h with ⟨_, hlifted, hsome⟩ | ⟨_, hlifted, hnone⟩
  · obtain ⟨mid, haccepts, rfl⟩ := lift_eq_ok hlifted
    obtain ⟨otherwise, rfl, hotherwise⟩ := accepts_eq_ok_true haccepts
    obtain ⟨no, hno, rfl⟩ := map_eq_ok hsome
    rw [List.length_cons] at hsize
    obtain ⟨others, rfl, hderived⟩ := hbranch _ _ _ _ (by omega) hno
    exact .inr ⟨otherwise, others, no, rfl, rfl, hotherwise, hderived⟩
  · obtain ⟨mid, haccepts, rfl⟩ := lift_eq_ok hlifted
    obtain ⟨rfl, hne⟩ := accepts_eq_ok_false haccepts
    obtain ⟨rfl, hprogress⟩ := pure_eq_ok hnone
    obtain ⟨rfl, -⟩ := Progress.mk.inj hprogress
    exact .inl ⟨rfl, rfl, hne⟩

/-- A branch, from its condition on.  The statement before `else` is shut. -/
theorem branch_eq_ok {expr : Parser Expr} {statement : StmtParser Stmt} {before after : Site}
    (hexpr : Reads size .none expr) (hstatement : ReadsStatement size inside statement)
    (hgrows : Grows statement) (hsize : tokens.length ≤ size) (hkeyword : keyword.kind = .kwIf)
    (h : (lift (conditionIn before after expr) >>= fun condition ↦
      statement >>= fun yes ↦ elseBranch statement >>= fun no ↦
        pure (Stmt.branch condition yes no)) ⟨tokens, errors⟩ = .ok tree ⟨rest, errors⟩) :
    ∃ taken, tokens = taken ++ rest ∧ Derived inside (keyword :: taken) rest tree := by
  obtain ⟨condition, _, hlifted, hrest⟩ := bind_eq_ok h
  obtain ⟨mid, hcondition, rfl⟩ := lift_eq_ok hlifted
  obtain ⟨yes, mid', hyes, hrest⟩ := bind_eq_ok_of_grows hgrows
    (fun _ ↦ (elseBranch_grows hgrows).bind fun _ ↦ grows_pure _) hrest
  obtain ⟨no, _, hno, hpure⟩ := bind_eq_ok hrest
  obtain ⟨rfl, rfl⟩ := pure_eq_ok hpure
  obtain ⟨opening, test, closing, rfl, hopening, hphrase, hclosing⟩ :=
    conditionIn_eq_ok hexpr hsize hcondition
  simp only [List.length_cons, List.length_append] at hsize
  obtain ⟨taken, rfl, hderived⟩ := hstatement _ _ _ _ (by omega) hyes
  rw [List.length_append] at hsize
  rcases elseBranch_eq_ok hstatement (by omega) hno with
    ⟨rfl, rfl, hne⟩ | ⟨otherwise, others, no, rfl, rfl, hotherwise, hothers⟩
  · refine ⟨opening :: (test ++ closing :: taken), by simp, fun shut hshut ↦ ?_⟩
    cases shut with
    | true => exact absurd (hshut rfl) hne
    | false => exact .branch hkeyword hopening hphrase hclosing (hderived false nofun)
  · refine ⟨opening :: (test ++ closing :: (taken ++ otherwise :: others)), by simp,
      fun shut hshut ↦ ?_⟩
    exact .branchElse hkeyword hopening hphrase hclosing
      (hderived true fun _ ↦ congrArg some hotherwise) hotherwise (hothers shut hshut)

/-! ## Declarations -/

theorem declarations_grows {declaration : DeclParser (Option Stmt)} (h : Grows declaration)
    (count : Nat) (body : List Stmt) : Grows (declarations declaration count body) := by
  induction count generalizing body with
  | zero => exact grows_pure _
  | succ count ih =>
    intro before result after hread
    unfold declarations at hread
    split at hread
    · cases hread
      exact List.suffix_refl _
    · split at hread
      · rename_i hfirst
        exact (h _ _ _ hfirst).trans (ih _ _ _ _ hread)
      · rename_i hfirst
        exact (h _ _ _ hfirst).trans (ih _ _ _ _ hread)
      · cases hread

/-- Declarations between which no fault was added are declarations of the grammar. -/
theorem declarations_eq_ok {declaration : DeclParser (Option Stmt)} {count : Nat}
    {body result : List Stmt} (hdeclaration : ReadsDeclaration size inside declaration)
    (hgrows : Grows declaration) (hsize : tokens.length ≤ size)
    (h : declarations declaration count body ⟨tokens, errors⟩ = .ok result ⟨rest, errors⟩) :
    ∃ taken trees, tokens = taken ++ rest ∧ result = body.reverse ++ trees ∧
      Declarations inside taken trees := by
  induction count generalizing body tokens with
  | zero =>
    obtain ⟨rfl, hprogress⟩ := pure_eq_ok h
    obtain ⟨rfl, -⟩ := Progress.mk.inj hprogress
    exact ⟨[], [], rfl, by simp, .nil⟩
  | succ count ih =>
    unfold declarations at h
    split at h
    · cases h
      exact ⟨[], [], rfl, by simp, .nil⟩
    · split at h
      · rename_i tree after hfirst
        obtain ⟨mid, errors'⟩ := after
        obtain rfl : errors = errors' :=
          eq_of_suffix_of_suffix (hgrows _ _ _ hfirst) (declarations_grows hgrows _ _ _ _ _ h)
        obtain ⟨_, taken, heq, rfl, hderived⟩ := hdeclaration _ _ _ _ hsize hfirst
        cases heq
        rw [List.length_append] at hsize
        obtain ⟨others, trees, rfl, rfl, hothers⟩ := ih (by omega) h
        exact ⟨taken ++ others, tree :: trees, by simp, by simp, .cons hderived hothers⟩
      · rename_i after hfirst
        obtain ⟨mid, errors'⟩ := after
        obtain rfl : errors = errors' :=
          eq_of_suffix_of_suffix (hgrows _ _ _ hfirst) (declarations_grows hgrows _ _ _ _ _ h)
        obtain ⟨tree, _, heq, -, -⟩ := hdeclaration _ _ _ _ hsize hfirst
        cases heq
      · cases h

theorem blockBody_eq_ok {declaration : DeclParser (Option Stmt)} {result : List Stmt}
    (hdeclaration : ReadsDeclaration size inside declaration) (hgrows : Grows declaration)
    (hsize : tokens.length ≤ size)
    (h : blockBody size declaration ⟨tokens, errors⟩ = .ok result ⟨rest, errors⟩) :
    ∃ taken closing, tokens = taken ++ closing :: rest ∧ closing.kind = .rightBrace ∧
      Declarations inside taken result := by
  obtain ⟨body, mid, hbody, hclose⟩ := bind_eq_ok_of_grows (declarations_grows hgrows _ _)
    (fun _ ↦ (grows_lift _).bind fun _ ↦ grows_pure _) h
  obtain ⟨closing, _, hlifted, hpure⟩ := bind_eq_ok hclose
  obtain ⟨rfl, rfl⟩ := pure_eq_ok hpure
  obtain ⟨rfl, hclosing⟩ := expectSymbol_eq_ok (eq_ok_of_lift hlifted)
  obtain ⟨taken, trees, rfl, rfl, hderived⟩ := declarations_eq_ok hdeclaration hgrows hsize hbody
  exact ⟨taken, closing, rfl, hclosing, hderived⟩

/-- What is read as a declaration without a fault is one. -/
theorem declared_eq_ok {expr : Parser Expr} {nested : DeclParser (Option Stmt)}
    {other : StmtParser Stmt} (hexpr : Reads size .none expr)
    (hnested : ReadsDeclaration size true nested) (hgrows : Grows nested)
    (hother : ReadsStatement size inside other) (hsize : tokens.length ≤ size)
    (h : declared size expr nested other ⟨tokens, errors⟩ = .ok tree ⟨rest, errors⟩) :
    ∃ taken, tokens = taken ++ rest ∧ Declaration inside taken tree := by
  rcases ite_eq_ok h with ⟨_, hlifted, hvar⟩ | ⟨_, hlifted, hrest⟩
  · obtain ⟨mid, haccepts, rfl⟩ := lift_eq_ok hlifted
    obtain ⟨keyword, rfl, hkeyword⟩ := accepts_eq_ok_true haccepts
    have hread := eq_ok_of_lift hvar
    rw [List.length_cons] at hsize
    obtain ⟨taken, rfl, hdeclaration⟩ := variableDeclaration_eq_ok hexpr (by omega) hkeyword hread
    exact ⟨keyword :: taken, rfl, .var hdeclaration⟩
  obtain ⟨mid, haccepts, rfl⟩ := lift_eq_ok hlifted
  obtain ⟨rfl, -⟩ := accepts_eq_ok_false haccepts
  rcases ite_eq_ok hrest with ⟨_, hlifted', hfun⟩ | ⟨_, hlifted', hstatement⟩
  · obtain ⟨mid, haccepts', rfl⟩ := lift_eq_ok hlifted'
    obtain ⟨keyword, rfl, hkeyword⟩ := accepts_eq_ok_true haccepts'
    obtain ⟨⟨name, params⟩, _, hlifted'', hbody⟩ := bind_eq_ok hfun
    obtain ⟨mid, hhead, rfl⟩ := lift_eq_ok hlifted''
    obtain ⟨body, _, hbody, hpure⟩ := bind_eq_ok hbody
    obtain ⟨rfl, rfl⟩ := pure_eq_ok hpure
    rw [List.length_cons] at hsize
    obtain ⟨opening, inner, closing, brace, rfl, hname, hopening, hparams, hclosing, hbrace⟩ :=
      functionHead_eq_ok (by omega) hhead
    simp only [List.length_cons, List.length_append] at hsize
    obtain ⟨taken, final, rfl, hfinal, hderived⟩ :=
      blockBody_eq_ok hnested hgrows (by omega) hbody
    exact ⟨_, by simp, .function hkeyword hname hopening hparams hclosing hbrace hderived hfinal⟩
  · obtain ⟨mid, haccepts', rfl⟩ := lift_eq_ok hlifted'
    obtain ⟨rfl, -⟩ := accepts_eq_ok_false haccepts'
    obtain ⟨taken, rfl, hderived⟩ := hother _ _ _ _ hsize hstatement
    exact ⟨taken, rfl, .statement (hderived false nofun)⟩

/-- If no fault was recorded, there was no need to recover. -/
theorem recover_eq_ok {parser : StmtParser Stmt} {good : Stmt → Prop} {bad : Refusal → Prop}
    {result : Option Stmt}
    (hparser : Maintains (fun progress ↦ errors <:+ progress.errors) good bad parser)
    (h : recover parser ⟨tokens, errors⟩ = .ok result ⟨rest, errors⟩) :
    ∃ tree, result = some tree ∧ parser ⟨tokens, errors⟩ = .ok tree ⟨rest, errors⟩ := by
  rw [recover_eq] at h
  split at h
  · rename_i tree after hread
    cases h
    exact ⟨tree, rfl, hread⟩
  · rename_i error after hread
    have hsuffix := (hparser.error (List.suffix_refl _) hread).1.length_le
    have herrors : (error :: after.errors).length = errors.length := by
      cases h
      rfl
    rw [List.length_cons] at herrors
    omega
  · cases h

end

/-- All that is read without a fault is derived by the grammar, by induction on the levels that may
be opened. -/
theorem declaration_statement_reads (size levels : Nat) (inside : Bool) :
    ReadsDeclaration size inside (declaration size levels inside) ∧
      ReadsStatement size inside (statement size levels inside) := by
  have hexpr (levels : Nat) := expression_reads size levels .none
  induction levels using Nat.strongRecOn generalizing inside with
  | ind levels ih =>
    constructor
    · rcases levels with _ | _ | _ | levels
      iterate 3 exact fun _ _ _ _ _ h ↦ nomatch h
      · intro tokens errors result rest hsize h
        rw [declaration_eq_recover] at h
        obtain ⟨tree, rfl, hread⟩ := recover_eq_ok (declared_growing errors size levels inside) h
        obtain ⟨taken, htaken, hderived⟩ := declared_eq_ok (hexpr _) (ih levels (by omega) true).1
          (declaration_grows size levels true) (ih (levels + 2) (by omega) inside).2 hsize hread
        exact ⟨tree, taken, rfl, htaken, hderived⟩
    · rcases levels with _ | _ | levels
      iterate 2 exact fun _ _ _ _ _ h ↦ nomatch h
      · have hstatement := (ih levels (by omega) inside).2
        intro tokens errors tree rest hsize h
        unfold statement at h
        obtain ⟨leading, _, hlifted, hrest⟩ := bind_eq_ok h
        obtain ⟨mid, hleader, rfl⟩ := lift_eq_ok hlifted
        obtain ⟨rfl, hleads⟩ := leader_eq_ok hleader
        cases leading with
        | none =>
          have hread := eq_ok_of_lift hrest
          obtain ⟨taken, rfl, hderived⟩ := expressionStatement_eq_ok (hexpr _) hsize hread
          exact ⟨taken, rfl, fun _ _ ↦ .expression hderived⟩
        | some keyword =>
          rw [Option.toList_some, List.singleton_append, List.length_cons] at hsize
          suffices hled : ∃ taken, mid = taken ++ rest ∧ Derived inside (keyword :: taken) rest tree by
            obtain ⟨taken, rfl, hderived⟩ := hled
            exact ⟨keyword :: taken, rfl, hderived⟩
          have hmem := hleads keyword rfl
          simp only [leaders, List.mem_cons, List.not_mem_nil, or_false] at hmem
          rcases hmem with hkind | hkind | hkind | hkind | hkind | hkind | hkind
          all_goals simp only [hkind] at hrest
          · exact clauses_eq_ok (hexpr _) hstatement (by omega) hkind hrest
          · exact branch_eq_ok (hexpr _) hstatement (statement_grows size levels inside) (by omega)
              hkind hrest
          · obtain ⟨body, hbody, rfl⟩ := map_eq_ok hrest
            obtain ⟨taken, closing, rfl, hclosing, hderived⟩ := blockBody_eq_ok
              (ih levels (by omega) inside).1 (declaration_grows size levels inside) (by omega) hbody
            exact ⟨taken ++ [closing], by simp, fun _ _ ↦ .block hkind hderived hclosing⟩
          · obtain ⟨taken, htaken, hderived⟩ :=
              printStatement_eq_ok (hexpr _) (by omega) hkind (eq_ok_of_lift hrest)
            exact ⟨taken, htaken, fun shut _ ↦ hderived shut⟩
          · obtain ⟨taken, htaken, hderived⟩ :=
              returnStatement_eq_ok (hexpr _) (by omega) hkind (eq_ok_of_lift hrest)
            exact ⟨taken, htaken, fun shut _ ↦ hderived shut⟩
          · exact loop_eq_ok (hexpr _) hstatement (by omega) hkind hrest
          · obtain ⟨rfl, hprogress⟩ := pure_eq_ok hrest
            obtain ⟨rfl, -⟩ := Progress.mk.inj hprogress
            exact ⟨[], rfl, fun _ _ ↦ .empty hkind⟩

end Lox.Parser
