import Lox.Proofs.Stateful
import Lox.Tree.Parse.Stmt

/-!
# How parsers read

Equations for the parsers of single tokens, for one round of climbing and for declarations.  The
parsers of single tokens have a rule for going forward, which tells what is read from given tokens,
and a rule for going back, which tells from what was read what the tokens were.
-/

namespace Lox.Parser

open Stateful

def nextKind? (tokens : List Token) : Option Kind :=
  tokens.head?.map Token.kind

@[simp]
theorem nextKind?_cons (token : Token) (rest : List Token) :
    nextKind? (token :: rest) = some token.kind := rfl

/-! ## Single tokens

No parser takes a token without having looked at it, so that none is taken behind the last one. -/

theorem next_cons (token : Token) (rest : List Token) :
    next (token :: rest) = .ok token (token :: rest) := rfl

theorem take_cons (token : Token) (rest : List Token) : take (token :: rest) = .ok token rest := rfl

theorem advance_cons (token : Token) (rest : List Token) :
    advance (token :: rest) = .ok token rest := rfl

/-- Looking at the next token takes nothing. -/
theorem sees_eq (kind : Kind) (tokens : List Token) :
    sees kind tokens = .ok (decide (nextKind? tokens = some kind)) tokens := by
  match tokens with
  | [] => rfl
  | token :: rest => simp [sees]

/-- A required token is taken if it is there; another one stays where it is. -/
theorem expect_eq (kind : Kind) (cause : SyntaxCause) (tokens : List Token) :
    expect kind cause tokens =
      match tokens with
      | [] => .error (.interrupted .ranOut) []
      | token :: rest =>
        if token.kind = kind then .ok token rest
        else .error (.invalid ⟨token, cause⟩) (token :: rest) := by
  unfold expect
  match tokens with
  | [] => rfl
  | token :: rest =>
    rw [bind_of_ok (sees_eq kind _)]
    by_cases h : token.kind = kind
    · simp only [nextKind?_cons, h, decide_true, if_pos]
      rfl
    · simp only [nextKind?_cons, Option.some.injEq, h, decide_false, if_neg, Bool.false_eq_true,
        not_false_eq_true]
      rfl

/-- An optional token is taken if it is there. -/
theorem accepts_eq (kind : Kind) (tokens : List Token) :
    accepts kind tokens =
      match tokens with
      | [] => .ok false []
      | token :: rest => if token.kind = kind then .ok true rest else .ok false (token :: rest) := by
  unfold accepts
  match tokens with
  | [] => rfl
  | token :: rest =>
    rw [bind_of_ok (sees_eq kind _)]
    by_cases h : token.kind = kind
    · simp only [nextKind?_cons, h, decide_true, if_pos]
      rfl
    · simp only [nextKind?_cons, Option.some.injEq, h, decide_false, if_neg, Bool.false_eq_true,
        not_false_eq_true]
      rfl

theorem leader_eq (tokens : List Token) :
    leader tokens =
      match tokens with
      | [] => .ok none []
      | token :: rest =>
        match token.kind with
        | .kwFor | .kwIf | .leftBrace | .kwPrint | .kwReturn | .kwWhile | .semicolon =>
          .ok (some token) rest
        | _ => .ok none (token :: rest) := by
  match tokens with
  | [] => rfl
  | ⟨kind, _, _, _, _⟩ :: rest => cases kind <;> rfl

theorem expect_cons {kind : Kind} {token : Token} (h : token.kind = kind) (cause : SyntaxCause)
    (rest : List Token) : expect kind cause (token :: rest) = .ok token rest := by
  rw [expect_eq]
  exact if_pos h

theorem expect_of_ne {kind : Kind} {token : Token} (h : token.kind ≠ kind) (cause : SyntaxCause)
    (rest : List Token) :
    expect kind cause (token :: rest) = .error (.invalid ⟨token, cause⟩) (token :: rest) := by
  rw [expect_eq]
  exact if_neg h

/-- Whatever is taken as required is of the required kind. -/
theorem expect_eq_ok {kind : Kind} {cause : SyntaxCause} {tokens rest : List Token} {token : Token}
    (h : expect kind cause tokens = .ok token rest) :
    tokens = token :: rest ∧ token.kind = kind := by
  match tokens with
  | [] => cases h
  | first :: others =>
    simp only [expect_eq] at h
    split at h
    · cases h
      exact ⟨rfl, ‹_›⟩
    · cases h

theorem expectSymbol_cons {symbol : Kind} {token : Token} (h : token.kind = symbol) (site : Site)
    (rest : List Token) : expectSymbol symbol site (token :: rest) = .ok token rest :=
  expect_cons h _ rest

theorem expectSymbol_eq_ok {symbol : Kind} {site : Site} {tokens rest : List Token} {token : Token}
    (h : expectSymbol symbol site tokens = .ok token rest) :
    tokens = token :: rest ∧ token.kind = symbol :=
  expect_eq_ok h

theorem accepts_cons {kind : Kind} {token : Token} (h : token.kind = kind) (rest : List Token) :
    accepts kind (token :: rest) = .ok true rest := by
  rw [accepts_eq]
  exact if_pos h

theorem accepts_of_ne {kind : Kind} {tokens : List Token} (h : nextKind? tokens ≠ some kind) :
    accepts kind tokens = .ok false tokens := by
  rw [accepts_eq]
  match tokens with
  | [] => rfl
  | token :: rest => exact if_neg fun heq ↦ h (congrArg some heq)

/-- What was accepted was there. -/
theorem accepts_eq_ok_true {kind : Kind} {tokens rest : List Token}
    (h : accepts kind tokens = .ok true rest) :
    ∃ token, tokens = token :: rest ∧ token.kind = kind := by
  match tokens with
  | [] => cases h
  | token :: others =>
    simp only [accepts_eq] at h
    split at h
    · cases h
      exact ⟨token, rfl, ‹_›⟩
    · cases h

theorem accepts_eq_ok_false {kind : Kind} {tokens rest : List Token}
    (h : accepts kind tokens = .ok false rest) : tokens = rest ∧ nextKind? rest ≠ some kind := by
  match tokens with
  | [] =>
    cases h
    exact ⟨rfl, nofun⟩
  | token :: others =>
    simp only [accepts_eq] at h
    split at h
    · cases h
    · rename_i hne
      cases h
      exact ⟨rfl, fun heq ↦ hne (Option.some.inj heq)⟩

theorem sees_cons {kind : Kind} {token : Token} (h : token.kind = kind) (rest : List Token) :
    sees kind (token :: rest) = .ok true (token :: rest) := by
  simp [sees_eq, h]

theorem sees_of_ne {kind : Kind} {tokens : List Token} (h : nextKind? tokens ≠ some kind) :
    sees kind tokens = .ok false tokens := by
  simp [sees_eq, h]

theorem sees_eq_ok {kind : Kind} {tokens rest : List Token} {seen : Bool}
    (h : sees kind tokens = .ok seen rest) :
    tokens = rest ∧ (seen = true ↔ nextKind? rest = some kind) := by
  rw [sees_eq] at h
  cases h
  exact ⟨rfl, decide_eq_true_iff⟩

/-! ## Operands and one round of climbing -/

/-- The first token decides what an operand is. -/
theorem operand_eq (nested : Precedence → Parser Expr) (tokens : List Token) :
    operand nested tokens =
      match tokens with
      | [] => .error (.interrupted .ranOut) []
      | token :: rest =>
        match token.kind with
        | .leftParen => operand.group nested rest
        | .bang | .minus => (Expr.unary token <$> nested .unary) rest
        | .kwFalse => .ok (.literal (.bool false)) rest
        | .kwTrue => .ok (.literal (.bool true)) rest
        | .kwNil => .ok (.literal .nil) rest
        | .number | .string => .ok (.literal token.literal) rest
        | .identifier => .ok (.var token) rest
        | _ => .error (.invalid ⟨token, .noExpression⟩) (token :: rest) := by
  match tokens with
  | [] => rfl
  | ⟨kind, _, _, _, _⟩ :: rest => cases kind <;> rfl

def extended (size : Nat) (nested : Precedence → Parser Expr) (argument : Parser Expr)
    (operator : Token) (own : Precedence) (left : Expr) : Parser Expr :=
  if operator.kind = .leftParen then callOf size argument left
  else nested (operator.kind.rightBound own) >>= combine operator left

/-- The next token decides whether an expression goes on, and with what. -/
theorem climb_cons (size : Nat) (nested : Precedence → Parser Expr) (argument : Parser Expr)
    (least : Precedence) (count : Nat) (left : Expr) (operator : Token) (rest : List Token) :
    climb size nested argument least (count + 1) left (operator :: rest) =
      match operator.kind.precedence? with
      | none => .ok left (operator :: rest)
      | some own =>
        if least.level < own.level then
          (extended size nested argument operator own left >>=
            climb size nested argument least count) rest
        else .ok left (operator :: rest) := by
  rw [climb, bind_of_ok (get_eq _)]
  by_cases heof : operator.kind = .eof
  · have hend : atEnd (operator :: rest) = true := decide_eq_true heof
    rw [if_pos hend, heof]
    rfl
  · have hend : atEnd (operator :: rest) ≠ true := by simp [atEnd, heof]
    rw [if_neg hend, bind_of_ok (next_cons operator rest)]
    cases hown : operator.kind.precedence? with
    | none => rfl
    | some own =>
      dsimp only
      split
      · rw [bind_of_ok (advance_cons operator rest)]
        unfold extended
        split
        · rfl
        · rw [bind_assoc]
      · rfl

/-! ## Skipping -/

/-- What is left when tokens have been skipped until a semicolon has been passed or a statement
begins, where `passed` is the token before. -/
def skippedFrom (passed : Token) : List Token → List Token
  | [] => []
  | token :: rest =>
    if token.kind = .eof ∨ passed.kind = .semicolon ∨ opensStatement token.kind then token :: rest
    else skippedFrom token rest

/-- What is left of a faulty declaration and the tokens behind it. -/
def skipped : List Token → List Token
  | [] => []
  | token :: rest => if token.kind = .eof then token :: rest else skippedFrom token rest

/-- If there are no fewer tries than tokens, skipping goes on until it is done. -/
theorem skipFrom_eq {count : Nat} {passed : Token} {tokens : List Token}
    (h : tokens.length ≤ count) :
    skipFrom count passed tokens = .ok () (skippedFrom passed tokens) := by
  induction count generalizing passed tokens with
  | zero =>
    rw [List.eq_nil_of_length_eq_zero (Nat.le_zero.mp h)]
    rfl
  | succ count ih =>
    rw [skipFrom, bind_of_ok (get_eq tokens)]
    match tokens with
    | [] => rfl
    | token :: rest =>
      rw [skippedFrom]
      by_cases hstop : token.kind = .eof ∨ passed.kind = .semicolon ∨ opensStatement token.kind
      · rw [if_pos hstop, if_pos (by simpa [atEnd, or_assoc] using hstop)]
        rfl
      · rw [if_neg hstop, if_neg (by simpa [atEnd, or_assoc] using hstop),
          bind_of_ok (take_cons token rest)]
        exact ih (Nat.le_of_succ_le_succ h)

/-- Skipping does not depend on how often it is tried. -/
theorem skipFaulty_eq (tokens : List Token) : skipFaulty tokens = .ok () (skipped tokens) := by
  rw [skipFaulty, bind_of_ok (get_eq tokens)]
  match tokens with
  | [] => rfl
  | token :: rest =>
    rw [skipped]
    by_cases hkind : token.kind = .eof
    · have hend : atEnd (token :: rest) = true := decide_eq_true hkind
      rw [if_pos hkind, if_pos hend]
      rfl
    · have hend : atEnd (token :: rest) ≠ true := by simp [atEnd, hkind]
      rw [if_neg hkind, if_neg hend, bind_of_ok (take_cons token rest)]
      exact skipFrom_eq (Nat.le_succ rest.length)

/-! ## Declarations -/

/-- A declaration, or else what `other` reads, without a way out of faults. -/
def declared (size : Nat) (expr : Parser Expr) (nested : DeclParser (Option Stmt))
    (other : StmtParser Stmt) : StmtParser Stmt := do
  if ← accepts .kwVar then
    variableDeclaration expr
  else if ← accepts .kwFun then
    let (name, params) ← functionHead size
    let body ← blockBody size nested
    pure (.function name params body)
  else
    other

/-- With levels for it, a declaration is a construct with a way out of faults. -/
theorem declaration_eq_recover (size levels : Nat) (inside : Bool) :
    declaration size (levels + 3) inside =
      recover (declared size (expression size (levels + 1) .none) (declaration size levels true)
        (statement size (levels + 2) inside)) := by
  rw [declaration]
  rfl

/-- The way out of a fault is to record it and to skip; an interruption has none. -/
theorem recover_eq (declaration : StmtParser Stmt) (progress : Progress) :
    recover declaration progress =
      match declaration progress with
      | .ok stmt progress => .ok (some stmt) progress
      | .error (.invalid error) progress =>
        .ok none ⟨skipped progress.rest, error :: progress.errors⟩
      | .error (.interrupted cause) progress => .error cause progress := by
  unfold recover
  cases declaration progress with
  | ok stmt after => rfl
  | error refusal after =>
    cases refusal with
    | interrupted cause => rfl
    | invalid error => simp only [skipFaulty_eq]

end Lox.Parser
