import Lox.Tree.Parse.Expr

/-!
# Parsing statements

A statement is recognised by its first token.  A declaration that cannot be read is recorded as a
fault and left out; parsing goes on at what is likely the next statement.
-/

namespace Lox

/-- What is left to be read, and the faults found so far, the latest first. -/
structure Progress where
  rest : List Token
  errors : List SyntaxError

abbrev StmtParser := EStateM Refusal Progress

/-- Reads declarations, for which only an interruption is an obstacle. -/
abbrev DeclParser := EStateM Interruption Progress

namespace Parser

def lift {α : Type} (parser : Parser α) : StmtParser α := fun progress ↦
  match parser progress.rest with
  | .ok a rest => .ok a { progress with rest }
  | .error refusal rest => .error refusal { progress with rest }

instance : MonadLift Parser StmtParser := ⟨lift⟩

def opensStatement : Kind → Bool
  | .kwClass | .kwFun | .kwVar | .kwFor | .kwIf | .kwWhile | .kwPrint | .kwReturn => true
  | _ => false

/-- Skips at most `count` tokens, until a semicolon has been passed or a statement begins, where
`passed` is the token before. -/
def skipFrom : (count : Nat) → (passed : Token) → EStateM Interruption (List Token) Unit
  | 0, _ => pure ()
  | count + 1, passed => do
    let tokens ← get
    if atEnd tokens || passed.kind = .semicolon || tokens.head?.any (opensStatement ·.kind) then
      pure ()
    else
      skipFrom count (← take)

/-- Skips at least one token, up to what is likely the next statement, but never the end. -/
def skipFaulty : EStateM Interruption (List Token) Unit := do
  let tokens ← get
  if atEnd tokens then pure () else skipFrom tokens.length (← take)

/-- Records the fault of a declaration that cannot be read, and skips what is left of it. -/
def recover (declaration : StmtParser Stmt) : DeclParser (Option Stmt) := fun progress ↦
  match declaration progress with
  | .ok stmt progress => .ok (some stmt) progress
  | .error (.invalid error) progress =>
    match skipFaulty progress.rest with
    | .ok () rest => .ok none ⟨rest, error :: progress.errors⟩
    | .error cause rest => .error cause ⟨rest, error :: progress.errors⟩
  | .error (.interrupted cause) progress => .error cause progress

/-- At most `count` declarations up to a closing brace or the end, after those already read, which
are given last first. -/
def declarations (declaration : DeclParser (Option Stmt)) :
    (count : Nat) → List Stmt → StmtParser (List Stmt)
  | 0, body => pure body.reverse
  | count + 1, body => fun progress ↦
    if atEnd progress.rest || progress.rest.head?.any (·.kind = .rightBrace) then
      .ok body.reverse progress
    else
      match declaration progress with
      | .ok (some stmt) progress => declarations declaration count (stmt :: body) progress
      | .ok none progress => declarations declaration count body progress
      | .error cause progress => .error (.interrupted cause) progress

def blockBody (size : Nat) (declaration : DeclParser (Option Stmt)) : StmtParser (List Stmt) := do
  let body ← declarations declaration size []
  let _ ← expectSymbol .rightBrace .block
  pure body

def variableDeclaration (expr : Parser Expr) : Parser Stmt := do
  let name ← expect .identifier .noVariableName
  let initial ← after .equal expr
  let _ ← expectSymbol .semicolon .variableDeclaration
  pure (.declare name initial)

def expressionStatement (expr : Parser Expr) : Parser Stmt := do
  let value ← expr
  let _ ← expectSymbol .semicolon .expression
  pure (.expression value)

def printStatement (expr : Parser Expr) : Parser Stmt := do
  let value ← expr
  let _ ← expectSymbol .semicolon .value
  pure (.print value)

def returnStatement (inside : Bool) (expr : Parser Expr) (keyword : Token) : Parser Stmt :=
  if inside then do
    let value ← unlessAt .semicolon expr
    let _ ← expectSymbol .semicolon .returnValue
    pure (.ret keyword value)
  else
    reject keyword .returnOutside

def functionHead (size : Nat) : Parser (Token × List Token) := do
  let name ← expect .identifier .noFunctionName
  let _ ← expectSymbol .leftParen .functionName
  let params ← commaSeparated size (expect .identifier .noParameterName)
  let _ ← expectSymbol .rightParen .parameters
  let _ ← expectSymbol .leftBrace .functionBody
  pure (name, params)

def conditionIn (before after : Site) (expr : Parser Expr) : Parser Expr := do
  let _ ← expectSymbol .leftParen before
  let condition ← expr
  let _ ← expectSymbol .rightParen after
  pure condition

structure ForClauses where
  initial : Option Stmt
  condition : Expr
  step : Option Expr

/-- The first clause: a declaration, an expression, or nothing, with the semicolon after it. -/
def firstClause (expr : Parser Expr) : Parser (Option Stmt) := do
  if ← accepts .semicolon then
    pure none
  else if ← accepts .kwVar then
    some <$> variableDeclaration expr
  else
    some <$> expressionStatement expr

/-- The three clauses in parentheses; a missing condition holds always. -/
def forClauses (expr : Parser Expr) : Parser ForClauses := do
  let _ ← expectSymbol .leftParen .forKeyword
  let initial ← firstClause expr
  let condition ← unlessAt .semicolon expr
  let _ ← expectSymbol .semicolon .loopCondition
  let step ← unlessAt .rightParen expr
  let _ ← expectSymbol .rightParen .forClauses
  pure ⟨initial, condition.getD (.literal (.bool true)), step⟩

/-- A loop that counts, in terms of one that does not. -/
def ForClauses.toLoop (clauses : ForClauses) (body : Stmt) : Stmt :=
  let body := match clauses.step with
    | some step => .block [body, .expression step]
    | none => body
  let loop := Stmt.loop clauses.condition body
  match clauses.initial with
  | some initial => .block [initial, loop]
  | none => loop

def elseBranch (branch : StmtParser Stmt) : StmtParser (Option Stmt) := do
  if ← accepts .kwElse then some <$> branch else pure none

def leader : Parser (Option Token) := do
  if (← get).head?.any (leads ·.kind) then some <$> advance else pure none
where
  leads : Kind → Bool
    | .kwFor | .kwIf | .leftBrace | .kwPrint | .kwReturn | .kwWhile | .semicolon => true
    | _ => false

mutual

def declaration (size : Nat) : (levels : Nat) → (inside : Bool) → DeclParser (Option Stmt)
  | levels + 3, inside => recover do
    if ← accepts .kwVar then
      variableDeclaration (expression size (levels + 1) .none)
    else if ← accepts .kwFun then
      let (name, params) ← functionHead size
      let body ← blockBody size (declaration size levels true)
      pure (.function name params body)
    else
      statement size (levels + 2) inside
  | _, _ => throw .tooDeep

def statement (size : Nat) : (levels : Nat) → (inside : Bool) → StmtParser Stmt
  | levels + 2, inside => do
    match ← leader with
    | none => expressionStatement (expression size levels .none)
    | some token =>
      match token.kind with
      | .kwFor =>
        let clauses ← forClauses (expression size levels .none)
        let body ← statement size levels inside
        pure (clauses.toLoop body)
      | .kwIf =>
        let condition ← conditionIn .ifKeyword .ifCondition (expression size levels .none)
        let yes ← statement size levels inside
        let no ← elseBranch (statement size levels inside)
        pure (.branch condition yes no)
      | .leftBrace => .block <$> blockBody size (declaration size levels inside)
      | .kwPrint => printStatement (expression size (levels + 1) .none)
      | .kwReturn => returnStatement inside (expression size levels .none) token
      | .kwWhile =>
        let condition ← conditionIn .whileKeyword .condition (expression size levels .none)
        let body ← statement size levels inside
        pure (.loop condition body)
      | _ => pure .empty
  | _, _ => throw (.interrupted .tooDeep)

end

end Parser

structure Parsed where
  statements : List Stmt
  errors : List SyntaxError
  /-- Why parsing stopped before the end, and what was not read. -/
  stopped : Option (Interruption × List Token)

namespace Parser

/-- At most `count` declarations up to the end, after those already read, which are given last
first. -/
def program (declaration : DeclParser (Option Stmt)) :
    (count : Nat) → List Stmt → Progress → Parsed
  | 0, body, progress => ⟨body.reverse, progress.errors.reverse, none⟩
  | count + 1, body, progress =>
    if atEnd progress.rest then
      ⟨body.reverse, progress.errors.reverse, none⟩
    else
      match declaration progress with
      | .ok (some stmt) progress => program declaration count (stmt :: body) progress
      | .ok none progress => program declaration count body progress
      | .error cause progress =>
        ⟨body.reverse, progress.errors.reverse, some (cause, progress.rest)⟩

end Parser

/-- Parses a token list up to the mark of its end, opening at most `levels` levels of nesting. -/
def parse (levels : Nat) (tokens : List Token) : Parsed :=
  let size := tokens.length
  Parser.program (Parser.declaration size levels false) size [] ⟨tokens, []⟩

def nestingMessage : String := "Too much nesting."

def Parsed.diagnostics (parsed : Parsed) : List Diagnostic :=
  parsed.errors.map SyntaxError.diagnostic ++
    match parsed.stopped with
    | some (.tooDeep, token :: _) => [.atToken .overflow token nestingMessage]
    | _ => []

/-- Whether the tokens ended where one was needed. -/
def Parsed.ranOut (parsed : Parsed) : Bool :=
  match parsed.stopped with
  | some (.ranOut, _) | some (.tooDeep, []) => true
  | _ => false

/-- Whether a token was taken where there is none. -/
def Parsed.pastEnd (parsed : Parsed) : Bool :=
  parsed.stopped.any (·.1 = .pastEnd)

end Lox
