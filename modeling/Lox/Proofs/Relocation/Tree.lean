import Lox.Proofs.Grammar

/-!
# Relocated trees

The places of tokens in a text, which are lines and offsets, can be changed without changing what
the tokens are.  The grammar does not look at places, so what it derives from relocated tokens are
the relocated trees.
-/

namespace Lox

/-- A change of all places in a text. -/
structure Relocation where
  line : Int → Int
  offset : Int → Int

namespace Relocation

/-- A text is moved behind `lines` more lines and `count` more characters. -/
def shift (lines count : Nat) : Relocation :=
  ⟨(· + lines), (· + count)⟩

def forget : Relocation :=
  ⟨fun _ ↦ 0, fun _ ↦ 0⟩

def andThen (r s : Relocation) : Relocation :=
  ⟨fun line ↦ s.line (r.line line), fun offset ↦ s.offset (r.offset offset)⟩

theorem andThen_forget (r : Relocation) : r.andThen forget = forget :=
  rfl

end Relocation

def Token.relocate (r : Relocation) (token : Token) : Token :=
  { token with line := r.line token.line, offset := r.offset token.offset }

namespace Token

variable (r : Relocation) (token : Token)

@[simp]
theorem relocate_kind : (token.relocate r).kind = token.kind :=
  rfl

@[simp]
theorem relocate_relocate (s : Relocation) :
    (token.relocate r).relocate s = token.relocate (r.andThen s) :=
  rfl

end Token

/-! ## Trees -/

mutual

def Expr.relocate (r : Relocation) : Expr → Expr
  | .literal value => .literal value
  | .var name => .var (name.relocate r)
  | .assign name value => .assign (name.relocate r) (value.relocate r)
  | .unary operator operand => .unary (operator.relocate r) (operand.relocate r)
  | .binary operator left right =>
    .binary (operator.relocate r) (left.relocate r) (right.relocate r)
  | .logical operator left right =>
    .logical (operator.relocate r) (left.relocate r) (right.relocate r)
  | .call callee paren arguments =>
    .call (callee.relocate r) (paren.relocate r) (Expr.relocateAll r arguments)
  | .grouping inner => .grouping (inner.relocate r)
  | .void => .void

def Expr.relocateAll (r : Relocation) : List Expr → List Expr
  | [] => []
  | e :: es => e.relocate r :: Expr.relocateAll r es

end

mutual

def Stmt.relocate (r : Relocation) : Stmt → Stmt
  | .block body => .block (Stmt.relocateAll r body)
  | .empty => .empty
  | .expression value => .expression (value.relocate r)
  | .function name params body =>
    .function (name.relocate r) (params.map (Token.relocate r)) (Stmt.relocateAll r body)
  | .branch condition yes no =>
    .branch (condition.relocate r) (yes.relocate r) (Stmt.relocate? r no)
  | .print value => .print (value.relocate r)
  | .ret keyword value => .ret (keyword.relocate r) (value.map (Expr.relocate r))
  | .declare name initial => .declare (name.relocate r) (initial.map (Expr.relocate r))
  | .loop condition body => .loop (condition.relocate r) (body.relocate r)
  | .void => .void

def Stmt.relocateAll (r : Relocation) : List Stmt → List Stmt
  | [] => []
  | s :: ss => s.relocate r :: Stmt.relocateAll r ss

def Stmt.relocate? (r : Relocation) : Option Stmt → Option Stmt
  | none => none
  | some s => some (s.relocate r)

end

theorem Stmt.relocateAll_eq_map (r : Relocation) (body : List Stmt) :
    Stmt.relocateAll r body = body.map (Stmt.relocate r) := by
  induction body with
  | nil => rfl
  | cons s rest ih => rw [Stmt.relocateAll, ih, List.map_cons]

mutual

@[simp]
theorem Expr.relocate_relocate (r s : Relocation) (e : Expr) :
    (e.relocate r).relocate s = e.relocate (r.andThen s) := by
  cases e with
  | literal | var | void => simp [Expr.relocate]
  | assign name value => simp [Expr.relocate, Expr.relocate_relocate r s value]
  | unary operator operand => simp [Expr.relocate, Expr.relocate_relocate r s operand]
  | binary operator left right | logical operator left right =>
    simp [Expr.relocate, Expr.relocate_relocate r s left, Expr.relocate_relocate r s right]
  | call callee paren arguments =>
    simp [Expr.relocate, Expr.relocate_relocate r s callee,
      Expr.relocateAll_relocateAll r s arguments]
  | grouping inner => simp [Expr.relocate, Expr.relocate_relocate r s inner]

theorem Expr.relocateAll_relocateAll (r s : Relocation) (es : List Expr) :
    Expr.relocateAll s (Expr.relocateAll r es) = Expr.relocateAll (r.andThen s) es := by
  cases es with
  | nil => rfl
  | cons e es =>
    simp [Expr.relocateAll, Expr.relocate_relocate r s e, Expr.relocateAll_relocateAll r s es]

end

mutual

@[simp]
theorem Stmt.relocate_relocate (r s : Relocation) (stmt : Stmt) :
    (stmt.relocate r).relocate s = stmt.relocate (r.andThen s) := by
  cases stmt with
  | empty | expression | print | void => simp [Stmt.relocate]
  | block body => simp [Stmt.relocate, Stmt.relocateAll_relocateAll r s body]
  | function name params body =>
    simp [Stmt.relocate, Stmt.relocateAll_relocateAll r s body, Function.comp_def]
  | branch condition yes no =>
    simp [Stmt.relocate, Stmt.relocate_relocate r s yes, Stmt.relocate?_relocate? r s no]
  | ret keyword value | declare keyword value => simp [Stmt.relocate, Function.comp_def]
  | loop condition body => simp [Stmt.relocate, Stmt.relocate_relocate r s body]

theorem Stmt.relocateAll_relocateAll (r s : Relocation) (body : List Stmt) :
    Stmt.relocateAll s (Stmt.relocateAll r body) = Stmt.relocateAll (r.andThen s) body := by
  cases body with
  | nil => rfl
  | cons stmt rest =>
    simp [Stmt.relocateAll, Stmt.relocate_relocate r s stmt, Stmt.relocateAll_relocateAll r s rest]

theorem Stmt.relocate?_relocate? (r s : Relocation) (stmt : Option Stmt) :
    Stmt.relocate? s (Stmt.relocate? r stmt) = Stmt.relocate? (r.andThen s) stmt := by
  cases stmt with
  | none => rfl
  | some stmt => simp [Stmt.relocate?, Stmt.relocate_relocate r s stmt]

end

/-! ## Derivations -/

namespace Grammar

variable (r : Relocation)

theorem joined_relocate (operator : Token) (left right : Expr) :
    (joined operator left right).relocate r =
      joined (operator.relocate r) (left.relocate r) (right.relocate r) := by
  by_cases h : operator.kind = .kwAnd ∨ operator.kind = .kwOr
  · simp [joined, h, Expr.relocate]
  · simp [joined, h, Expr.relocate]

/-- A phrase stays one wherever it stands. -/
theorem Phrase.relocate {level : Precedence} {tokens : List Token} {tree : Expr}
    (h : Phrase level tokens tree) :
    Phrase level (tokens.map (Token.relocate r)) (tree.relocate r) := by
  induction h using Phrase.rec
    (motive_2 := fun tokens arguments _ ↦
      Arguments (tokens.map (Token.relocate r)) (Expr.relocateAll r arguments)) with
  | literal h => exact .literal h
  | name h => exact .name h
  | grouping hopening hinner hclosing ih =>
    simp only [List.map_cons, List.map_append]
    exact .grouping hopening ih hclosing
  | call hcallee hopening hclosing ih =>
    rw [List.map_append]
    exact .call ih hopening hclosing
  | callWith hcallee hopening harguments hclosing ihcallee iharguments =>
    simp only [List.map_cons, List.map_append]
    exact .callWith ihcallee hopening iharguments hclosing
  | signed hoperator hoperand ih => exact .signed hoperator ih
  | operation hleft hoperator hright ihleft ihright =>
    rw [joined_relocate, List.map_append]
    exact .operation ihleft hoperator ihright
  | assignment hname hequals hvalue ih => exact .assignment hname hequals ih
  | tighter h ih => exact .tighter ih
  | one h ih => exact .one ih
  | more h hcomma hothers ih ihothers =>
    rw [List.map_append]
    exact .more ih hcomma ihothers

theorem Expression?.relocate {tokens : List Token} {value : Option Expr}
    (h : Expression? tokens value) :
    Expression? (tokens.map (Token.relocate r)) (value.map (Expr.relocate r)) := by
  cases value with
  | none => simpa [Expression?] using h
  | some value => exact Phrase.relocate r h

theorem Initializer.relocate {tokens : List Token} {initial : Option Expr}
    (h : Initializer tokens initial) :
    Initializer (tokens.map (Token.relocate r)) (initial.map (Expr.relocate r)) := by
  cases initial with
  | none => simpa [Initializer] using h
  | some value =>
    obtain ⟨equals, after, rfl, hequals, hvalue⟩ := h
    exact ⟨_, _, rfl, hequals, hvalue.relocate r⟩

theorem VariableDeclaration.relocate {tokens : List Token} {tree : Stmt}
    (h : VariableDeclaration tokens tree) :
    VariableDeclaration (tokens.map (Token.relocate r)) (tree.relocate r) := by
  obtain ⟨hkeyword, hname, hinitial, hsemicolon⟩ := h
  simp only [List.map_cons, List.map_append]
  exact .intro hkeyword hname (hinitial.relocate r) hsemicolon

theorem ExpressionStatement.relocate {tokens : List Token} {tree : Stmt}
    (h : ExpressionStatement tokens tree) :
    ExpressionStatement (tokens.map (Token.relocate r)) (tree.relocate r) := by
  obtain ⟨hvalue, hsemicolon⟩ := h
  rw [List.map_append]
  exact .intro (hvalue.relocate r) hsemicolon

theorem Parameters?.relocate {tokens params : List Token} (h : Parameters? tokens params) :
    Parameters? (tokens.map (Token.relocate r)) (params.map (Token.relocate r)) := by
  rcases h with ⟨rfl, rfl⟩ | h
  · exact .inl ⟨rfl, rfl⟩
  · refine .inr ?_
    induction h with
    | one h => exact .one h
    | more h hcomma hothers ih => exact .more h hcomma ih

theorem FirstClause.relocate {tokens : List Token} {initial : Option Stmt}
    (h : FirstClause tokens initial) :
    FirstClause (tokens.map (Token.relocate r)) (initial.map (Stmt.relocate r)) := by
  cases h with
  | nothing h => exact .nothing h
  | declaration h => exact .declaration (h.relocate r)
  | expression h => exact .expression (h.relocate r)

theorem expanded_relocate (initial : Option Stmt) (condition step : Option Expr) (body : Stmt) :
    (expanded initial condition step body).relocate r =
      expanded (initial.map (Stmt.relocate r)) (condition.map (Expr.relocate r))
        (step.map (Expr.relocate r)) (body.relocate r) := by
  cases initial <;> cases condition <;> cases step <;> rfl

theorem Declarations.relocate {inside : Bool} {tokens : List Token} {trees : List Stmt}
    (h : Declarations inside tokens trees) :
    Declarations inside (tokens.map (Token.relocate r)) (Stmt.relocateAll r trees) := by
  induction h using Declarations.rec
    (motive_1 := fun inside shut tokens tree _ ↦
      Statement inside shut (tokens.map (Token.relocate r)) (tree.relocate r))
    (motive_2 := fun inside tokens tree _ ↦
      Declaration inside (tokens.map (Token.relocate r)) (tree.relocate r)) with
  | expression h => exact .expression (h.relocate r)
  | print hkeyword hvalue hsemicolon =>
    simp only [List.map_cons, List.map_append]
    exact .print hkeyword (hvalue.relocate r) hsemicolon
  | block hopening _ hclosing ih =>
    simp only [List.map_cons, List.map_append]
    exact .block hopening ih hclosing
  | branch hkeyword hopening hcondition hclosing _ ih =>
    simp only [List.map_cons, List.map_append]
    exact .branch hkeyword hopening (hcondition.relocate r) hclosing ih
  | branchElse hkeyword hopening hcondition hclosing _ hotherwise _ ihyes ihno =>
    simp only [List.map_cons, List.map_append]
    exact .branchElse hkeyword hopening (hcondition.relocate r) hclosing ihyes hotherwise ihno
  | loop hkeyword hopening hcondition hclosing _ ih =>
    simp only [List.map_cons, List.map_append]
    exact .loop hkeyword hopening (hcondition.relocate r) hclosing ih
  | clauses hkeyword hopening hinitial hcondition hsemicolon hstep hclosing _ ih =>
    simp only [List.map_cons, List.map_append, expanded_relocate]
    exact .clauses hkeyword hopening (hinitial.relocate r) (hcondition.relocate r) hsemicolon
      (hstep.relocate r) hclosing ih
  | ret hkeyword hvalue hsemicolon =>
    simp only [List.map_cons, List.map_append]
    exact .ret hkeyword (hvalue.relocate r) hsemicolon
  | empty hsemicolon => exact .empty hsemicolon
  | var h => exact .var (h.relocate r)
  | function hkeyword hname hopening hparams hclosing hbrace _ hfinal ih =>
    simp only [List.map_cons, List.map_append]
    exact .function hkeyword hname hopening (hparams.relocate r) hclosing hbrace ih hfinal
  | statement _ ih => exact .statement ih
  | nil => exact .nil
  | cons _ _ ih ihothers =>
    rw [List.map_append]
    exact .cons ih ihothers

/-- Relocated tokens of a program have the relocated trees. -/
theorem Program.relocate {tokens : List Token} {trees : List Stmt} (h : Program tokens trees) :
    Program (tokens.map (Token.relocate r)) (trees.map (Stmt.relocate r)) := by
  obtain ⟨h, hmark⟩ := h
  rw [List.map_append, ← Stmt.relocateAll_eq_map]
  exact .intro (h.relocate r) hmark

end Grammar

end Lox
