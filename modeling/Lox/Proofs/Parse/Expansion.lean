import Lox.Proofs.Parse.Resumption
import Lox.Session

/-!
# Loops with clauses written without them

A loop with clauses abbreviates a loop without clauses, and the one it abbreviates can be written
down: the first clause goes before the loop and the last one behind its body, with braces around
what belongs together.  Both texts are read as the same tree, in front of whatever follows, so that
a program with the one and a program with the other cannot be told apart by running them.

An `else` must not follow.  The body of a loop may end with an `if` that would take it, and behind
braces there is none.
-/

namespace Lox

open Stateful Grammar

/-! ## Clauses -/

namespace Grammar

/-- An abbreviated loop, where parts that are missing add nothing. -/
theorem expanded_eq (initial : Option Stmt) (condition step : Option Expr) (body : Stmt) :
    expanded initial condition step body =
      let loop := Stmt.loop (condition.getD (.literal (.bool true)))
        (step.elim body fun step ↦ .block [body, .expression step])
      initial.elim loop fun initial ↦ .block [initial, loop] := by
  cases initial <;> cases step <;> rfl

theorem isEmpty_of_expression? {tokens : List Token} {value : Option Expr}
    (h : Expression? tokens value) : tokens.isEmpty = value.isNone := by
  cases value with
  | none => exact List.isEmpty_iff.mpr h
  | some value =>
    obtain ⟨token, rest, rfl, -⟩ := Phrase.opens h
    rfl

namespace FirstClause

/-- The first clause is a lone semicolon if and only if there is nothing to be done at first. -/
theorem kinds_eq_iff {tokens : List Token} {initial : Option Stmt}
    (h : FirstClause tokens initial) : tokens.map Token.kind = [.semicolon] ↔ initial = none := by
  cases h with
  | nothing h => simp [h]
  | declaration h =>
    cases h
    simp
  | expression h =>
    obtain ⟨token, rest, htokens, hopens⟩ := h.opens
    refine ⟨fun heq ↦ ?_, nofun⟩
    rw [htokens, List.map_cons] at heq
    rw [(List.cons.inj heq).1] at hopens
    cases hopens

/-- Where it stands by itself, a first clause is a declaration. -/
theorem declaration_of_some {tokens : List Token} {initial : Stmt} (inside : Bool)
    (h : FirstClause tokens (some initial)) : Declaration inside tokens initial := by
  cases h with
  | declaration h => exact .var h
  | expression h => exact .statement (.expression h)

end FirstClause

end Grammar

namespace Parser

/-! ## The two texts -/

/-- A loop with clauses, part by part. -/
structure LoopText where
  keyword : Token
  opening : Token
  /-- The first clause, with the semicolon after it. -/
  first : List Token
  test : List Token
  semicolon : Token
  last : List Token
  closing : Token
  body : List Token

abbrev Sign (kind : Kind) := { token : Token // token.kind = kind }

/-- The tokens that are needed to write a loop without clauses. -/
structure LoopSigns where
  keyword : Sign .kwWhile
  opening : Sign .leftParen
  always : Sign .kwTrue
  closing : Sign .rightParen
  openRound : Sign .leftBrace
  semicolon : Sign .semicolon
  closeRound : Sign .rightBrace
  openWhole : Sign .leftBrace
  closeWhole : Sign .rightBrace

namespace LoopText

def tokens (loop : LoopText) : List Token :=
  loop.keyword :: loop.opening :: (loop.first ++ (loop.test ++ loop.semicolon ::
    (loop.last ++ loop.closing :: loop.body)))

/-- Every part of the loop is what has to stand in its place. -/
structure Proper (inside : Bool) (loop : LoopText) : Prop where
  keyword : loop.keyword.kind = .kwFor
  opening : loop.opening.kind = .leftParen
  first : ∃ initial, FirstClause loop.first initial
  test : ∃ condition, Expression? loop.test condition
  semicolon : loop.semicolon.kind = .semicolon
  last : ∃ step, Expression? loop.last step
  closing : loop.closing.kind = .rightParen
  body : ∃ tree, Statement inside false loop.body tree

def condition (loop : LoopText) (signs : LoopSigns) : List Token :=
  if loop.test.isEmpty then [signs.always] else loop.test

def round (loop : LoopText) (signs : LoopSigns) : List Token :=
  if loop.last.isEmpty then loop.body
  else signs.openRound :: (loop.body ++ (loop.last ++ [signs.semicolon.val]) ++ [signs.closeRound.val])

def rounds (loop : LoopText) (signs : LoopSigns) : List Token :=
  signs.keyword :: signs.opening :: (loop.condition signs ++ signs.closing.val :: loop.round signs)

/-- The text of the loop without clauses that a loop with clauses abbreviates.  A first clause that
is only a semicolon is left out. -/
def expansion (loop : LoopText) (signs : LoopSigns) : List Token :=
  if loop.first.map Token.kind = [.semicolon] then loop.rounds signs
  else signs.openWhole :: (loop.first ++ loop.rounds signs ++ [signs.closeWhole.val])

end LoopText

/-! ## One tree for both -/

namespace LoopText

variable {inside : Bool} {loop : LoopText} (signs : LoopSigns)

/-- The condition of the expansion is the one that was written, or else the one that always holds.
-/
theorem expression_condition {condition : Option Expr} (h : Expression? loop.test condition) :
    Expression (loop.condition signs) (condition.getD (.literal (.bool true))) := by
  unfold LoopText.condition
  rw [isEmpty_of_expression? h]
  cases condition with
  | none =>
    have halways : literal? signs.always = some (.bool true) := by
      rw [literal?, signs.always.property]
    exact (Phrase.literal halways).loosen (by decide)
  | some value => exact h

/-- What is done in every round is the body, followed by the last clause if there is one. -/
theorem statement_round {step : Option Expr} {tree : Stmt} (hlast : Expression? loop.last step)
    (hbody : Statement inside false loop.body tree) :
    Statement inside false (loop.round signs)
      (step.elim tree fun step ↦ .block [tree, .expression step]) := by
  unfold round
  rw [isEmpty_of_expression? hlast]
  cases step with
  | none => exact hbody
  | some step =>
    have hstep : Declaration inside (loop.last ++ [signs.semicolon.val]) (.expression step) :=
      .statement (.expression (.intro hlast signs.semicolon.property))
    have hinner : Declarations inside (loop.body ++ (loop.last ++ [signs.semicolon.val]) ++ [])
        [tree, .expression step] := by
      rw [List.append_assoc]
      exact .cons (.statement hbody) (.cons hstep .nil)
    rw [List.append_nil] at hinner
    exact .block signs.openRound.property hinner signs.closeRound.property

/-- What a loop with clauses is derived as, the loop without clauses is derived as too. -/
theorem Proper.derived (h : loop.Proper inside) : ∃ tree,
    Statement inside false loop.tokens tree ∧
      ∀ signs, Statement inside false (loop.expansion signs) tree := by
  obtain ⟨initial, hfirst⟩ := h.first
  obtain ⟨condition, htest⟩ := h.test
  obtain ⟨step, hlast⟩ := h.last
  obtain ⟨body, hbody⟩ := h.body
  refine ⟨expanded initial condition step body,
    .clauses h.keyword h.opening hfirst htest h.semicolon hlast h.closing hbody, fun signs ↦ ?_⟩
  have hrounds : Statement inside false (loop.rounds signs) (.loop
      (condition.getD (.literal (.bool true)))
      (step.elim body fun step ↦ .block [body, .expression step])) :=
    .loop signs.keyword.property signs.opening.property (expression_condition signs htest)
      signs.closing.property (statement_round signs hlast hbody)
  rw [expanded_eq, expansion]
  cases initial with
  | none =>
    rw [if_pos (hfirst.kinds_eq_iff.mpr rfl)]
    exact hrounds
  | some initial =>
    have hinner : Declarations inside (loop.first ++ (loop.rounds signs ++ []))
        [initial, .loop (condition.getD (.literal (.bool true)))
          (step.elim body fun step ↦ .block [body, .expression step])] :=
      .cons (hfirst.declaration_of_some inside) (.cons (.statement hrounds) .nil)
    rw [List.append_nil] at hinner
    rw [if_neg fun heq ↦ nomatch hfirst.kinds_eq_iff.mp heq]
    exact .block signs.openWhole.property hinner signs.closeWhole.property

/-- A statement that begins with the keyword of a loop with clauses is one. -/
theorem exists_proper {tokens : List Token} {tree : Stmt}
    (h : Statement inside false tokens tree) (hkeyword : nextKind? tokens = some .kwFor) :
    ∃ loop : LoopText, loop.Proper inside ∧ loop.tokens = tokens := by
  cases h with
  | expression h => exact absurd hkeyword (h.opens.nextKind?_ne rfl)
  | @clauses _ _ keyword opening semicolon closing first test last tokens initial condition step
      body hfor hopening hinitial hcondition hsemicolon hstep hclosing hbody =>
    exact ⟨⟨keyword, opening, first, test, semicolon, last, closing, tokens⟩,
      ⟨hfor, hopening, ⟨_, hinitial⟩, ⟨_, hcondition⟩, hsemicolon, ⟨_, hstep⟩, hclosing,
        ⟨_, hbody⟩⟩, rfl⟩
  | print hkind | block hkind | branch hkind | branchElse hkind | loop hkind | ret hkind
  | empty hkind =>
    rw [nextKind?_cons, hkind] at hkeyword
    cases hkeyword

end LoopText

/-! ## Reading a statement in front of others -/

/-- All statements of the grammar are read. -/
theorem readStatement_of_grammar {inside shut : Bool} {tokens : List Token} {tree : Stmt}
    (h : Statement inside shut tokens tree) : ReadStatement inside shut tokens tree := by
  induction h using Statement.rec (motive_2 := fun _ _ _ _ ↦ True)
    (motive_3 := fun _ _ _ _ ↦ True) with
  | expression h => exact readStatement_expression h
  | print hkeyword hvalue hsemicolon => exact readStatement_print hkeyword hvalue hsemicolon
  | block hopening hbody hclosing =>
    exact readStatement_block hopening (readDeclarations_of_grammar hbody) hclosing
  | branch hkeyword hopening hcondition hclosing _ ih =>
    exact readStatement_branch hkeyword hopening hcondition hclosing ih
  | branchElse hkeyword hopening hcondition hclosing _ hotherwise _ ihyes ihno =>
    exact readStatement_branchElse hkeyword hopening hcondition hclosing ihyes hotherwise ihno
  | loop hkeyword hopening hcondition hclosing _ ih =>
    exact readStatement_loop hkeyword hopening hcondition hclosing ih
  | clauses hkeyword hopening hinitial hcondition hsemicolon hstep hclosing _ ih =>
    exact readStatement_clauses hkeyword hopening hinitial hcondition hsemicolon hstep hclosing ih
  | ret hkeyword hvalue hsemicolon => exact readStatement_ret hkeyword hvalue hsemicolon
  | empty hsemicolon => exact readStatement_empty hsemicolon
  | var | function | statement | nil | cons => trivial

/-- In front of `rest` the tokens are read as the tree, and nothing more is read: with enough levels
always, and with fewer unless these are exhausted. -/
structure ReadAs (inside : Bool) (tokens rest : List Token) (tree : Stmt) : Prop where
  enough : ∀ (size levels : Nat) (errors : List SyntaxError), (tokens ++ rest).length ≤ size →
    3 * tokens.length + 2 ≤ levels →
    statement size levels inside ⟨tokens ++ rest, errors⟩ = .ok tree ⟨rest, errors⟩
  otherwise : ∀ (size levels : Nat) (errors : List SyntaxError), (tokens ++ rest).length ≤ size →
    (∃ after, statement size levels inside ⟨tokens ++ rest, errors⟩ =
      .error (.interrupted .tooDeep) after) ∨
    statement size levels inside ⟨tokens ++ rest, errors⟩ = .ok tree ⟨rest, errors⟩

/-- What the grammar gives for the tokens is read from them. -/
theorem readAs_of_grammar {inside : Bool} {tokens rest : List Token} {tree : Stmt}
    (h : Statement inside false tokens tree) (hrest : nextKind? rest ≠ some .kwElse) :
    ReadAs inside tokens rest tree := by
  have henough (size levels : Nat) (errors : List SyntaxError)
      (hsize : (tokens ++ rest).length ≤ size) (hlevels : 3 * tokens.length + 2 ≤ levels) :
      statement size levels inside ⟨tokens ++ rest, errors⟩ = .ok tree ⟨rest, errors⟩ :=
    readStatement_of_grammar h size levels rest errors (fun _ ↦ hrest) hsize hlevels
  refine ⟨henough, fun size levels errors hsize ↦ ?_⟩
  have hdeepens := (declaration_statement_deepens size
    (Nat.le_add_right levels (3 * tokens.length + 2)) inside).2
  rcases hdeepens ⟨tokens ++ rest, errors⟩ with ⟨refusal, after, hread, rfl⟩ | heq
  · exact .inl ⟨after, hread⟩
  · exact .inr (heq ▸ henough size _ errors hsize (Nat.le_add_left _ _))

/-- A statement at the beginning of a program comes first among its trees, and the rest is parsed as
if it stood alone. -/
theorem parse_of_statement {tokens rest : List Token} {tree : Stmt}
    (h : Statement false false tokens tree) (hrest : nextKind? rest ≠ some .kwElse) (levels : Nat) :
    Exhausted (parse levels (tokens ++ rest)) ∨
      parse levels (tokens ++ rest) = within [] [] [tree] (parse levels rest) := by
  have hbegins := h.begins.append rest
  have hpos := h.begins.length_pos
  have hend : atEnd (tokens ++ rest) = false := by
    obtain ⟨token, others, heq, hkind⟩ := hbegins
    rw [heq]
    cases hkind' : token.kind <;> simp_all [atEnd, beginsStatement, opensExpression]
  have hread := readDeclaration_statement h.begins (readStatement_of_grammar h)
    (tokens ++ rest).length (levels + (3 * tokens.length + 3)) rest [] hrest (Nat.le_refl _)
    (Nat.le_add_left _ _)
  have hdeepens := (declaration_statement_deepens (tokens ++ rest).length
    (Nat.le_add_right levels (3 * tokens.length + 3)) false).1
  rcases hdeepens ⟨tokens ++ rest, []⟩ with ⟨cause, after, hlost, rfl⟩ | heq
  · exact .inl ⟨after.rest, by rw [parse_of_error hend hlost]⟩
  right
  have hless : rest.length ≤ (tokens ++ rest).length - 1 := by
    rw [List.length_append]
    omega
  have hready : Ready [.eof] [] rest.length (tokens ++ rest).length rest :=
    ⟨.inl rfl, Nat.le_refl _, by simp⟩
  have hcount : Ready [.eof] [] rest.length ((tokens ++ rest).length - 1) rest :=
    ⟨.inl rfl, Nat.le_refl _, hless⟩
  have hbeside : (⟨rest, []⟩ : Progress) = beside [] [] ⟨rest, []⟩ := by simp [beside]
  rw [parse_of_ok hend (heq ▸ hread), hbeside]
  exact program_within (declaration_statement_alike levels false).1 [tree] [] ⟨rest, []⟩ hready hcount

/-! ## Loops with clauses -/

/-- A loop with clauses is the loop that it abbreviates.  If tokens that begin with its keyword are
read without a fault, they are a loop with clauses; and however they are taken apart into the parts
of such a loop, the text without clauses is read as the same tree, unless the levels are exhausted.
As part of a program, both texts are parsed alike, and what has been parsed is run alike in every
session. -/
theorem loop_read_as_expansion {size levels : Nat} {inside : Bool} {tokens rest : List Token}
    {errors : List SyntaxError} {tree : Stmt} (hkeyword : nextKind? tokens = some .kwFor)
    (hread : statement size levels inside ⟨tokens ++ rest, errors⟩ = .ok tree ⟨rest, errors⟩)
    (hsize : (tokens ++ rest).length ≤ size) (hrest : nextKind? rest ≠ some .kwElse) :
    (∃ loop : LoopText, loop.Proper inside ∧ loop.tokens = tokens) ∧
    ∀ loop : LoopText, loop.Proper inside → loop.tokens = tokens → ∀ signs,
      ReadAs inside (loop.expansion signs) rest tree ∧
      (inside = false → ∀ levels, ¬Exhausted (parse levels (tokens ++ rest)) →
        ¬Exhausted (parse levels (loop.expansion signs ++ rest)) →
        (parse levels (tokens ++ rest)).statements = tree :: (parse levels rest).statements ∧
        parse levels (loop.expansion signs ++ rest) = parse levels (tokens ++ rest) ∧
        ∀ (settings : Settings) (steps : Nat) (echo : Bool) (session : Session),
          session.runParsed settings steps echo (parse levels (loop.expansion signs ++ rest)) =
            session.runParsed settings steps echo (parse levels (tokens ++ rest))) := by
  constructor
  · obtain ⟨taken, heq, hderived⟩ :=
      (declaration_statement_reads size levels inside).2 _ _ _ _ hsize hread
    obtain rfl := List.append_cancel_right heq
    exact LoopText.exists_proper (hderived false nofun) hkeyword
  rintro loop hproper rfl signs
  obtain ⟨tree', hloop, hexpansion⟩ := hproper.derived
  obtain rfl : tree' = tree := by
    rcases (readAs_of_grammar hloop hrest).otherwise size levels errors hsize with
      ⟨after, hlost⟩ | hread'
    · rw [hlost] at hread
      cases hread
    · rw [hread'] at hread
      cases hread
      rfl
  refine ⟨readAs_of_grammar (hexpansion signs) hrest, ?_⟩
  rintro rfl levels hlevels hlevels'
  have hparse := (parse_of_statement hloop hrest levels).resolve_left hlevels
  have hparse' := (parse_of_statement (hexpansion signs) hrest levels).resolve_left hlevels'
  rw [hparse, hparse']
  exact ⟨rfl, rfl, fun _ _ _ _ ↦ rfl⟩

/-- `for (var a = b; ; a = c) if (a) print b;` is read as
`{ var a = b; while (true) { if (a) print b; a = c; } }`. -/
theorem unconditional_loop_expanded :
    let name (lexeme : String) : Token := ⟨.identifier, lexeme, .nil, 1, 0⟩
    let sign (kind : Kind) : Token := ⟨kind, kind.mark, .nil, 1, 0⟩
    let first := [sign .kwVar, name "a", sign .equal, name "b", sign .semicolon]
    let last := [name "a", sign .equal, name "c"]
    let body := [sign .kwIf, sign .leftParen, name "a", sign .rightParen, sign .kwPrint, name "b",
      sign .semicolon]
    let tokens := sign .kwFor :: sign .leftParen ::
      (first ++ sign .semicolon :: (last ++ sign .rightParen :: body))
    let expansion := sign .leftBrace :: (first ++ [sign .kwWhile, sign .leftParen, sign .kwTrue,
      sign .rightParen, sign .leftBrace] ++ body ++ last ++
      [sign .semicolon, sign .rightBrace, sign .rightBrace])
    let tree : Stmt := .block [.declare (name "a") (some (.var (name "b"))),
      .loop (.literal (.bool true)) (.block [.branch (.var (name "a")) (.print (.var (name "b"))) none,
        .expression (.assign (name "a") (.var (name "c")))])]
    statement 20 20 false ⟨tokens ++ [sign .eof], []⟩ = .ok tree ⟨[sign .eof], []⟩ ∧
      parse 20 (tokens ++ [sign .eof]) = ⟨[tree], [], none⟩ ∧
      parse 20 (expansion ++ [sign .eof]) = ⟨[tree], [], none⟩ := by
  intro name sign first last body tokens expansion tree
  have hread : statement 20 20 false ⟨tokens ++ [sign .eof], []⟩ = .ok tree ⟨[sign .eof], []⟩ := rfl
  have hparse : parse 20 (tokens ++ [sign .eof]) = ⟨[tree], [], none⟩ := rfl
  let loop : LoopText := ⟨sign .kwFor, sign .leftParen, first, [], sign .semicolon, last,
    sign .rightParen, body⟩
  let signs : LoopSigns := ⟨⟨sign .kwWhile, rfl⟩, ⟨sign .leftParen, rfl⟩, ⟨sign .kwTrue, rfl⟩,
    ⟨sign .rightParen, rfl⟩, ⟨sign .leftBrace, rfl⟩, ⟨sign .semicolon, rfl⟩, ⟨sign .rightBrace, rfl⟩,
    ⟨sign .leftBrace, rfl⟩, ⟨sign .rightBrace, rfl⟩⟩
  have hname (lexeme : String) : Expression [name lexeme] (.var (name lexeme)) :=
    (Phrase.name rfl).loosen (by decide)
  have hinitial : Initializer [sign .equal, name "b"] (some (.var (name "b"))) :=
    ⟨_, _, rfl, rfl, hname "b"⟩
  have hdeclaration : VariableDeclaration first (.declare (name "a") (some (.var (name "b")))) :=
    .intro rfl rfl hinitial rfl
  have hproper : loop.Proper false :=
    { keyword := rfl
      opening := rfl
      first := ⟨_, .declaration hdeclaration⟩
      test := ⟨none, rfl⟩
      semicolon := rfl
      last := ⟨some _, .assignment rfl rfl (hname "c")⟩
      closing := rfl
      body := ⟨_, .branch rfl rfl (hname "a") rfl (.print rfl (hname "b") rfl)⟩ }
  obtain ⟨-, hloop⟩ := loop_read_as_expansion rfl hread (by decide) (by decide)
  obtain ⟨-, hprogram⟩ := hloop loop hproper rfl signs
  obtain ⟨-, hsame, -⟩ := hprogram rfl 20 nofun nofun
  exact ⟨hread, hparse, hsame.trans hparse⟩

end Parser

end Lox
