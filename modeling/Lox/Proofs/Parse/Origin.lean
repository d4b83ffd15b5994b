import Lox.Proofs.Parse.ExprSoundness
import Lox.Proofs.Parse.Safety

/-!
# Where expressions come from

A parser goes on behind a faulty declaration, so the trees it returns need not be those of a program
of the grammar.  The expressions in them are phrases all the same: each is the tree of some
consecutive tokens, apart from the condition of a loop that was written without one.
-/

namespace Lox

/-! ## Expressions in trees -/

mutual

/-- An expression and all expressions inside it. -/
def Expr.parts (e : Expr) : List Expr :=
  e ::
    match e with
    | .literal _ | .var _ | .void => []
    | .assign _ inner | .unary _ inner | .grouping inner => inner.parts
    | .binary _ left right | .logical _ left right => left.parts ++ right.parts
    | .call callee _ arguments => callee.parts ++ Expr.partsAll arguments

def Expr.partsAll : List Expr → List Expr
  | [] => []
  | e :: es => e.parts ++ Expr.partsAll es

end

theorem Expr.mem_partsAll {part : Expr} {es : List Expr} (h : part ∈ Expr.partsAll es) :
    ∃ e ∈ es, part ∈ e.parts := by
  induction es with
  | nil => cases h
  | cons e es ih =>
    rcases List.mem_append.mp h with hpart | hpart
    · exact ⟨e, List.mem_cons_self, hpart⟩
    · obtain ⟨e', hmem, hpart⟩ := ih hpart
      exact ⟨e', List.mem_cons_of_mem _ hmem, hpart⟩

mutual

def Stmt.expressions : Stmt → List Expr
  | .empty | .void => []
  | .expression value | .print value => [value]
  | .ret _ value | .declare _ value => value.toList
  | .block body | .function _ _ body => Stmt.expressionsAll body
  | .branch condition yes no => condition :: (yes.expressions ++ Stmt.expressions? no)
  | .loop condition body => condition :: body.expressions

def Stmt.expressionsAll : List Stmt → List Expr
  | [] => []
  | s :: ss => s.expressions ++ Stmt.expressionsAll ss

def Stmt.expressions? : Option Stmt → List Expr
  | none => []
  | some s => s.expressions

end

/-- All expressions that occur in the trees, at any depth. -/
def Parsed.expressions (parsed : Parsed) : List Expr :=
  (Stmt.expressionsAll parsed.statements).flatMap Expr.parts

theorem Stmt.mem_expressionsAll {e : Expr} {body : List Stmt} (h : e ∈ Stmt.expressionsAll body) :
    ∃ s ∈ body, e ∈ s.expressions := by
  induction body with
  | nil => cases h
  | cons s body ih =>
    rcases List.mem_append.mp h with he | he
    · exact ⟨s, List.mem_cons_self, he⟩
    · obtain ⟨s', hmem, he⟩ := ih he
      exact ⟨s', List.mem_cons_of_mem _ hmem, he⟩

/-- What holds of the expressions in its parts holds of those in a statement. -/
theorem Stmt.inherits_expressions {good : Expr → Prop} (hforever : good (.literal (.bool true))) :
    Stmt.Inherits good fun _ s ↦ ∀ e ∈ s.expressions, good e where
  block h e he := by
    obtain ⟨s, hs, he⟩ := Stmt.mem_expressionsAll he
    exact h s hs e he
  empty := List.forall_mem_nil _
  expression h := List.forall_mem_singleton.mpr h
  function _ _ _ h e he := by
    obtain ⟨s, hs, he⟩ := Stmt.mem_expressionsAll he
    exact h s hs e he
  branch {_ _ _ no} hcondition hyes hno := by
    refine List.forall_mem_cons.mpr ⟨hcondition, List.forall_mem_append.mpr ⟨hyes, ?_⟩⟩
    cases no with
    | none => exact List.forall_mem_nil _
    | some no => exact hno no rfl
  print h := List.forall_mem_singleton.mpr h
  ret _ _ h e he := h e (Option.mem_toList.mp he)
  declare _ _ h e he := h e (Option.mem_toList.mp he)
  loop hcondition hbody := List.forall_mem_cons.mpr ⟨hcondition, hbody⟩
  forever := hforever

namespace Parser

open Stateful Grammar

/-! ## Parsing -/

/-- The expression is read from some of the tokens, which stand one after the other, or it is the
condition that holds forever. -/
def StemsFrom (tokens : List Token) (e : Expr) : Prop :=
  e = .literal (.bool true) ∨ ∃ part, part <:+: tokens ∧ Expression part e

/-- What is ahead is the end of all tokens. -/
theorem remaining_lasting (tokens : List Token) :
    LastingProgress (fun progress ↦ progress.rest <:+ tokens) fun _ ↦ True where
  lasting _ :=
    { step := fun token rest _ h ↦ (List.suffix_cons token rest).trans h
      invalid := fun _ ↦ trivial
      tooDeep := trivial
      ranOut := fun _ ↦ trivial }
  record _ _ _ h := h

/-- Every expression that is read stems from the tokens. -/
theorem expression_stemsFrom (tokens : List Token) (levels : Nat) :
    Maintains (· <:+ tokens) (StemsFrom tokens) (fun _ ↦ True)
      (expression tokens.length levels .none) := by
  intro ahead hahead
  have hlasting := expression_maintains ((remaining_lasting tokens).lasting []) tokens.length levels
    .none ahead hahead
  cases hread : expression tokens.length levels .none ahead with
  | error refusal rest =>
    rw [hread] at hlasting
    exact hlasting
  | ok e rest =>
    rw [hread] at hlasting
    obtain ⟨part, rfl, hphrase, -⟩ :=
      expression_reads tokens.length levels .none ahead e rest hahead.length_le hread
    have hpart : part <:+: part ++ rest := (List.prefix_append part rest).isInfix
    exact ⟨hlasting.1, .inr ⟨part, hpart.trans hahead.isInfix, hphrase⟩⟩

/-- Whatever is wrong with the tokens, the expressions in the trees that are returned stem from
them. -/
theorem parse_stemsFrom (levels : Nat) (tokens : List Token) :
    ∀ e ∈ Stmt.expressionsAll (parse levels tokens).statements, StemsFrom tokens e := by
  intro e he
  obtain ⟨s, hs, he⟩ := Stmt.mem_expressionsAll he
  have hparse := parse_inherits (remaining_lasting tokens) (Stmt.inherits_expressions (.inl rfl))
    (fun levels _ ↦ expression_stemsFrom tokens levels) (List.suffix_refl tokens) levels
  exact hparse.1 s hs e he

end Parser

end Lox
