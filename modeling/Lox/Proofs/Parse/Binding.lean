import Lox.Proofs.Grammar
import Lox.Proofs.Parse.Rules

/-!
# How tightly operators bind

The levels of the grammar and the numbers by which a parser compares operators.  A parser that is
asked for operators above `least` reads a phrase of the level `least.wanted`, and stops before an
operator that binds no more tightly than `least`.  The trees that parsers make of operators and of
clauses are those of the grammar.
-/

namespace Lox

namespace Precedence

theorem level_injective {a b : Precedence} (h : a.level = b.level) : a = b := by
  cases a <;> cases b <;> first | rfl | exact absurd h (by decide)

theorem level_tighter {a : Precedence} (h : a.level < primary.level) :
    a.tighter.level = a.level + 1 := by
  cases a <;> first | rfl | exact absurd h (by decide)

/-- The loosest phrases that are read where the operators have to bind more tightly than the given
level.  An operator before its operand needs nothing to its left, so it is read everywhere. -/
def wanted : Precedence → Precedence
  | .unary | .call | .primary => .unary
  | least => least.tighter

theorem level_wanted (least : Precedence) :
    least.wanted.level = min (least.level + 1) unary.level := by
  cases least <;> rfl

/-- An operator that follows a phrase of the given level is left alone if it binds no more tightly
than this.  Nothing follows an assignment. -/
def following : Precedence → Precedence
  | .assignment => .none
  | level => level

theorem level_following_le (a : Precedence) : a.following.level ≤ a.level := by
  cases a <;> decide

theorem level_le_tighter (a : Precedence) : a.level ≤ a.tighter.level := by
  cases a <;> decide

theorem level_following_le_tighter (a : Precedence) :
    a.following.level ≤ a.tighter.following.level := by
  cases a <;> decide

end Precedence

namespace Kind

/-- The operators after an operand are the opening parenthesis, the equals sign and those between
the operands of an operation. -/
theorem precedence?_cases {kind : Kind} {own : Precedence} (h : kind.precedence? = some own) :
    (kind = .leftParen ∧ own = .call) ∨ (kind = .equal ∧ own = .assignment) ∨
      (kind ≠ .leftParen ∧ kind ≠ .equal ∧ kind ∈ Grammar.operators own) := by
  cases kind <;> cases h <;> decide

/-- The operators of a level bind as tightly as the level tells. -/
theorem precedence?_of_mem_operators {kind : Kind} {level : Precedence}
    (h : kind ∈ Grammar.operators level) : kind.precedence? = some level := by
  cases level <;> simp only [Grammar.operators, List.mem_cons, List.not_mem_nil, or_false] at h
  all_goals rcases h with rfl | rfl | rfl | rfl <;> rfl

end Kind

namespace Grammar

theorem ne_of_mem_operators {kind : Kind} {level : Precedence} (h : kind ∈ operators level) :
    kind ≠ .leftParen ∧ kind ≠ .equal := by
  constructor <;> rintro rfl <;> cases level <;> exact absurd h (by decide)

/-- The levels of operations lie strictly between assignment and the operators before an operand. -/
theorem level_of_mem_operators {kind : Kind} {level : Precedence} (h : kind ∈ operators level) :
    Precedence.assignment.level < level.level ∧ level.level < Precedence.unary.level := by
  cases level <;> first | decide | exact absurd h List.not_mem_nil

/-- The right operand of an operator is a phrase of the next tighter level. -/
theorem wanted_of_mem_operators {kind : Kind} {level : Precedence} (h : kind ∈ operators level) :
    level.wanted = level.tighter := by
  cases level <;> first | rfl | exact absurd h List.not_mem_nil

theorem following_of_mem_operators {kind : Kind} {level : Precedence} (h : kind ∈ operators level) :
    level.following = level := by
  cases level <;> first | rfl | exact absurd h List.not_mem_nil

/-- A phrase is a phrase of every looser level. -/
theorem Phrase.loosen {a b : Precedence} {tokens : List Token} {tree : Expr}
    (h : Phrase b tokens tree) (hle : a.level ≤ b.level) : Phrase a tokens tree := by
  obtain ⟨gap, hgap⟩ := Nat.exists_eq_add_of_le hle
  induction gap generalizing a with
  | zero =>
    obtain rfl := Precedence.level_injective hgap
    exact h
  | succ gap ih =>
    have hlt : a.level < Precedence.primary.level := by
      have : b.level ≤ Precedence.primary.level := by cases b <;> decide
      omega
    have htighter := Precedence.level_tighter hlt
    exact .tighter (ih (by omega) (by omega))

def opensExpression : Kind → Bool
  | .leftParen | .bang | .minus | .kwFalse | .kwTrue | .kwNil | .number | .string
  | .identifier => true
  | _ => false

theorem opensExpression_of_literal? {token : Token} {value : Atom}
    (h : literal? token = some value) : opensExpression token.kind = true := by
  unfold literal? at h
  split at h <;> simp_all [opensExpression]

theorem opensExpression_of_mem_signs {kind : Kind} (h : kind ∈ signs) :
    opensExpression kind = true := by
  simp only [signs, List.mem_cons, List.not_mem_nil, or_false] at h
  rcases h with rfl | rfl <;> rfl

def Begins (opens : Kind → Bool) (tokens : List Token) : Prop :=
  ∃ token rest, tokens = token :: rest ∧ opens token.kind = true

theorem Begins.append {opens : Kind → Bool} {tokens : List Token} (h : Begins opens tokens)
    (more : List Token) : Begins opens (tokens ++ more) := by
  obtain ⟨token, rest, rfl, hopens⟩ := h
  exact ⟨token, rest ++ more, rfl, hopens⟩

theorem Begins.length_pos {opens : Kind → Bool} {tokens : List Token} (h : Begins opens tokens) :
    0 < tokens.length := by
  obtain ⟨token, rest, rfl, -⟩ := h
  exact Nat.succ_pos _

theorem Begins.nextKind?_ne {opens : Kind → Bool} {tokens : List Token} (h : Begins opens tokens)
    {kind : Kind} (hkind : opens kind = false) : Parser.nextKind? tokens ≠ some kind := by
  obtain ⟨token, rest, rfl, hopens⟩ := h
  rintro heq
  cases heq
  simp_all

/-- More kinds may be allowed. -/
theorem Begins.imp {opens opens' : Kind → Bool} {tokens : List Token} (h : Begins opens tokens)
    (himp : ∀ kind, opens kind = true → opens' kind = true) : Begins opens' tokens := by
  obtain ⟨token, rest, rfl, hopens⟩ := h
  exact ⟨token, rest, rfl, himp _ hopens⟩

theorem begins_cons {opens : Kind → Bool} {token : Token} {kind : Kind} (h : token.kind = kind)
    (hopens : opens kind = true) (rest : List Token) : Begins opens (token :: rest) :=
  ⟨token, rest, rfl, h ▸ hopens⟩

abbrev Opens : List Token → Prop := Begins opensExpression

/-- A phrase begins as an expression can. -/
theorem Phrase.opens {level : Precedence} {tokens : List Token} {tree : Expr}
    (h : Phrase level tokens tree) : Opens tokens := by
  induction h using Phrase.rec (motive_2 := fun _ _ _ ↦ True) with
  | literal h => exact ⟨_, _, rfl, opensExpression_of_literal? h⟩
  | name h => exact begins_cons h rfl _
  | grouping hopening => exact begins_cons hopening rfl _
  | call _ _ _ ih => exact ih.append _
  | callWith _ _ _ _ ih => exact ih.append _
  | signed hoperator => exact ⟨_, _, rfl, opensExpression_of_mem_signs hoperator⟩
  | operation _ _ _ ih => exact ih.append _
  | assignment hname => exact begins_cons hname rfl _
  | tighter _ ih => exact ih
  | one | more => trivial

/-- Only a name by itself is read as a variable. -/
theorem Phrase.eq_singleton_of_var {level : Precedence} {tokens : List Token} {tree : Expr}
    (h : Phrase level tokens tree) {name : Token} (htree : tree = .var name) :
    tokens = [name] ∧ name.kind = .identifier := by
  induction h using Phrase.rec (motive_2 := fun _ _ _ ↦ True) with
  | name h =>
    cases htree
    exact ⟨rfl, h⟩
  | operation =>
    unfold joined at htree
    split at htree <;> cases htree
  | tighter _ ih => exact ih htree
  | one | more => trivial
  | _ => cases htree

end Grammar

namespace Parser

/-- The next token is no operator that binds more tightly than `least`. -/
def Stops (least : Precedence) (tokens : List Token) : Prop :=
  ∀ kind own, nextKind? tokens = some kind → kind.precedence? = some own → own.level ≤ least.level

/-- What stops at a level stops at tighter ones. -/
theorem Stops.mono {a b : Precedence} {tokens : List Token} (h : Stops a tokens)
    (hle : a.level ≤ b.level) : Stops b tokens :=
  fun kind own hkind hown ↦ Nat.le_trans (h kind own hkind hown) hle

theorem stops_of_nextKind? {tokens : List Token} {kind : Kind} (hkind : nextKind? tokens = some kind)
    (h : kind.precedence? = none) (least : Precedence) : Stops least tokens := by
  intro kind' own hkind' hown
  rw [hkind] at hkind'
  cases hkind'
  rw [h] at hown
  cases hown

theorem stops_of_none {token : Token} (h : token.kind.precedence? = none) (least : Precedence)
    (rest : List Token) : Stops least (token :: rest) :=
  stops_of_nextKind? rfl h least

theorem stops_cons {token : Token} {own : Precedence} (h : token.kind.precedence? = some own)
    {least : Precedence} (hle : own.level ≤ least.level) (rest : List Token) :
    Stops least (token :: rest) := by
  intro kind own' hkind hown
  cases hkind
  rw [h] at hown
  cases hown
  exact hle

/-- Nothing binds more tightly than a call. -/
theorem stops_call (tokens : List Token) : Stops .call tokens := by
  intro kind own _ hown
  rcases kind.precedence?_cases hown with ⟨-, rfl⟩ | ⟨-, rfl⟩ | ⟨-, -, hmem⟩
  · decide
  · decide
  · have := (Grammar.level_of_mem_operators hmem).2
    exact Nat.le_trans (Nat.le_of_lt this) (by decide)

/-- An operator between two operands makes the tree that the grammar gives. -/
theorem combine_of_mem_operators {operator : Token} {level : Precedence}
    (h : operator.kind ∈ Grammar.operators level) (left right : Expr) :
    combine operator left right = pure (Grammar.joined operator left right) := by
  unfold combine Grammar.joined
  split
  · rename_i heq
    exact absurd heq (Grammar.ne_of_mem_operators h).2
  · rename_i heq
    simp [heq]
  · rename_i heq
    simp [heq]
  · rename_i hand hor
    exact congrArg pure (if_neg (not_or.mpr ⟨hand, hor⟩)).symm

/-- The loop that a parser makes of clauses is the one that they abbreviate. -/
theorem toLoop_eq_expanded (initial : Option Stmt) (condition step : Option Expr) (body : Stmt) :
    ForClauses.toLoop ⟨initial, condition.getD (.literal (.bool true)), step⟩ body =
      Grammar.expanded initial condition step body := by
  cases initial <;> cases step <;> rfl

end Parser

end Lox
