import Lox.Proofs.Parse.Binding

/-!
# Every expression is read

A phrase of the grammar is read by climbing, whatever follows it, as long as the next operator does
not bind too tightly.  Reading a phrase and going on is the same as going on with its tree: in this
form the statement passes through the left operands of operators, which the grammar derives before
the operator is seen, while climbing reads them first.
-/

namespace Lox.Parser

open Stateful Grammar

/-! ## Operands and rounds -/

theorem operand_of_literal? {token : Token} {value : Atom} (h : literal? token = some value)
    (nested : Precedence → Parser Expr) (rest : List Token) :
    operand nested (token :: rest) = .ok (.literal value) rest := by
  unfold literal? at h
  split at h <;> cases h <;> simp only [operand_eq, *]

theorem operand_of_identifier {token : Token} (h : token.kind = .identifier)
    (nested : Precedence → Parser Expr) (rest : List Token) :
    operand nested (token :: rest) = .ok (.var token) rest := by
  simp only [operand_eq, h]

theorem operand_of_leftParen {token : Token} (h : token.kind = .leftParen)
    (nested : Precedence → Parser Expr) (rest : List Token) :
    operand nested (token :: rest) = operand.group nested rest := by
  simp only [operand_eq, h]

theorem operand_of_mem_signs {token : Token} (h : token.kind ∈ signs)
    (nested : Precedence → Parser Expr) (rest : List Token) :
    operand nested (token :: rest) = (Expr.unary token <$> nested .unary) rest := by
  simp only [signs, List.mem_cons, List.not_mem_nil, or_false] at h
  rcases h with h | h <;> simp only [operand_eq, h]

section

variable {size : Nat} {nested : Precedence → Parser Expr} {argument : Parser Expr}
  {least : Precedence}

/-- Climbing comes to an end where no operator binds tightly enough. -/
theorem climb_of_stops {rest : List Token} (h : Stops least rest) (count : Nat) (left : Expr) :
    climb size nested argument least count left rest = .ok left rest := by
  match count, rest with
  | 0, _ => rfl
  | count + 1, [] => rfl
  | count + 1, token :: rest =>
    rw [climb_cons]
    split
    · rfl
    · rename_i own hown
      exact if_neg (Nat.not_lt.mpr (h _ _ rfl hown))

/-- Climbing goes on after a round that succeeds. -/
theorem climb_of_extended {operator : Token} {own : Precedence} {left tree : Expr}
    {tokens rest : List Token} (hown : operator.kind.precedence? = some own)
    (hlt : least.level < own.level)
    (h : extended size nested argument operator own left tokens = .ok tree rest) (count : Nat) :
    climb size nested argument least (count + 1) left (operator :: tokens) =
      climb size nested argument least count tree rest := by
  simp only [climb_cons, hown, if_pos hlt]
  exact bind_of_ok h _

/-- An operator between two operands extends the left one by the right one. -/
theorem extended_of_mem_operators {operator : Token} {own : Precedence} {left right : Expr}
    {tokens rest : List Token} (h : operator.kind ∈ operators own)
    (hright : nested own tokens = .ok right rest) :
    extended size nested argument operator own left tokens =
      .ok (joined operator left right) rest := by
  unfold extended Kind.rightBound
  rw [if_neg (ne_of_mem_operators h).1, if_neg (ne_of_mem_operators h).2, bind_of_ok hright,
    combine_of_mem_operators h]
  rfl

/-- An equals sign after a name makes an assignment. -/
theorem extended_of_equal {operator name : Token} {right : Expr} {tokens rest : List Token}
    (h : operator.kind = .equal) (hright : nested .none tokens = .ok right rest) :
    extended size nested argument operator .assignment (.var name) tokens =
      .ok (.assign name right) rest := by
  have hbound : operator.kind.rightBound .assignment = .none := by rw [h]; rfl
  have hcombine : combine operator (.var name) right = pure (.assign name right) := by
    simp only [combine, h]
  unfold extended
  rw [if_neg (by rw [h]; decide), hbound, bind_of_ok hright, hcombine]
  rfl

/-- A parenthesis after an expression makes a call. -/
theorem extended_of_leftParen {operator closing : Token} {left : Expr} {arguments : List Expr}
    {tokens rest : List Token} (h : operator.kind = .leftParen)
    (harguments : commaSeparated size argument tokens = .ok arguments (closing :: rest))
    (hclosing : closing.kind = .rightParen) :
    extended size nested argument operator .call left tokens =
      .ok (.call left closing arguments) rest := by
  unfold extended callOf
  rw [if_pos h, bind_of_ok harguments, bind_of_ok (expectSymbol_cons hclosing _ _)]
  rfl

end

/-! ## Phrases -/

/-- Reading a phrase and going on is going on with its tree. -/
def Climbs (level : Precedence) (tokens : List Token) (tree : Expr) : Prop :=
  ∀ (least : Precedence) (size levels : Nat) (rest : List Token),
    least.level ≤ Precedence.unary.level → least.wanted.level ≤ level.level →
    Stops level.following rest → (tokens ++ rest).length ≤ size →
    3 * tokens.length ≤ levels + 3 →
    ∃ count, rest.length ≤ count ∧
      expression size (levels + 3) least (tokens ++ rest) =
        climb size (expression size (levels + 2)) (expression size levels .none) least count tree
          rest

/-- A phrase is read to its end if what follows stops the parser. -/
theorem Climbs.read {level least : Precedence} {tokens rest : List Token} {tree : Expr}
    (h : Climbs level tokens tree) (size levels : Nat) (hpos : 0 < tokens.length)
    (hleast : least.level ≤ Precedence.unary.level) (hwanted : least.wanted.level ≤ level.level)
    (hfollowing : Stops level.following rest) (hstops : Stops least rest)
    (hsize : (tokens ++ rest).length ≤ size) (hlevels : 3 * tokens.length ≤ levels) :
    expression size levels least (tokens ++ rest) = .ok tree rest := by
  obtain ⟨below, rfl⟩ : ∃ below, levels = below + 3 := ⟨levels - 3, by omega⟩
  obtain ⟨count, -, heq⟩ := h least size below rest hleast hwanted hfollowing hsize hlevels
  rw [heq, climb_of_stops hstops]

/-- A whole expression is read to its end if no operator follows. -/
theorem Climbs.readExpression {tokens rest : List Token} {tree : Expr}
    (h : Climbs .assignment tokens tree) (size levels : Nat) (hpos : 0 < tokens.length)
    (hstops : Stops .none rest) (hsize : (tokens ++ rest).length ≤ size)
    (hlevels : 3 * tokens.length ≤ levels) :
    expression size levels .none (tokens ++ rest) = .ok tree rest :=
  h.read size levels hpos (by decide) (by decide) hstops hstops hsize hlevels

/-- What is an operand by itself can be climbed from. -/
theorem climbs_of_operand {level : Precedence} {tokens : List Token} {tree : Expr}
    (h : ∀ (size levels : Nat) (rest : List Token), Stops level.following rest →
      (tokens ++ rest).length ≤ size → 3 * tokens.length ≤ levels + 3 →
      operand (expression size (levels + 1)) (tokens ++ rest) = .ok tree rest) :
    Climbs level tokens tree := by
  intro least size levels rest _ _ hstops hsize hlevels
  refine ⟨size, ?_, ?_⟩
  · rw [List.length_append] at hsize
    omega
  · rw [expression]
    exact bind_of_ok (h size levels rest hstops hsize hlevels) _

/-- An operator that follows a phrase that is asked for binds tightly enough. -/
theorem level_lt_of_wanted_le {kind : Kind} {own least : Precedence}
    (hown : kind.precedence? = some own) (hleast : least.level ≤ Precedence.unary.level)
    (hwanted : least.wanted.level ≤ own.level) : least.level < own.level := by
  rw [Precedence.level_wanted] at hwanted
  have hne : own.level ≠ Precedence.unary.level := by
    rcases kind.precedence?_cases hown with ⟨-, rfl⟩ | ⟨-, rfl⟩ | ⟨-, -, hmem⟩
    · decide
    · decide
    · exact Nat.ne_of_lt (level_of_mem_operators hmem).2
  omega

/-- What extends a phrase by an operator can be climbed from. -/
theorem Climbs.extend {level own : Precedence} {before after : List Token} {operator : Token}
    {left tree : Expr} (h : Climbs level before left) (hown : operator.kind.precedence? = some own)
    (hle : own.level ≤ level.following.level)
    (hextended : ∀ (size levels : Nat) (rest : List Token), Stops own.following rest →
      (after ++ rest).length ≤ size → 3 * after.length ≤ levels →
      extended size (expression size (levels + 2)) (expression size levels .none) operator own left
        (after ++ rest) = .ok tree rest) :
    Climbs own (before ++ operator :: after) tree := by
  intro least size levels rest hleast hwanted hstops hsize hlevels
  have hlevel : own.level ≤ level.level := Nat.le_trans hle level.level_following_le
  have hlt : least.level < own.level := level_lt_of_wanted_le hown hleast hwanted
  rw [List.append_assoc, List.cons_append] at hsize ⊢
  rw [List.length_append, List.length_cons] at hlevels
  have hsize' := hsize
  rw [List.length_append, List.length_cons] at hsize'
  obtain ⟨count, hcount, heq⟩ := h least size levels (operator :: (after ++ rest)) hleast
    (Nat.le_trans hwanted hlevel) (stops_cons hown hle _) hsize (by omega)
  obtain ⟨count, rfl⟩ : ∃ fewer, count = fewer + 1 := by
    rw [List.length_cons] at hcount
    exact ⟨count - 1, by omega⟩
  have hround := hextended size levels rest hstops (by omega) (by omega)
  refine ⟨count, ?_, ?_⟩
  · rw [List.length_cons, List.length_append] at hcount
    omega
  · rw [heq, climb_of_extended hown hlt hround]

/-- Arguments are read one after the other, up to a closing parenthesis. -/
def Lists (tokens : List Token) (arguments : List Expr) : Prop :=
  ∀ (size levels count : Nat) (before : List Expr) (rest : List Token),
    nextKind? rest = some .rightParen → (tokens ++ rest).length ≤ size →
    3 * tokens.length ≤ levels → tokens.length ≤ count →
    (expression size levels .none >>= fun argument ↦
      furtherItems (expression size levels .none) count (argument :: before)) (tokens ++ rest) =
        .ok (before.reverse ++ arguments) rest

/-- Arguments up to a parenthesis are read as a list. -/
theorem Lists.commaSeparated {tokens : List Token} {arguments : List Expr}
    (h : Lists tokens arguments) (size levels : Nat) (hopens : Opens tokens) {rest : List Token}
    (hrest : nextKind? rest = some .rightParen) (hsize : (tokens ++ rest).length ≤ size)
    (hlevels : 3 * tokens.length ≤ levels) :
    commaSeparated size (expression size levels .none) (tokens ++ rest) = .ok arguments rest := by
  have hne : nextKind? (tokens ++ rest) ≠ some .rightParen := (hopens.append rest).nextKind?_ne rfl
  have hcount : tokens.length ≤ size := by
    rw [List.length_append] at hsize
    omega
  unfold Parser.commaSeparated
  rw [bind_of_ok (sees_of_ne hne)]
  exact h size levels size [] rest hrest hsize hlevels hcount

theorem Lists.one {tokens : List Token} {argument : Expr} (h : Climbs .assignment tokens argument)
    (hopens : Opens tokens) : Lists tokens [argument] := by
  intro size levels count before rest hrest hsize hlevels hcount
  have hstops : Stops .none rest := stops_of_nextKind? hrest rfl .none
  have hread := h.readExpression size levels hopens.length_pos hstops hsize hlevels
  obtain ⟨count, rfl⟩ : ∃ fewer, count = fewer + 1 :=
    ⟨count - 1, by have := hopens.length_pos; omega⟩
  have hcomma : accepts .comma rest = .ok false rest := accepts_of_ne (by simp [hrest])
  rw [bind_of_ok hread, furtherItems, bind_of_ok hcomma]
  simp [pure, EStateM.pure]

/-- One more argument in front, with a comma behind it. -/
theorem Lists.more {tokens others : List Token} {comma : Token} {argument : Expr}
    {arguments : List Expr} (h : Climbs .assignment tokens argument) (hopens : Opens tokens)
    (hcomma : comma.kind = .comma) (hothers : Lists others arguments) :
    Lists (tokens ++ comma :: others) (argument :: arguments) := by
  intro size levels count before rest hrest hsize hlevels hcount
  rw [List.append_assoc, List.cons_append] at hsize ⊢
  rw [List.length_append, List.length_cons] at hlevels hcount
  have hstops : Stops .none (comma :: (others ++ rest)) := stops_of_none (by rw [hcomma]; rfl) _ _
  have hread := h.readExpression size levels hopens.length_pos hstops hsize (by omega)
  rw [List.length_append, List.length_cons] at hsize
  obtain ⟨count, rfl⟩ : ∃ fewer, count = fewer + 1 :=
    ⟨count - 1, by have := hopens.length_pos; omega⟩
  rw [bind_of_ok hread, furtherItems, bind_of_ok (accepts_cons hcomma _)]
  have hmore := hothers size levels count (argument :: before) rest hrest (by omega) (by omega)
    (by omega)
  simpa using hmore

/-- Every phrase can be climbed from, by induction on its derivation. -/
theorem climbs_of_phrase {level : Precedence} {tokens : List Token} {tree : Expr}
    (h : Phrase level tokens tree) : Climbs level tokens tree := by
  induction h using Phrase.rec
    (motive_2 := fun tokens arguments _ ↦ Opens tokens ∧ Lists tokens arguments) with
  | literal h => exact climbs_of_operand fun size levels rest _ _ _ ↦ operand_of_literal? h _ rest
  | name h => exact climbs_of_operand fun size levels rest _ _ _ ↦ operand_of_identifier h _ rest
  | @grouping opening closing tokens inner hopening hinner hclosing ih =>
    refine climbs_of_operand fun size levels rest _ hsize hlevels ↦ ?_
    have hstops : Stops .none (closing :: rest) := stops_of_none (by rw [hclosing]; rfl) _ _
    simp only [List.cons_append, List.append_assoc, List.nil_append, List.length_cons,
      List.length_append, List.length_nil] at hsize hlevels ⊢
    have hread := ih.readExpression size (levels + 1) hinner.opens.length_pos hstops
      (by rw [List.length_append, List.length_cons]; omega) (by omega)
    rw [operand_of_leftParen hopening, operand.group, bind_of_ok hread,
      bind_of_ok (expectSymbol_cons hclosing _ _)]
    rfl
  | @call opening closing tokens callee hcallee hopening hclosing ih =>
    refine ih.extend (by rw [hopening]; rfl) (Nat.le_refl _) fun size levels rest _ _ _ ↦ ?_
    refine extended_of_leftParen hopening ?_ hclosing
    rw [commaSeparated, List.singleton_append, bind_of_ok (sees_cons hclosing rest)]
    rfl
  | @callWith opening closing tokens inside callee arguments _ hopening _ hclosing ih hlists =>
    refine ih.extend (by rw [hopening]; rfl) (Nat.le_refl _) fun size levels rest _ hsize hlevels ↦ ?_
    rw [List.append_assoc, List.singleton_append] at hsize ⊢
    rw [List.length_append] at hlevels
    exact extended_of_leftParen hopening (hlists.2.commaSeparated size levels hlists.1
      (congrArg some hclosing) hsize (by omega)) hclosing
  | @signed operator tokens operand hoperator hoperand ih =>
    refine climbs_of_operand fun size levels rest hstops hsize hlevels ↦ ?_
    rw [List.cons_append, List.length_cons] at hsize
    rw [List.length_cons] at hlevels
    have hread : expression size (levels + 1) .unary (tokens ++ rest) = .ok operand rest :=
      ih.read size (levels + 1) hoperand.opens.length_pos (by decide) (by decide) hstops hstops
        (by omega) (by omega)
    rw [List.cons_append, operand_of_mem_signs hoperator, map_of_ok hread]
  | @operation level operator before after left right hleft hoperator hright ihleft ihright =>
    have hown := Kind.precedence?_of_mem_operators hoperator
    have hfollowing := following_of_mem_operators hoperator
    refine ihleft.extend hown (Nat.le_of_eq (by rw [hfollowing]))
      fun size levels rest hstops hsize hlevels ↦ ?_
    refine extended_of_mem_operators hoperator ?_
    refine ihright.read size (levels + 2) hright.opens.length_pos
      (Nat.le_of_lt (level_of_mem_operators hoperator).2) ?_
      (hstops.mono level.level_following_le_tighter) (hstops.mono level.level_following_le) hsize
      (by omega)
    exact Nat.le_of_eq (congrArg Precedence.level (wanted_of_mem_operators hoperator))
  | @assignment name equals tokens value hname hequals hvalue ih =>
    have hleft : Climbs .primary [name] (.var name) :=
      climbs_of_operand fun size levels rest _ _ _ ↦ operand_of_identifier hname _ rest
    refine hleft.extend (by rw [hequals]; rfl) (by decide) fun size levels rest hstops hsize hlevels ↦ ?_
    exact extended_of_equal hequals
      (ih.readExpression size (levels + 2) hvalue.opens.length_pos hstops hsize (by omega))
  | @tighter level tokens tree h ih =>
    intro least size levels rest hleast hwanted hstops hsize hlevels
    exact ih least size levels rest hleast (Nat.le_trans hwanted level.level_le_tighter)
      (hstops.mono level.level_following_le_tighter) hsize hlevels
  | one h ih => exact ⟨h.opens, .one ih h.opens⟩
  | more h hcomma _ ih ihothers => exact ⟨h.opens.append _, .more ih h.opens hcomma ihothers.2⟩

/-- An expression is read to its end if no operator follows. -/
theorem expression_of_phrase {tokens rest : List Token} {tree : Expr}
    (h : Expression tokens tree) {size levels : Nat} (hstops : Stops .none rest)
    (hsize : (tokens ++ rest).length ≤ size) (hlevels : 3 * tokens.length ≤ levels) :
    expression size levels .none (tokens ++ rest) = .ok tree rest :=
  (climbs_of_phrase h).readExpression size levels h.opens.length_pos hstops hsize hlevels

end Lox.Parser
