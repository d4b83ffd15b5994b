import Lox.Proofs.Descent
import Lox.Proofs.Parse.ExprCompleteness
import Lox.Proofs.Parse.ExprSoundness
import Lox.Proofs.Parse.Safety

/-!
# Climbing is descending

Climbing precedences reads expressions just as the parsers of recursive descent do, also where it
refuses them.  To climb above one level is to climb above the next tighter level and then to take
the operators of that level, one after the other; so the loop falls apart into one loop for each
level.  The right operands and what stands in parentheses are read on fewer tokens, so the proof is
by induction on the number of tokens.
-/

namespace Lox.Parser

open Stateful Grammar

/-! ## Agreement at some tokens -/

/-- At these tokens `q` answers as `p` does, unless `p` gives up because of too much nesting. -/
def AgreesAt {α : Type} (p q : Parser α) (tokens : List Token) : Prop :=
  (∃ rest, p tokens = .error (.interrupted .tooDeep) rest) ∨ q tokens = p tokens

namespace AgreesAt

variable {α β : Type} {p q : Parser α} {tokens : List Token}

theorem refl (p : Parser α) (tokens : List Token) : AgreesAt p p tokens :=
  .inr rfl

theorem of_eq (h : q tokens = p tokens) : AgreesAt p q tokens :=
  .inr h

/-- Parsers that agree step by step agree as a whole. -/
theorem bind {next next' : α → Parser β} (h : AgreesAt p q tokens)
    (hnext : ∀ a rest, p tokens = .ok a rest → AgreesAt (next a) (next' a) rest) :
    AgreesAt (p >>= next) (q >>= next') tokens := by
  rcases h with ⟨rest, hp⟩ | hq
  · exact .inl ⟨rest, bind_of_error hp next⟩
  · cases hp : p tokens with
    | ok a rest =>
      rw [AgreesAt, bind_of_ok hp, bind_of_ok (hq.trans hp)]
      exact hnext a rest hp
    | error refusal rest =>
      rw [AgreesAt, bind_of_error hp, bind_of_error (hq.trans hp)]
      exact .inr rfl

theorem map (f : α → β) (h : AgreesAt p q tokens) : AgreesAt (f <$> p) (f <$> q) tokens := by
  rcases h with ⟨rest, hp⟩ | hq
  · exact .inl ⟨rest, map_of_error hp f⟩
  · cases hp : p tokens with
    | ok a rest => exact .inr ((map_of_ok (hq.trans hp) f).trans (map_of_ok hp f).symm)
    | error refusal rest =>
      exact .inr ((map_of_error (hq.trans hp) f).trans (map_of_error hp f).symm)

end AgreesAt

/-- Computations that go on alike after every success are alike. -/
theorem bind_congr_of_ok {α β : Type} {p : Parser α} {next next' : α → Parser β}
    {tokens : List Token} (h : ∀ a rest, p tokens = .ok a rest → next a rest = next' a rest) :
    (p >>= next) tokens = (p >>= next') tokens := by
  cases hp : p tokens with
  | ok a rest => rw [bind_of_ok hp, bind_of_ok hp, h a rest hp]
  | error refusal rest => rw [bind_of_error hp, bind_of_error hp]

theorem bind_congr_of_step {α β : Type} {p p' : Parser α} {tokens rest : List Token}
    (h : p tokens = p' rest) (next : α → Parser β) : (p >>= next) tokens = (p' >>= next) rest := by
  cases hp : p' rest with
  | ok a after => rw [bind_of_ok hp, bind_of_ok (h.trans hp)]
  | error refusal after => rw [bind_of_error hp, bind_of_error (h.trans hp)]

/-! ## Tokens become fewer -/

def Shortens {α : Type} (p : Parser α) : Prop :=
  ∀ tokens a rest, p tokens = .ok a rest → rest.length ≤ tokens.length

theorem shorter_lasting (bound : Nat) :
    Lasting (fun tokens ↦ tokens.length ≤ bound) (fun _ ↦ True) where
  step _ _ _ h := Nat.le_of_succ_le h
  invalid _ := trivial
  tooDeep := trivial
  ranOut _ := trivial

section

variable {α β : Type}

/-- What keeps the tokens below every bound adds none. -/
theorem Shortens.of_maintains {p : Parser α} {good : α → Prop}
    (h : ∀ bound, Maintains (fun tokens ↦ tokens.length ≤ bound) good (fun _ ↦ True) p) :
    Shortens p :=
  fun tokens _ _ hp ↦ ((h tokens.length).ok (Nat.le_refl _) hp).1

theorem Shortens.bind {p : Parser α} {next : α → Parser β} (hp : Shortens p)
    (hnext : ∀ a, Shortens (next a)) : Shortens (p >>= next) := by
  intro tokens b rest h
  obtain ⟨a, mid, hfirst, hsecond⟩ := bind_eq_ok h
  exact Nat.le_trans (hnext a mid b rest hsecond) (hp tokens a mid hfirst)

theorem Shortens.pure (a : α) : Shortens (pure a : Parser α) := by
  intro tokens b rest h
  obtain ⟨-, rfl⟩ := pure_eq_ok h
  exact Nat.le_refl _

end

theorem expression_shortens (size levels : Nat) (least : Precedence) :
    Shortens (expression size levels least) :=
  .of_maintains fun bound ↦ expression_maintains (shorter_lasting bound) size levels least

theorem operand_shortens (size levels : Nat) : Shortens (operand (expression size levels)) :=
  .of_maintains fun bound ↦ operand_maintains (shorter_lasting bound)
    (expression_maintains (shorter_lasting bound) size levels)

theorem expectSymbol_shortens {symbol : Kind} (h : symbol ≠ .eof) (site : Site) :
    Shortens (expectSymbol symbol site) :=
  .of_maintains fun bound ↦ expectSymbol_maintains (shorter_lasting bound) h site

theorem commaSeparated_shortens (count size levels : Nat) (least : Precedence) :
    Shortens (commaSeparated count (expression size levels least)) :=
  .of_maintains fun bound ↦ commaSeparated_maintains (shorter_lasting bound)
    (expression_maintains (shorter_lasting bound) size levels least) count

def TakesNothing {α : Type} (p : Parser α) : Prop :=
  ∀ tokens a rest, p tokens = .ok a rest → tokens = rest

theorem combine_takesNothing (operator : Token) (left right : Expr) :
    TakesNothing (combine operator left right) := by
  unfold combine
  split
  · split
    · exact fun _ _ _ h ↦ (pure_eq_ok h).2
    · exact nofun
  all_goals exact fun _ _ _ h ↦ (pure_eq_ok h).2

theorem callOf_shortens (count size levels : Nat) (least : Precedence) (callee : Expr) :
    Shortens (callOf count (expression size levels least) callee) :=
  .bind (commaSeparated_shortens count size levels least) fun _ ↦
    .bind (expectSymbol_shortens (by decide) _) fun _ ↦ .pure _

/-! ## Loops of one level -/

section

variable {α : Type} {bound : Nat}

def AgreesBelow (bound : Nat) (p q : Parser α) : Prop :=
  ∀ tokens, tokens.length < bound → AgreesAt p q tokens

/-- Lists go on alike if their items are read alike on fewer tokens; the counts are large enough on
both sides. -/
theorem furtherItems_agrees {item item' : Parser α} (hitem : AgreesBelow bound item item')
    (hshort : Shortens item) {count count' : Nat} (items : List α) {tokens : List Token}
    (hbound : tokens.length ≤ bound) (hcount : tokens.length ≤ count)
    (hcount' : tokens.length ≤ count') :
    AgreesAt (furtherItems item count items) (furtherItems item' count' items) tokens := by
  induction count generalizing items tokens count' with
  | zero =>
    obtain rfl := List.eq_nil_of_length_eq_zero (Nat.le_zero.mp hcount)
    cases count' with
    | zero => exact .refl _ _
    | succ count' => exact .of_eq rfl
  | succ count ih =>
    match tokens, count' with
    | [], 0 => exact .of_eq rfl
    | [], count' + 1 => exact .of_eq rfl
    | token :: rest, count' + 1 =>
      rw [List.length_cons] at hbound hcount hcount'
      unfold furtherItems
      refine .bind (.refl _ _) fun comma mid haccepts ↦ ?_
      cases comma with
      | false => exact .refl _ _
      | true =>
        obtain ⟨_, heq, -⟩ := accepts_eq_ok_true haccepts
        cases heq
        refine .bind (hitem rest (by omega)) fun a after ha ↦ ?_
        have hafter := hshort rest a after ha
        exact ih (a :: items) (by omega) (by omega) (by omega)

theorem commaSeparated_agrees {item item' : Parser α} (hitem : AgreesBelow bound item item')
    (hshort : Shortens item) {count count' : Nat} {tokens : List Token}
    (hbound : tokens.length < bound) (hcount : tokens.length ≤ count)
    (hcount' : tokens.length ≤ count') :
    AgreesAt (commaSeparated count item) (commaSeparated count' item') tokens := by
  unfold commaSeparated
  refine .bind (.refl _ _) fun closed mid hsees ↦ ?_
  obtain ⟨rfl, -⟩ := sees_eq_ok hsees
  cases closed with
  | true => exact .refl _ _
  | false =>
    refine .bind (hitem tokens hbound) fun a after ha ↦ ?_
    have hafter := hshort tokens a after ha
    exact furtherItems_agrees hitem hshort [a] (by omega) (by omega) (by omega)

end

/-! ## Operands -/

theorem AgreesAt.of_steps {α : Type} {p q p' q' : Parser α} {tokens rest : List Token}
    (hp : p tokens = p' rest) (hq : q tokens = q' rest) (h : AgreesAt p' q' rest) :
    AgreesAt p q tokens := by
  rw [AgreesAt, hp, hq]
  exact h

theorem oneOf_of_mem {kinds : List Kind} {token : Token} (h : token.kind ∈ kinds)
    (rest : List Token) : Descent.oneOf kinds (token :: rest) = .ok (some token) rest :=
  if_pos h

theorem oneOf_of_ne {kinds : List Kind} {tokens : List Token}
    (h : ∀ kind ∈ kinds, nextKind? tokens ≠ some kind) :
    Descent.oneOf kinds tokens = .ok none tokens := by
  match tokens with
  | [] => rfl
  | token :: rest => exact if_neg fun hmem ↦ h _ hmem rfl

theorem length_lt_of_oneOf {kinds : List Kind} {tokens rest : List Token} {token : Token}
    (h : Descent.oneOf kinds tokens = .ok (some token) rest) : rest.length < tokens.length := by
  match tokens with
  | [] => cases h
  | first :: others =>
    simp only [Descent.oneOf] at h
    split at h
    · cases h
      exact Nat.lt_succ_self _
    · cases h

/-- Only a parenthesis binds more tightly than a sign. -/
theorem stops_unary {tokens : List Token} (h : nextKind? tokens ≠ some .leftParen) :
    Stops .unary tokens := by
  intro kind own hkind hown
  rcases kind.precedence?_cases hown with ⟨rfl, -⟩ | ⟨-, rfl⟩ | ⟨-, -, hmem⟩
  · exact absurd hkind h
  · decide
  · exact Nat.le_of_lt (level_of_mem_operators hmem).2

section

variable {bound size levels room : Nat} {nested again : Precedence → Parser Expr}
  {argument : Parser Expr}

/-- Above the level of signs, climbing takes lists of arguments only. -/
theorem climb_unary_agrees (hargument : AgreesBelow bound (expression size levels .none) argument)
    {count count' : Nat} (left : Expr) {tokens : List Token} (hbound : tokens.length ≤ bound)
    (hsize : tokens.length ≤ size) (hroom : tokens.length ≤ room) (hcount : tokens.length ≤ count)
    (hcount' : tokens.length ≤ count') :
    AgreesAt (climb size nested (expression size levels .none) .unary count left)
      (Descent.calls room argument count' left) tokens := by
  induction count generalizing left tokens count' with
  | zero =>
    obtain rfl := List.eq_nil_of_length_eq_zero (Nat.le_zero.mp hcount)
    cases count' with
    | zero => exact .of_eq rfl
    | succ count' => exact .of_eq rfl
  | succ count ih =>
    match tokens, count' with
    | [], 0 => exact .of_eq rfl
    | [], count' + 1 => exact .of_eq rfl
    | operator :: rest, count' + 1 =>
      rw [List.length_cons] at hbound hsize hroom hcount hcount'
      by_cases hparen : operator.kind = .leftParen
      · have hclimb : climb size nested (expression size levels .none) .unary (count + 1) left
            (operator :: rest) = (callOf size (expression size levels .none) left >>=
              climb size nested (expression size levels .none) .unary count) rest := by
          rw [climb_cons, hparen]
          simp only [Kind.precedence?, extended, hparen]
          rfl
        have hcalls : Descent.calls room argument (count' + 1) left (operator :: rest) =
            (callOf room argument left >>= Descent.calls room argument count') rest := by
          have hmem : operator.kind ∈ [Kind.leftParen] := List.mem_singleton.mpr hparen
          rw [Descent.calls, bind_of_ok (oneOf_of_mem hmem rest)]
          simp only [callOf, bind_assoc, pure_bind]
        refine .of_steps hclimb hcalls (.bind ?_ fun tree after htree ↦ ?_)
        · exact .bind (commaSeparated_agrees hargument (expression_shortens size levels .none)
            (by omega) (by omega) (by omega)) fun _ _ _ ↦ .refl _ _
        · have hafter := callOf_shortens size size levels .none left rest tree after htree
          exact ih tree (by omega) (by omega) (by omega) (by omega) (by omega)
      · have hne : nextKind? (operator :: rest) ≠ some .leftParen :=
          fun heq ↦ hparen (Option.some.inj heq)
        have hcalls : Descent.calls room argument (count' + 1) left (operator :: rest) =
            .ok left (operator :: rest) := by
          rw [Descent.calls, bind_of_ok (oneOf_of_ne fun kind hmem ↦ ?_)]
          · rfl
          · rwa [List.mem_singleton.mp hmem]
        rw [AgreesAt, hcalls, climb_of_stops (stops_unary hne)]
        exact .inr rfl

/-- A token with which no expression begins is refused. -/
theorem operand_of_not_opens {token : Token} (h : opensExpression token.kind = false)
    (nested : Precedence → Parser Expr) (rest : List Token) :
    operand nested (token :: rest) = .error (.invalid ⟨token, .noExpression⟩) (token :: rest) := by
  simp only [operand_eq]
  split <;> simp_all [opensExpression]

/-- An operand without a sign before it is read alike. -/
theorem operand_agrees (hnested : AgreesBelow bound (nested .none) (again .assignment))
    {tokens : List Token} (hbound : tokens.length ≤ bound)
    (hsigns : ∀ kind ∈ signs, nextKind? tokens ≠ some kind) :
    AgreesAt (operand nested) (Descent.primary again) tokens := by
  match tokens with
  | [] => exact .of_eq rfl
  | token :: rest =>
    cases hliteral : literal? token with
    | some value =>
      apply AgreesAt.of_eq
      rw [operand_of_literal? hliteral]
      simp only [Descent.primary, hliteral]
    | none =>
      by_cases hparen : token.kind = .leftParen
      · have hprimary : Descent.primary again (token :: rest) =
            Descent.grouping (again .assignment) rest := by
          simp [Descent.primary, hliteral, hparen]
        refine .of_steps (operand_of_leftParen hparen nested rest) hprimary ?_
        exact .bind (hnested rest hbound) fun _ _ _ ↦ .refl _ _
      by_cases hname : token.kind = .identifier
      · apply AgreesAt.of_eq
        rw [operand_of_identifier hname]
        simp only [Descent.primary, hliteral, hname, if_true]
      · have hopens : opensExpression token.kind = false := by
          cases hkind : token.kind <;> simp_all [literal?, signs, opensExpression]
        apply AgreesAt.of_eq
        rw [operand_of_not_opens hopens]
        simp only [Descent.primary, hliteral, hname, hparen, if_false]

/-- Without a sign in front, a level of signs is a level of calls. -/
theorem unary_of_ne {tokens : List Token} (h : ∀ kind ∈ signs, nextKind? tokens ≠ some kind) :
    Descent.unary room again tokens = Descent.call room again tokens := by
  rw [Descent.unary, bind_of_ok (oneOf_of_ne h)]

/-- Climbing above the level of signs is reading a sign with its operand, or a call. -/
theorem expression_unary_agrees
    (hopening : ∀ least, least.level ≤ Precedence.unary.level →
      AgreesBelow bound (expression size (levels + 1) least) (again least.wanted))
    (hargument : AgreesBelow bound (expression size levels .none) (again .assignment))
    {tokens : List Token} (hbound : tokens.length ≤ bound) (hsize : tokens.length ≤ size)
    (hroom : tokens.length ≤ room) :
    AgreesAt (expression size (levels + 3) .unary) (Descent.unary room again) tokens := by
  by_cases hsign : ∃ token rest, tokens = token :: rest ∧ token.kind ∈ signs
  · obtain ⟨token, rest, rfl, hsign⟩ := hsign
    rw [List.length_cons] at hbound hsize
    have hexpression : expression size (levels + 3) .unary (token :: rest) =
        (Expr.unary token <$> expression size (levels + 1) .unary) rest := by
      rw [expression]
      cases hread : expression size (levels + 1) .unary rest with
      | ok inner after =>
        obtain ⟨_, -, -, hstops⟩ :=
          expression_reads size (levels + 1) .unary rest inner after (by omega) hread
        have hoperand : operand (expression size (levels + 1)) (token :: rest) =
            .ok (.unary token inner) after := by
          rw [operand_of_mem_signs hsign, map_of_ok hread]
        rw [bind_of_ok hoperand, climb_of_stops hstops, map_of_ok hread]
      | error refusal after =>
        have hoperand : operand (expression size (levels + 1)) (token :: rest) =
            .error refusal after := by
          rw [operand_of_mem_signs hsign, map_of_error hread]
        rw [bind_of_error hoperand, map_of_error hread]
    have hunary : Descent.unary room again (token :: rest) =
        (Expr.unary token <$> again .unary) rest := by
      rw [Descent.unary, bind_of_ok (oneOf_of_mem hsign rest)]
    exact .of_steps hexpression hunary (.map _ (hopening .unary (Nat.le_refl _) rest hbound))
  · have hsigns : ∀ kind ∈ signs, nextKind? tokens ≠ some kind := by
      intro kind hkind hnext
      cases tokens with
      | nil => cases hnext
      | cons token rest => exact hsign ⟨token, rest, rfl, Option.some.inj hnext ▸ hkind⟩
    rw [AgreesAt, unary_of_ne hsigns, expression]
    refine AgreesAt.bind (operand_agrees (hopening .none (by decide)) hbound hsigns) ?_
    intro left rest hleft
    have hrest := operand_shortens size (levels + 1) tokens left rest hleft
    exact climb_unary_agrees hargument left (by omega) (by omega) (by omega) (by omega) (by omega)

end

/-! ## One level after the other -/

/-- The loop in an expression for which `levels + 3` levels may be opened. -/
abbrev climbAbove (size levels : Nat) (least : Precedence) : (count : Nat) → Expr → Parser Expr :=
  climb size (expression size (levels + 2)) (expression size levels .none) least

/-- What a round of that loop makes of `left`. -/
abbrev extendedBy (size levels : Nat) (operator : Token) (own : Precedence) (left : Expr) :
    Parser Expr :=
  extended size (expression size (levels + 2)) (expression size levels .none) operator own left

section

variable {size levels : Nat}

theorem extendedBy_shortens (operator : Token) (own : Precedence) (left : Expr) :
    Shortens (extendedBy size levels operator own left) := by
  unfold extendedBy extended
  split
  · exact callOf_shortens size size levels .none left
  · refine .bind (expression_shortens size (levels + 2) _) fun right tokens tree rest h ↦ ?_
    obtain rfl := combine_takesNothing operator left right tokens tree rest h
    exact Nat.le_refl _

/-- The operators that bind more tightly than one that was taken belong to its right operand. -/
theorem stops_of_extendedBy {operator : Token} {own : Precedence} {left tree : Expr}
    {tokens rest : List Token} (hown : operator.kind.precedence? = some own)
    (hcall : own ≠ .call) (hsize : tokens.length ≤ size)
    (h : extendedBy size levels operator own left tokens = .ok tree rest) :
    Stops (operator.kind.rightBound own) rest := by
  have hparen : operator.kind ≠ .leftParen := by
    intro hkind
    rw [hkind] at hown
    exact hcall (Option.some.inj hown).symm
  unfold extendedBy extended at h
  rw [if_neg hparen] at h
  obtain ⟨right, mid, hright, hcombine⟩ := bind_eq_ok h
  obtain rfl := combine_takesNothing operator left right mid tree rest hcombine
  obtain ⟨_, -, -, hstops⟩ := expression_reads size (levels + 2) _ tokens right mid hsize hright
  exact hstops

theorem level_rightBound_le (kind : Kind) (own : Precedence) :
    (kind.rightBound own).level ≤ own.level := by
  unfold Kind.rightBound
  split
  · cases own <;> decide
  · exact Nat.le_refl _

/-- What is left to do at a level: nothing unless an operator of this level comes next, and after
such an operator the same again. -/
structure Finishes (size levels : Nat) (level : Precedence) (finish : Nat → Expr → Parser Expr) :
    Prop where
  pass : ∀ count left tokens,
    (∀ kind, nextKind? tokens = some kind → kind.precedence? ≠ some level) →
    finish count left tokens = .ok left tokens
  round : ∀ count left operator rest, operator.kind.precedence? = some level →
    rest.length ≤ size →
    finish (count + 1) left (operator :: rest) =
      (extendedBy size levels operator level left >>= finish count) rest

variable {least level : Precedence} {finish : Nat → Expr → Parser Expr}

theorem stops_nil (least : Precedence) : Stops least [] := by
  intro kind own hkind
  cases hkind

/-- Where climbing stops at once, there is nothing to finish either. -/
theorem climb_split_of_stops (hlevel : level.level = least.level + 1)
    (hfinish : Finishes size levels level finish) {tokens : List Token}
    (hstops : Stops least tokens) (count count' : Nat) (left : Expr) :
    climbAbove size levels least count left tokens =
      (climbAbove size levels level count left >>= finish count') tokens := by
  have hlooser : Stops level tokens := hstops.mono (by omega)
  rw [climbAbove, climb_of_stops hstops, bind_of_ok (climb_of_stops hlooser count left)]
  refine (hfinish.pass count' left tokens fun kind hkind hown ↦ ?_).symm
  have := hstops kind level hkind hown
  omega

/-- An operator that binds tightly enough extends what stands to its left. -/
theorem climbAbove_of_lt {operator : Token} {own : Precedence}
    (hown : operator.kind.precedence? = some own) (hlt : least.level < own.level) (count : Nat)
    (left : Expr) (rest : List Token) :
    climbAbove size levels least (count + 1) left (operator :: rest) =
      (extendedBy size levels operator own left >>= climbAbove size levels least count) rest := by
  simp only [climbAbove, climb_cons, hown, if_pos hlt]

/-- Climbing above a level is climbing above the next one and then finishing that one. -/
theorem climb_split (hlevel : level.level = least.level + 1) (hcall : level ≠ .call)
    (hfinish : Finishes size levels level finish) {count count' : Nat} (left : Expr)
    {tokens : List Token} (hsize : tokens.length ≤ size) (hcount : tokens.length ≤ count)
    (hcount' : tokens.length ≤ count') :
    climbAbove size levels least count left tokens =
      (climbAbove size levels level count left >>= finish count') tokens := by
  induction count generalizing left tokens count' with
  | zero =>
    obtain rfl := List.eq_nil_of_length_eq_zero (Nat.le_zero.mp hcount)
    exact climb_split_of_stops hlevel hfinish (stops_nil least) 0 count' left
  | succ count ih =>
    match tokens with
    | [] => exact climb_split_of_stops hlevel hfinish (stops_nil least) _ count' left
    | operator :: rest =>
      rw [List.length_cons] at hsize hcount hcount'
      cases hown : operator.kind.precedence? with
      | none =>
        have hstops := stops_of_none hown least rest
        exact climb_split_of_stops hlevel hfinish hstops _ count' left
      | some own =>
        -- The operator binds more loosely than the level, belongs to it, or binds more tightly.
        rcases Nat.lt_trichotomy own.level level.level with hlt | heq | hgt
        · exact climb_split_of_stops hlevel hfinish (stops_cons hown (by omega) rest) _ count' left
        · obtain rfl := Precedence.level_injective heq
          obtain ⟨count', rfl⟩ : ∃ fewer, count' = fewer + 1 := ⟨count' - 1, by omega⟩
          have hstops : Stops own (operator :: rest) := stops_cons hown (Nat.le_refl _) rest
          rw [climbAbove_of_lt hown (by omega), bind_of_ok (climb_of_stops hstops _ left),
            hfinish.round count' left operator rest hown (by omega)]
          apply bind_congr_of_ok
          intro tree after htree
          have hafter := extendedBy_shortens operator own left rest tree after htree
          have hstops : Stops own after :=
            (stops_of_extendedBy hown hcall (by omega) htree).mono (level_rightBound_le _ own)
          rw [ih tree (by omega) (by omega) (by omega : after.length ≤ count'),
            bind_of_ok (climb_of_stops hstops count tree)]
        · rw [climbAbove_of_lt hown (by omega),
            bind_congr_of_step (climbAbove_of_lt hown hgt count left rest), bind_assoc]
          apply bind_congr_of_ok
          intro tree after htree
          have hafter := extendedBy_shortens operator own left rest tree after htree
          exact ih tree (by omega) (by omega) (by omega)

/-- Reading above a level is reading above the next one and then finishing that one. -/
theorem expression_split (hlevel : level.level = least.level + 1) (hcall : level ≠ .call)
    (hfinish : Finishes size levels level finish) {count : Nat} {tokens : List Token}
    (hsize : tokens.length ≤ size) (hcount : tokens.length ≤ count) :
    expression size (levels + 3) least tokens =
      (expression size (levels + 3) level >>= finish count) tokens := by
  rw [expression, expression, bind_assoc]
  apply bind_congr_of_ok
  intro left rest hleft
  have hrest := operand_shortens size (levels + 1) tokens left rest hleft
  exact climb_split hlevel hcall hfinish left (by omega) (by omega) (by omega)

/-! ## Levels -/

/-- No operator has the level of signs. -/
theorem finishes_unary : Finishes size levels .unary (fun _ left ↦ pure left) where
  pass _ _ _ _ := rfl
  round _ _ operator _ hown _ := by
    rcases operator.kind.precedence?_cases hown with ⟨-, h⟩ | ⟨-, h⟩ | ⟨-, -, h⟩
    all_goals cases h

/-- All operators of a level are among those of the grammar if one of them is. -/
theorem mem_operators_of_precedence? {kind other : Kind} (hother : other ∈ operators level)
    (h : kind.precedence? = some level) : kind ∈ operators level := by
  rcases kind.precedence?_cases h with ⟨-, rfl⟩ | ⟨-, rfl⟩ | ⟨-, -, hmem⟩
  · cases hother
  · cases hother
  · exact hmem

/-- The operators of a level that groups from the left. -/
theorem finishes_operations {kind : Kind} (hkind : kind ∈ operators level) :
    Finishes size levels level
      (Descent.operations (operators level) (expression size (levels + 2) level)) where
  pass count left tokens hnext := by
    have hone : Descent.oneOf (operators level) tokens = .ok none tokens :=
      oneOf_of_ne fun kind hmem hkind ↦ hnext kind hkind (Kind.precedence?_of_mem_operators hmem)
    cases count with
    | zero => rfl
    | succ count =>
      rw [Descent.operations, bind_of_ok hone]
      rfl
  round count left operator rest hown _ := by
    have hmem := mem_operators_of_precedence? hkind hown
    have hround : extendedBy size levels operator level left =
        (expression size (levels + 2) level >>= fun right ↦ pure (joined operator left right)) := by
      simp only [extendedBy, extended, Kind.rightBound, if_neg (ne_of_mem_operators hmem).1,
        if_neg (ne_of_mem_operators hmem).2]
      exact bind_congr fun right ↦ combine_of_mem_operators hmem left right
    rw [Descent.operations, bind_of_ok (oneOf_of_mem hmem rest), hround, bind_assoc]
    simp only [pure_bind]

theorem assigned_of_ne {value : Parser Expr} {left : Expr} {tokens : List Token}
    (h : nextKind? tokens ≠ some .equal) :
    Descent.assigned value left tokens = .ok left tokens := by
  have hone : Descent.oneOf [.equal] tokens = .ok none tokens := by
    apply oneOf_of_ne
    intro kind hmem
    rwa [List.mem_singleton.mp hmem]
  rw [Descent.assigned, bind_of_ok hone]
  rfl

/-- An assignment is what extending by an equals sign makes of its target. -/
theorem assigned_of_equal {operator : Token} (h : operator.kind = .equal) (left : Expr)
    (rest : List Token) :
    Descent.assigned (expression size (levels + 2) .none) left (operator :: rest) =
      extendedBy size levels operator .assignment left rest := by
  have hbound : operator.kind.rightBound .assignment = .none := by
    rw [h]
    rfl
  have hmem : operator.kind ∈ [Kind.equal] := List.mem_singleton.mpr h
  rw [Descent.assigned, bind_of_ok (oneOf_of_mem hmem rest), extendedBy, extended, hbound,
    if_neg (by rw [h]; decide)]
  refine congrFun (bind_congr fun right ↦ ?_) rest
  cases left <;> simp only [combine, h]

/-- After an assignment no equals sign can come next, since its value would have taken it. -/
theorem finishes_assigned : Finishes size levels .assignment
    (fun _ ↦ Descent.assigned (expression size (levels + 2) .none)) where
  pass _ left tokens hnext := assigned_of_ne fun hkind ↦ hnext .equal hkind rfl
  round _ left operator rest hown hsize := by
    have hequal : operator.kind = .equal := by
      rcases operator.kind.precedence?_cases hown with ⟨-, h⟩ | ⟨h, -⟩ | ⟨-, -, h⟩
      · cases h
      · exact h
      · cases h
    calc Descent.assigned (expression size (levels + 2) .none) left (operator :: rest)
        = (extendedBy size levels operator .assignment left >>= pure) rest := by
          rw [assigned_of_equal hequal, bind_pure]
      _ = (extendedBy size levels operator .assignment left >>=
            Descent.assigned (expression size (levels + 2) .none)) rest := by
          apply bind_congr_of_ok
          intro tree after htree
          have hstops := stops_of_extendedBy hown (by decide) hsize htree
          refine (assigned_of_ne fun hkind ↦ ?_).symm
          have hle := hstops .equal .assignment hkind rfl
          rw [hequal] at hle
          exact absurd hle (by decide)

end

/-! ## Agreement -/

section

variable {bound size levels room : Nat} {again : Precedence → Parser Expr}

/-- Operations are grouped alike if their operands are read alike. -/
theorem operations_agrees {kinds : List Kind} {operand operand' : Parser Expr}
    (hoperand : AgreesBelow bound operand operand') (hshort : Shortens operand) (count : Nat)
    (left : Expr) {tokens : List Token} (hbound : tokens.length ≤ bound) :
    AgreesAt (Descent.operations kinds operand count left)
      (Descent.operations kinds operand' count left) tokens := by
  induction count generalizing left tokens with
  | zero => exact .refl _ _
  | succ count ih =>
    unfold Descent.operations
    refine .bind (.refl _ _) fun operator mid hone ↦ ?_
    cases operator with
    | none => exact .refl _ _
    | some operator =>
      have hmid := length_lt_of_oneOf hone
      refine .bind (hoperand mid (by omega)) fun right after hright ↦ ?_
      have hafter := hshort mid right after hright
      exact ih (joined operator left right) (by omega)

variable {tokens : List Token} {least level : Precedence}

/-- If the operands of a level are read alike, so are its operations. -/
theorem expression_grouped_agrees {kind : Kind} (hkind : kind ∈ operators level)
    (hlevel : level.level = least.level + 1)
    (hright : AgreesBelow bound (expression size (levels + 2) level)
      (Descent.atLevel room again level.tighter))
    (hbound : tokens.length ≤ bound) (hsize : tokens.length ≤ size) (hroom : tokens.length ≤ room)
    (h : AgreesAt (expression size (levels + 3) level) (Descent.atLevel room again level.tighter)
      tokens) :
    AgreesAt (expression size (levels + 3) least) (Descent.atLevel room again level) tokens := by
  have hcall : level ≠ .call := by
    rintro rfl
    cases hkind
  rw [AgreesAt, expression_split hlevel hcall (finishes_operations hkind) hsize hroom,
    Descent.atLevel_of_mem_operators hkind]
  refine AgreesAt.bind h fun left rest hleft ↦ ?_
  have hrest := expression_shortens size (levels + 3) level tokens left rest hleft
  exact operations_agrees hright (expression_shortens size (levels + 2) level) room left (by omega)

/-- If what stands on both sides of an equals sign is read alike, so are assignments. -/
theorem expression_assignment_agrees
    (hvalue : AgreesBelow bound (expression size (levels + 2) .none) (again .assignment))
    (hbound : tokens.length ≤ bound) (hsize : tokens.length ≤ size)
    (h : AgreesAt (expression size (levels + 3) .assignment) (Descent.atLevel room again .or)
      tokens) :
    AgreesAt (expression size (levels + 3) .none) (Descent.atLevel room again .assignment)
      tokens := by
  have hlevel : Precedence.assignment.level = Precedence.none.level + 1 := rfl
  rw [AgreesAt, expression_split hlevel (by decide) finishes_assigned hsize (Nat.le_refl _)]
  refine AgreesAt.bind h fun left rest hleft ↦ ?_
  have hrest := expression_shortens size (levels + 3) .assignment tokens left rest hleft
  refine AgreesAt.bind (.refl _ _) fun equals mid hone ↦ ?_
  cases equals with
  | none => exact .refl _ _
  | some equals =>
    have hmid := length_lt_of_oneOf hone
    exact .bind (hvalue mid (by omega)) fun _ _ _ ↦ .refl _ _

end

/-- What is read above a level is read by the parser of the next tighter one, on fewer tokens than
`bound`. -/
def DescendsBelow (size bound : Nat) : Prop :=
  ∀ (levels room : Nat) (least : Precedence) (tokens : List Token),
    least.level ≤ Precedence.unary.level → tokens.length < bound → tokens.length < room →
    AgreesAt (expression size levels least) (Descent.descend room least.wanted) tokens

/-- One token more: from the level of signs down to assignment, each level from the one before. -/
theorem DescendsBelow.succ {size bound : Nat} (ih : DescendsBelow size bound)
    (hbound : bound ≤ size) : DescendsBelow size (bound + 1) := by
  intro levels room least tokens hleast htokens hroom
  by_cases hlevels : levels < 3
  · left
    match levels with
    | 0 | 1 | 2 => exact ⟨tokens, rfl⟩
  obtain ⟨levels, rfl⟩ : ∃ below, levels = below + 3 := ⟨levels - 3, by omega⟩
  obtain ⟨room, rfl⟩ : ∃ fewer, room = fewer + 1 := ⟨room - 1, by omega⟩
  have hsize : tokens.length ≤ size := by omega
  have hbelow (levels : Nat) {least : Precedence} (hleast : least.level ≤ Precedence.unary.level) :
      AgreesBelow tokens.length (expression size levels least)
        (Descent.descend room least.wanted) :=
    fun rest hrest ↦ ih levels room least rest hleast (by omega) (by omega)
  have hgrouped (least : Precedence) {level : Precedence} {kind : Kind}
      (hkind : kind ∈ operators level) (hlevel : level.level = least.level + 1)
      (h : AgreesAt (expression size (levels + 3) level)
        (Descent.atLevel room (Descent.descend room) level.tighter) tokens) :
      AgreesAt (expression size (levels + 3) least)
        (Descent.atLevel room (Descent.descend room) level) tokens := by
    refine expression_grouped_agrees hkind hlevel (fun rest hrest ↦ ?_) (Nat.le_refl _) hsize
      (by omega) h
    have hlt := (level_of_mem_operators hkind).2
    have := ih (levels + 2) (room + 1) level rest (by omega) (by omega) (by omega)
    rwa [wanted_of_mem_operators hkind] at this
  have hunary : AgreesAt (expression size (levels + 3) .unary)
      (Descent.atLevel room (Descent.descend room) .unary) tokens :=
    expression_unary_agrees (fun _ ↦ hbelow (levels + 1)) (hbelow levels (by decide))
      (Nat.le_refl _) hsize (by omega)
  have hfactor : AgreesAt (expression size (levels + 3) .factor)
      (Descent.atLevel room (Descent.descend room) .unary) tokens := by
    have hlevel : Precedence.unary.level = Precedence.factor.level + 1 := rfl
    rw [AgreesAt, expression_split hlevel (by decide) finishes_unary hsize (Nat.le_refl _),
      bind_pure]
    exact hunary
  have hterm := hgrouped .term (by decide : Kind.star ∈ operators .factor) rfl hfactor
  have hcomparison := hgrouped .comparison (by decide : Kind.plus ∈ operators .term) rfl hterm
  have hequality := hgrouped .equality (by decide : Kind.less ∈ operators .comparison) rfl
    hcomparison
  have hand := hgrouped .and (by decide : Kind.equalEqual ∈ operators .equality) rfl hequality
  have hor := hgrouped .or (by decide : Kind.kwAnd ∈ operators .and) rfl hand
  have hassignment := hgrouped .assignment (by decide : Kind.kwOr ∈ operators .or) rfl hor
  rw [Descent.descend]
  cases least with
  | none =>
    exact expression_assignment_agrees (hbelow (levels + 2) (by decide)) (Nat.le_refl _) hsize
      hassignment
  | assignment => exact hassignment
  | or => exact hor
  | and => exact hand
  | equality => exact hequality
  | comparison => exact hcomparison
  | term => exact hterm
  | factor => exact hfactor
  | unary => exact hunary
  | call | primary => exact absurd hleast (by decide)

/-- By induction on the number of tokens, precedence climbing reads what descending level by level
reads. -/
theorem descendsBelow {size bound : Nat} (hbound : bound ≤ size + 1) :
    DescendsBelow size bound := by
  induction bound with
  | zero => exact fun _ _ _ _ _ hlt ↦ absurd hlt (Nat.not_lt_zero _)
  | succ bound ih => exact (ih (by omega)).succ (by omega)

/-! ## Where the end is marked -/

/-- Two parsers either both succeed, with the same result and the same tokens left, or both refuse
the same token for the same reason, and have taken equally many before. -/
def AnswersAlike (p q : Parser Expr) (tokens : List Token) : Prop :=
  (∃ tree rest, p tokens = .ok tree rest ∧ q tokens = .ok tree rest) ∨
    ∃ error rest, p tokens = .error (.invalid error) rest ∧ q tokens = .error (.invalid error) rest

/-- The level that is read where operators have to bind more tightly than `least`: the next tighter
one, unless signs come first that nest. -/
def levelAbove (least : Precedence) (tokens : List Token) : Precedence :=
  if least = .unary ∧ ∃ kind ∈ signs, nextKind? tokens = some kind then .unary else least.tighter

theorem HasEnd.drop {tokens : List Token} (h : HasEnd tokens) {start : Nat}
    (hstart : ∀ token ∈ tokens.take start, token.kind ≠ .eof) : HasEnd (tokens.drop start) := by
  obtain ⟨mark, hmem, hmark⟩ := h
  rw [← List.take_append_drop start tokens, List.mem_append] at hmem
  rcases hmem with hmem | hmem
  · exact absurd hmark (hstart mark hmem)
  · exact ⟨mark, hmem, hmark⟩

theorem read_levelAbove {least : Precedence} (hleast : least.level ≤ Precedence.unary.level)
    (tokens : List Token) :
    Descent.read (levelAbove least tokens) tokens = Descent.read least.wanted tokens := by
  unfold levelAbove
  split
  · rename_i h
    rw [h.1]
    rfl
  · rename_i h
    cases least with
    | unary =>
      exact (unary_of_ne fun kind hmem hkind ↦ h ⟨rfl, kind, hmem, hkind⟩).symm
    | call | primary => exact absurd hleast (by decide)
    | none | assignment | or | and | equality | comparison | term | factor => rfl

/-- Climbing is descending.  From any token up to the mark of the end, and unless the levels are
exhausted, an expression whose operators bind more tightly than `least` is read or refused just as
the parser of the next tighter level reads or refuses it.  Above the level of signs these may still
come first, and then they are read as their own level reads them. -/
theorem climbing_is_descending {tokens : List Token} (hend : HasEnd tokens) {start : Nat}
    (hstart : ∀ token ∈ tokens.take start, token.kind ≠ .eof) {least : Precedence}
    (hleast : least.level ≤ Precedence.unary.level) {size levels : Nat}
    (hsize : tokens.length ≤ size)
    (hdeep : ∀ rest, expression size levels least (tokens.drop start) ≠
      .error (.interrupted .tooDeep) rest) :
    AnswersAlike (expression size levels least)
      (Descent.read (levelAbove least (tokens.drop start))) (tokens.drop start) := by
  have hlength : (tokens.drop start).length ≤ tokens.length := by
    rw [List.length_drop]
    exact Nat.sub_le _ _
  have hagrees : AgreesAt (expression size levels least) (Descent.read least.wanted)
      (tokens.drop start) :=
    descendsBelow (Nat.le_refl _) levels _ least _ hleast (by omega) (Nat.lt_succ_self _)
  have heq := hagrees.resolve_left fun ⟨rest, h⟩ ↦ hdeep rest h
  rw [← read_levelAbove hleast] at heq
  have hkept := expression_maintains (hasEnd_lasting.lasting []) size levels least
    (tokens.drop start) (hend.drop hstart)
  cases hread : expression size levels least (tokens.drop start) with
  | ok tree rest => exact .inl ⟨tree, rest, hread, heq.trans hread⟩
  | error refusal rest =>
    rw [hread] at hkept
    cases refusal with
    | invalid error => exact .inr ⟨error, rest, hread, heq.trans hread⟩
    | interrupted cause =>
      cases hkept.2 cause rfl
      exact absurd hread (hdeep rest)

/-- In `; !a(b, c) - d * -e = f` what stands before the equals sign cannot be assigned to, which is
noticed after the value has been read. -/
theorem assignment_to_difference_refused :
    let name (lexeme : String) : Token := ⟨.identifier, lexeme, .nil, 1, 0⟩
    let sign (kind : Kind) : Token := ⟨kind, kind.mark, .nil, 1, 0⟩
    let tokens := [sign .semicolon, sign .bang, name "a", sign .leftParen, name "b", sign .comma,
      name "c", sign .rightParen, sign .minus, name "d", sign .star, sign .minus, name "e",
      sign .equal, name "f", sign .eof]
    HasEnd tokens ∧ (∀ token ∈ tokens.take 1, token.kind ≠ .eof) ∧
      expression 16 9 .none (tokens.drop 1) =
        .error (.invalid ⟨sign .equal, .invalidTarget⟩) [sign .eof] ∧
      AnswersAlike (expression 16 9 .none)
        (Descent.read (levelAbove .none (tokens.drop 1))) (tokens.drop 1) := by
  intro name sign tokens
  have hend : HasEnd tokens := ⟨sign .eof, by simp [tokens], rfl⟩
  have hstart : ∀ token ∈ tokens.take 1, token.kind ≠ .eof := by decide
  have hread : expression 16 9 .none (tokens.drop 1) =
      .error (.invalid ⟨sign .equal, .invalidTarget⟩) [sign .eof] := rfl
  refine ⟨hend, hstart, hread, climbing_is_descending hend hstart (by decide) (by decide) ?_⟩
  intro rest hdeep
  rw [hread] at hdeep
  cases hdeep

/-- Where operators have to bind more tightly than signs, `-a` is read all the same, though it is no
call. -/
theorem sign_read_above_signs :
    let minus : Token := ⟨.minus, "-", .nil, 1, 0⟩
    let name : Token := ⟨.identifier, "a", .nil, 1, 1⟩
    let mark : Token := ⟨.eof, "", .nil, 1, 2⟩
    let tokens := [minus, name, mark]
    HasEnd tokens ∧ expression 3 9 .unary tokens = .ok (.unary minus (.var name)) [mark] ∧
      Descent.read Precedence.unary.tighter tokens =
        .error (.invalid ⟨minus, .noExpression⟩) tokens ∧
      ¬AnswersAlike (expression 3 9 .unary) (Descent.read Precedence.unary.tighter) tokens := by
  intro minus name mark tokens
  have hread : expression 3 9 .unary tokens = .ok (.unary minus (.var name)) [mark] := rfl
  have hcall : Descent.read Precedence.unary.tighter tokens =
      .error (.invalid ⟨minus, .noExpression⟩) tokens := rfl
  refine ⟨⟨mark, by simp [tokens], rfl⟩, hread, hcall, ?_⟩
  rintro (⟨tree, rest, -, hok⟩ | ⟨error, rest, herror, -⟩)
  · cases hcall.symm.trans hok
  · cases hread.symm.trans herror

end Lox.Parser
