import Lox.Proofs.Parse.Descent

/-!
# How parsers advance

A parser takes tokens from the front and looks at no more than the next one.  Hence what stands
behind a token that it never takes is no concern of it, and neither is the bound on its repetitions,
as long as there are not more tokens than that.  When it refuses, the token at which it locates the
fault is one that it has come across on its way.

Both are shown at once for a parser and a second one that differs in its bounds only, and for any
choice of kinds that are never taken.  Expressions stop at semicolons as well as at the end.
-/

namespace Lox.Parser

open Stateful Grammar

theorem exists_cons_of_nextKind? {tokens : List Token} {kind : Kind}
    (h : nextKind? tokens = some kind) :
    ∃ token rest, tokens = token :: rest ∧ token.kind = kind := by
  match tokens with
  | [] => cases h
  | token :: rest => exact ⟨token, rest, rfl, Option.some.inj h⟩

/-! ## Tokens taken -/

/-- What was taken of `tokens` to leave `rest` has no token of a kind in `stops`. -/
def Took (stops : List Kind) (tokens rest : List Token) : Prop :=
  ∃ taken, tokens = taken ++ rest ∧ ∀ token ∈ taken, token.kind ∉ stops

namespace Took

variable {stops : List Kind} {tokens rest after : List Token}

theorem refl (tokens : List Token) : Took stops tokens tokens :=
  ⟨[], rfl, by simp⟩

theorem cons {token : Token} (hkind : token.kind ∉ stops) (h : Took stops tokens rest) :
    Took stops (token :: tokens) rest := by
  obtain ⟨taken, rfl, htaken⟩ := h
  exact ⟨token :: taken, rfl, List.forall_mem_cons.mpr ⟨hkind, htaken⟩⟩

/-- What was taken in two parts was taken as a whole. -/
theorem trans (h : Took stops tokens rest) (h' : Took stops rest after) :
    Took stops tokens after := by
  obtain ⟨taken, rfl, htaken⟩ := h
  obtain ⟨taken', rfl, htaken'⟩ := h'
  exact ⟨taken ++ taken', by simp, List.forall_mem_append.mpr ⟨htaken, htaken'⟩⟩

theorem length_le (h : Took stops tokens rest) : rest.length ≤ tokens.length := by
  obtain ⟨taken, rfl, -⟩ := h
  simp

/-- A token of one of the kinds that are never taken is still ahead. -/
theorem exists_mem (h : Took stops tokens rest) (hmem : ∃ token ∈ tokens, token.kind ∈ stops) :
    ∃ token ∈ rest, token.kind ∈ stops := by
  obtain ⟨taken, rfl, htaken⟩ := h
  obtain ⟨token, hmem, hkind⟩ := hmem
  rcases List.mem_append.mp hmem with hmem | hmem
  · exact absurd hkind (htaken token hmem)
  · exact ⟨token, hmem, hkind⟩

end Took

/-- The place of an obstacle that was met between `tokens` and `rest`.  A fault may be located at a
token that has been taken since. -/
def Located (stops : List Kind) (tokens rest : List Token) : Refusal → Prop
  | .invalid error => ∃ following, Took stops tokens (error.token :: following) ∧
      Took stops (error.token :: following) rest
  | .interrupted cause => Took stops tokens rest ∧ (cause ≠ .tooDeep → cause = .ranOut ∧ rest = [])

theorem Took.located {stops : List Kind} {tokens mid rest : List Token} {refusal : Refusal}
    (h : Took stops tokens mid) (hlocated : Located stops mid rest refusal) :
    Located stops tokens rest refusal :=
  match refusal, hlocated with
  | .invalid _, ⟨following, hbefore, hafter⟩ => ⟨following, h.trans hbefore, hafter⟩
  | .interrupted _, ⟨htook, hnil⟩ => ⟨h.trans htook, hnil⟩

/-- A parser may be run on `tokens` with the bound `size`, and with the bound `size'` if `behind` is
appended, for nothing is appended unless `tokens` keep parsers from reaching it. -/
structure Ready (stops : List Kind) (behind : List Token) (size size' : Nat) (tokens : List Token) :
    Prop where
  guarded : behind = [] ∨ ∃ token ∈ tokens, token.kind ∈ stops
  fits : tokens.length ≤ size
  fits' : tokens.length + behind.length ≤ size'

namespace Ready

variable {stops : List Kind} {behind tokens rest : List Token} {size size' : Nat}

/-- Taking tokens leaves a parser ready to run. -/
theorem took (h : Ready stops behind size size' tokens) (htook : Took stops tokens rest) :
    Ready stops behind size size' rest where
  guarded := h.guarded.imp_right htook.exists_mem
  fits := Nat.le_trans htook.length_le h.fits
  fits' := Nat.le_trans (Nat.add_le_add_right htook.length_le _) h.fits'

/-- With fewer tokens, one round less will do. -/
theorem less (h : Ready stops behind (size + 1) (size' + 1) tokens) (htook : Took stops tokens rest)
    (hless : rest.length < tokens.length) : Ready stops behind size size' rest where
  guarded := (h.took htook).guarded
  fits := by
    have := h.fits
    omega
  fits' := by
    have := h.fits'
    omega

theorem tail {token : Token} (h : Ready stops behind (size + 1) (size' + 1) (token :: tokens))
    (hkind : token.kind ∉ stops) : Ready stops behind size size' tokens :=
  h.less (.cons hkind (.refl _)) (Nat.lt_succ_self _)

theorem eq_nil (h : Ready stops behind size size' []) : behind = [] := by
  rcases h.guarded with hnil | ⟨token, hmem, -⟩
  · exact hnil
  · cases hmem

/-- What is appended does not change the next token. -/
theorem nextKind?_append (h : Ready stops behind size size' tokens) :
    nextKind? (tokens ++ behind) = nextKind? tokens := by
  match tokens with
  | [] => rw [h.eq_nil, List.append_nil]
  | token :: rest => rfl

end Ready

/-- On `tokens`, and with `behind` appended to them, `p` and `q` end alike, and they take no token
of a kind in `stops`. -/
abbrev Advances {α : Type} (stops : List Kind) (behind : List Token) (p q : Parser α)
    (tokens : List Token) : Prop :=
  Abreast (· ++ behind) (fun _ rest ↦ Took stops tokens rest)
    (fun refusal rest ↦ Located stops tokens rest refusal) p q tokens

/-- `p` and `q` advance alike wherever they may be run. -/
abbrev Alongside {α : Type} (stops : List Kind) (behind : List Token) (size size' : Nat)
    (p q : Parser α) : Prop :=
  ∀ tokens, Ready stops behind size size' tokens → Advances stops behind p q tokens

/-- Likewise, but a semicolon is the last token taken. -/
abbrev Closes {α : Type} (stops : List Kind) (behind : List Token) (p q : Parser α)
    (tokens : List Token) : Prop :=
  Abreast (· ++ behind)
    (fun _ rest ↦ ∃ semicolon : Token, semicolon.kind = .semicolon ∧
      Took stops tokens (semicolon :: rest))
    (fun refusal rest ↦ Located stops tokens rest refusal) p q tokens

section

variable {α β : Type} {stops : List Kind} {behind tokens rest : List Token} {p q : Parser α}

theorem Advances.after (h : Advances stops behind p q rest) (htook : Took stops tokens rest) :
    Abreast (· ++ behind) (fun _ rest ↦ Took stops tokens rest)
      (fun refusal rest ↦ Located stops tokens rest refusal) p q rest :=
  h.imp (fun _ _ h ↦ htook.trans h) fun _ _ h ↦ htook.located h

/-- Parsers advance alike step by step. -/
theorem Advances.bind {next next' : α → Parser β} (h : Advances stops behind p q tokens)
    (hnext : ∀ a rest, Took stops tokens rest → Advances stops behind (next a) (next' a) rest) :
    Advances stops behind (p >>= next) (q >>= next') tokens :=
  Abreast.bind h fun a rest htook ↦ (hnext a rest htook).after htook

theorem Advances.map (h : Advances stops behind p q tokens) (f : α → β) :
    Advances stops behind (f <$> p) (f <$> q) tokens :=
  Abreast.map h fun _ _ htook ↦ htook

theorem Closes.after (h : Closes stops behind p q rest) (htook : Took stops tokens rest) :
    Abreast (· ++ behind)
      (fun _ rest ↦ ∃ semicolon : Token, semicolon.kind = .semicolon ∧
        Took stops tokens (semicolon :: rest))
      (fun refusal rest ↦ Located stops tokens rest refusal) p q rest :=
  h.imp (fun _ _ ⟨semicolon, hkind, h⟩ ↦ ⟨semicolon, hkind, htook.trans h⟩) fun _ _ h ↦
    htook.located h

/-- A semicolon at the end closes the whole. -/
theorem Advances.closes {next next' : α → Parser β} (h : Advances stops behind p q tokens)
    (hnext : ∀ a rest, Took stops tokens rest → Closes stops behind (next a) (next' a) rest) :
    Closes stops behind (p >>= next) (q >>= next') tokens :=
  Abreast.bind h fun a rest htook ↦ (hnext a rest htook).after htook

/-- Where semicolons may be taken, closing is a way of advancing. -/
theorem Closes.advances (h : Closes stops behind p q tokens) (hstops : .semicolon ∉ stops) :
    Advances stops behind p q tokens :=
  h.imp (fun _ _ ⟨_, hkind, h⟩ ↦ h.trans (.cons (hkind ▸ hstops) (.refl _))) fun _ _ h ↦ h

end

/-! ## Single tokens -/

section

variable {α : Type} {stops : List Kind} {behind tokens : List Token} {size size' : Nat}

/-- A required token is taken, or refused, on both sides. -/
theorem expect_advances {kind : Kind} (hkind : kind ∉ stops) (cause : SyntaxCause)
    (h : Ready stops behind size size' tokens) :
    Advances stops behind (expect kind cause) (expect kind cause) tokens := by
  match tokens with
  | [] =>
    obtain rfl := h.eq_nil
    exact .of_error rfl rfl ⟨.refl _, fun _ ↦ ⟨rfl, rfl⟩⟩
  | token :: rest =>
    by_cases heq : token.kind = kind
    · exact .of_ok (expect_cons heq cause _) (expect_cons heq cause _)
        (.cons (heq ▸ hkind) (.refl _))
    · exact .of_error (expect_of_ne heq _ _) (expect_of_ne heq _ _) ⟨rest, .refl _, .refl _⟩

theorem expectSymbol_advances {symbol : Kind} (hsymbol : symbol ∉ stops) (site : Site)
    (h : Ready stops behind size size' tokens) :
    Advances stops behind (expectSymbol symbol site) (expectSymbol symbol site) tokens :=
  expect_advances hsymbol _ h

/-- The symbol at the end of a construct. -/
theorem expectSymbol_last_advances {symbol : Kind} (hsymbol : symbol ∉ stops) (site : Site)
    (f : Token → α) (h : Ready stops behind size size' tokens) :
    Advances stops behind (expectSymbol symbol site >>= fun token ↦ pure (f token))
      (expectSymbol symbol site >>= fun token ↦ pure (f token)) tokens :=
  .bind (expectSymbol_advances hsymbol site h) fun _ _ _ ↦ .pure (.refl _)

/-- The semicolon at the end of a statement. -/
theorem semicolon_closes (site : Site) (a : α) (h : Ready stops behind size size' tokens) :
    Closes stops behind (expectSymbol .semicolon site >>= fun _ ↦ pure a)
      (expectSymbol .semicolon site >>= fun _ ↦ pure a) tokens := by
  have hexpect : Abreast (· ++ behind)
      (fun token rest ↦ tokens = token :: rest ∧ token.kind = .semicolon)
      (fun refusal rest ↦ Located stops tokens rest refusal)
      (expectSymbol .semicolon site) (expectSymbol .semicolon site) tokens := by
    match tokens with
    | [] =>
      obtain rfl := h.eq_nil
      exact .of_error rfl rfl ⟨.refl _, fun _ ↦ ⟨rfl, rfl⟩⟩
    | token :: rest =>
      by_cases heq : token.kind = .semicolon
      · exact .of_ok (expectSymbol_cons heq site _) (expectSymbol_cons heq site _) ⟨rfl, heq⟩
      · exact .of_error (expect_of_ne heq _ _) (expect_of_ne heq _ _) ⟨rest, .refl _, .refl _⟩
  exact hexpect.bind fun semicolon rest ⟨heq, hkind⟩ ↦ .pure ⟨semicolon, hkind, heq ▸ .refl _⟩

/-- Two ways of going on, the first after a token of the kind `kind`. -/
theorem ite_accepts_advances {kind : Kind} (hkind : kind ∉ stops) {yes yes' no no' : Parser α}
    (h : Ready stops behind size size' tokens)
    (hyes : ∀ token rest, tokens = token :: rest → token.kind = kind →
      Advances stops behind yes yes' rest)
    (hno : Advances stops behind no no' tokens) :
    Advances stops behind (accepts kind >>= fun answer ↦ if answer = true then yes else no)
      (accepts kind >>= fun answer ↦ if answer = true then yes' else no') tokens := by
  by_cases hnext : nextKind? tokens = some kind
  · obtain ⟨token, rest, rfl, heq⟩ := exists_cons_of_nextKind? hnext
    exact .of_steps (ite_of_true (accepts_cons heq rest) _ _)
      (ite_of_true (accepts_cons heq (rest ++ behind)) _ _)
      ((hyes token rest rfl heq).after (.cons (heq ▸ hkind) (.refl _)))
  · exact .of_steps (ite_of_false (accepts_of_ne hnext) _ _)
      (ite_of_false (accepts_of_ne (h.nextKind?_append ▸ hnext)) _ _) hno

/-- Two ways of going on, which one depends on the next token. -/
theorem ite_sees_advances (kind : Kind) {yes yes' no no' : Parser α}
    (h : Ready stops behind size size' tokens) (hyes : Advances stops behind yes yes' tokens)
    (hno : Advances stops behind no no' tokens) :
    Advances stops behind (sees kind >>= fun answer ↦ if answer = true then yes else no)
      (sees kind >>= fun answer ↦ if answer = true then yes' else no') tokens := by
  have hsees : sees kind (tokens ++ behind) =
      .ok (decide (nextKind? tokens = some kind)) (tokens ++ behind) := by
    rw [sees_eq, h.nextKind?_append]
  refine .of_steps (bind_of_ok (sees_eq kind tokens) _) (bind_of_ok hsees _) ?_
  exact .ite (fun _ ↦ hyes) fun _ ↦ hno

end

/-! ## Expressions -/

section

variable {α : Type} {stops : List Kind} {behind tokens : List Token} {size size' : Nat}
  (hstops : ∀ kind ∈ stops, kind = .eof ∨ kind = .semicolon)
include hstops

theorem not_mem_stops {kind : Kind} (hkind : kind ≠ .eof ∧ kind ≠ .semicolon) : kind ∉ stops :=
  fun hmem ↦ (hstops kind hmem).elim hkind.1 hkind.2

omit hstops in
theorem furtherItems_nil (item : Parser α) (count : Nat) (items : List α) :
    furtherItems item count items [] = .ok items.reverse [] := by
  cases count <;> rfl

/-- The bounds are compared with the tokens that are left, and each round takes a comma. -/
theorem furtherItems_advances {item item' : Parser α}
    (hitem : Alongside stops behind size size' item item')
    {count count' : Nat} (items : List α) (h : Ready stops behind size size' tokens)
    (hcount : Ready stops behind count count' tokens) :
    Advances stops behind (furtherItems item count items) (furtherItems item' count' items)
      tokens := by
  induction count generalizing count' items tokens with
  | zero =>
    obtain rfl := List.eq_nil_of_length_eq_zero (Nat.le_zero.mp hcount.fits)
    obtain rfl := h.eq_nil
    exact .of_ok rfl (furtherItems_nil item' count' items) (.refl _)
  | succ count ih =>
    match tokens, count' with
    | [], count' =>
      obtain rfl := h.eq_nil
      exact .of_ok rfl (furtherItems_nil item' count' items) (.refl _)
    | token :: rest, 0 => exact absurd hcount.fits' (by simp)
    | token :: rest, count' + 1 =>
      have hcomma : .comma ∉ stops := not_mem_stops hstops (by decide)
      refine ite_accepts_advances hcomma h ?_ (.pure (.refl _))
      rintro _ _ ⟨⟩ hkind
      have htook : Took stops (token :: rest) rest := .cons (hkind ▸ hcomma) (.refl _)
      refine .bind (hitem rest (h.took htook)) fun a after hafter ↦ ?_
      exact ih (a :: items) ((h.took htook).took hafter)
        ((hcount.tail (hkind ▸ hcomma)).took hafter)

/-- Lists are read alike if their items are. -/
theorem commaSeparated_advances {item item' : Parser α}
    (hitem : Alongside stops behind size size' item item')
    (h : Ready stops behind size size' tokens) :
    Advances stops behind (commaSeparated size item) (commaSeparated size' item') tokens := by
  refine ite_sees_advances .rightParen h (.pure (.refl _)) ?_
  exact .bind (hitem tokens h) fun a rest htook ↦
    furtherItems_advances hstops hitem [a] (h.took htook) (h.took htook)

omit hstops in
/-- What opens an expression and is neither a literal nor a name nor a parenthesis is a sign. -/
theorem mem_signs_of_opens {token : Token} (hopens : opensExpression token.kind = true)
    (hliteral : literal? token = none) (hname : token.kind ≠ .identifier)
    (hparen : token.kind ≠ .leftParen) : token.kind ∈ signs := by
  unfold opensExpression at hopens
  unfold literal? at hliteral
  split at hopens <;> simp_all [signs]

/-- Operands are read alike if the expressions inside are. -/
theorem operand_advances {nested nested' : Precedence → Parser Expr}
    (hnested : ∀ least, Alongside stops behind size size' (nested least) (nested' least))
    (h : Ready stops behind size size' tokens) :
    Advances stops behind (operand nested) (operand nested') tokens := by
  match tokens with
  | [] =>
    obtain rfl := h.eq_nil
    exact .of_error rfl rfl ⟨.refl _, fun _ ↦ ⟨rfl, rfl⟩⟩
  | token :: rest =>
    cases hopens : opensExpression token.kind with
    | false =>
      exact .of_error (operand_of_not_opens hopens nested rest)
        (operand_of_not_opens hopens nested' _) ⟨rest, .refl _, .refl _⟩
    | true =>
      have hkind : token.kind ∉ stops := by
        apply not_mem_stops hstops
        constructor <;> intro heq <;> rw [heq] at hopens <;> cases hopens
      have htook : Took stops (token :: rest) rest := .cons hkind (.refl _)
      have hrest := h.took htook
      cases hliteral : literal? token with
      | some value =>
        exact .of_ok (operand_of_literal? hliteral nested rest)
          (operand_of_literal? hliteral nested' _) htook
      | none =>
        by_cases hname : token.kind = .identifier
        · exact .of_ok (operand_of_identifier hname nested rest)
            (operand_of_identifier hname nested' _) htook
        by_cases hparen : token.kind = .leftParen
        · refine .of_steps (operand_of_leftParen hparen nested rest)
            (operand_of_leftParen hparen nested' _) (Advances.after ?_ htook)
          refine .bind (hnested .none rest hrest) fun inner mid hmid ↦ ?_
          exact expectSymbol_last_advances (not_mem_stops hstops (by decide)) _ _ (hrest.took hmid)
        · have hsign := mem_signs_of_opens hopens hliteral hname hparen
          exact .of_steps (operand_of_mem_signs hsign nested rest)
            (operand_of_mem_signs hsign nested' _)
            (Advances.after (.map (hnested .unary rest hrest) _) htook)

/-- Calls are read alike if their arguments are. -/
theorem callOf_advances {argument argument' : Parser Expr}
    (hargument : Alongside stops behind size size' argument argument')
    (callee : Expr) (h : Ready stops behind size size' tokens) :
    Advances stops behind (callOf size argument callee) (callOf size' argument' callee) tokens := by
  refine .bind (commaSeparated_advances hstops hargument h) fun _ rest htook ↦ ?_
  exact expectSymbol_last_advances (not_mem_stops hstops (by decide)) _ _ (h.took htook)

/-- A fault of the operator itself is located before what has been taken. -/
theorem extended_advances {nested nested' : Precedence → Parser Expr}
    {argument argument' : Parser Expr}
    (hnested : ∀ least, Alongside stops behind size size' (nested least) (nested' least))
    (hargument : Alongside stops behind size size' argument argument')
    {operator : Token} (hkind : operator.kind ∉ stops) (own : Precedence) (left : Expr)
    (h : Ready stops behind size size' tokens) :
    Abreast (· ++ behind) (fun _ rest ↦ Took stops tokens rest)
      (fun refusal rest ↦ Located stops (operator :: tokens) rest refusal)
      (extended size nested argument operator own left)
      (extended size' nested' argument' operator own left) tokens := by
  have hbefore : Took stops (operator :: tokens) tokens := .cons hkind (.refl _)
  refine .ite (fun _ ↦ ?_) fun _ ↦ ?_
  · exact (callOf_advances hstops hargument left h).imp (fun _ _ htook ↦ htook) fun _ _ hlocated ↦
      hbefore.located hlocated
  · have hright := (hnested (operator.kind.rightBound own) tokens h).imp (fun _ _ htook ↦ htook)
      fun _ _ hlocated ↦ hbefore.located hlocated
    refine Abreast.bind hright fun right rest htook ↦ ?_
    unfold combine
    split
    · split
      · exact .pure htook
      · exact .throw ⟨tokens, .refl _, hbefore.trans htook⟩
    · exact .pure htook
    · exact .pure htook
    · exact .pure htook

omit hstops in
/-- An operator that binds tightly enough is taken and extends what stands to its left. -/
theorem climb_of_lt {nested : Precedence → Parser Expr} {argument : Parser Expr} {operator : Token}
    {least own : Precedence} (hown : operator.kind.precedence? = some own)
    (hlt : least.level < own.level) (count : Nat) (left : Expr) (rest : List Token) :
    climb size nested argument least (count + 1) left (operator :: rest) =
      (extended size nested argument operator own left >>=
        climb size nested argument least count) rest := by
  simp only [climb_cons, hown, if_pos hlt]

omit hstops in
/-- Where climbing does not stop, an operator comes next. -/
theorem exists_operator {least : Precedence} (h : ¬Stops least tokens) :
    ∃ operator rest own, tokens = operator :: rest ∧ operator.kind.precedence? = some own ∧
      least.level < own.level := by
  match tokens with
  | [] => exact absurd (stops_nil least) h
  | operator :: rest =>
    cases hown : operator.kind.precedence? with
    | none => exact absurd (stops_of_none hown least rest) h
    | some own =>
      have hlt : least.level < own.level :=
        Nat.lt_of_not_le fun hle ↦ h (stops_cons hown hle rest)
      exact ⟨operator, rest, own, rfl, hown, hlt⟩

/-- Operators are read alike if their operands are. -/
theorem climb_advances {nested nested' : Precedence → Parser Expr}
    {argument argument' : Parser Expr}
    (hnested : ∀ least, Alongside stops behind size size' (nested least) (nested' least))
    (hargument : Alongside stops behind size size' argument argument')
    (least : Precedence) {count count' : Nat} (left : Expr)
    (h : Ready stops behind size size' tokens) (hcount : Ready stops behind count count' tokens) :
    Advances stops behind (climb size nested argument least count left)
      (climb size' nested' argument' least count' left) tokens := by
  induction count generalizing count' left tokens with
  | zero =>
    obtain rfl := List.eq_nil_of_length_eq_zero (Nat.le_zero.mp hcount.fits)
    obtain rfl := h.eq_nil
    exact .of_ok rfl (climb_of_stops (stops_nil least) count' left) (.refl _)
  | succ count ih =>
    -- Where an operator is left, both bounds admit a further round, and the operator itself is
    -- where a fault of that round may lie.
    by_cases hstop : Stops least tokens
    · have hstop' : Stops least (tokens ++ behind) := by
        rw [Stops, h.nextKind?_append]
        exact hstop
      exact .of_ok (climb_of_stops hstop _ left) (climb_of_stops hstop' _ left) (.refl _)
    obtain ⟨operator, rest, own, rfl, hown, hlt⟩ := exists_operator hstop
    match count' with
    | 0 => exact absurd hcount.fits' (by simp)
    | count' + 1 =>
      have hkind : operator.kind ∉ stops := by
        apply not_mem_stops hstops
        constructor <;> intro heq <;> rw [heq] at hown <;> cases hown
      have htook : Took stops (operator :: rest) rest := .cons hkind (.refl _)
      refine .of_steps (climb_of_lt hown hlt count left rest)
        (climb_of_lt hown hlt count' left (rest ++ behind)) ?_
      refine Abreast.bind (extended_advances hstops hnested hargument hkind own left
        (h.took htook)) fun tree after hafter ↦ ?_
      exact (ih tree ((h.took htook).took hafter) ((hcount.tail hkind).took hafter)).after
        (htook.trans hafter)

/-- Expressions are read alike, whatever is appended. -/
theorem expression_advances (levels : Nat) (least : Precedence) :
    Alongside stops behind size size' (expression size levels least)
      (expression size' levels least) := by
  induction levels using Nat.strongRecOn generalizing least with
  | _ levels ih =>
    intro tokens h
    match levels with
    | 0 | 1 | 2 => exact .throw ⟨.refl _, fun hcause ↦ absurd rfl hcause⟩
    | levels + 3 =>
      have hoperand := operand_advances hstops (ih (levels + 1) (by omega)) h
      refine .bind hoperand fun left rest htook ↦ ?_
      exact climb_advances hstops (ih (levels + 2) (by omega)) (ih levels (by omega) .none) least
        left (h.took htook) (h.took htook)

end

/-! ## Parts of statements -/

section

variable {α : Type} {stops : List Kind} {behind tokens : List Token} {size size' : Nat}

theorem after_advances {kind : Kind} (hkind : kind ∉ stops) {p q : Parser α}
    (hp : Alongside stops behind size size' p q)
    (h : Ready stops behind size size' tokens) :
    Advances stops behind (after kind p) (after kind q) tokens := by
  refine ite_accepts_advances hkind h ?_ (.pure (.refl _))
  rintro token rest rfl rfl
  exact .map (hp rest (h.took (.cons hkind (.refl _)))) _

theorem unlessAt_advances (kind : Kind) {p q : Parser α} (hp : Advances stops behind p q tokens)
    (h : Ready stops behind size size' tokens) :
    Advances stops behind (unlessAt kind p) (unlessAt kind q) tokens :=
  ite_sees_advances kind h (.pure (.refl _)) (.map hp _)

end

section

variable {stops : List Kind} {behind tokens : List Token} {size size' : Nat}
  (hstops : ∀ kind ∈ stops, kind = .eof ∨ kind = .semicolon)
  {expr expr' : Parser Expr}
  (hexpr : Alongside stops behind size size' expr expr')
  (h : Ready stops behind size size' tokens)

section

include hexpr h

theorem expressionStatement_closes :
    Closes stops behind (expressionStatement expr) (expressionStatement expr') tokens :=
  (hexpr tokens h).closes fun _ _ htook ↦ semicolon_closes _ _ (h.took htook)

theorem printStatement_closes :
    Closes stops behind (printStatement expr) (printStatement expr') tokens :=
  (hexpr tokens h).closes fun _ _ htook ↦ semicolon_closes _ _ (h.took htook)

/-- A return statement that is out of place is a fault at its keyword. -/
theorem returnStatement_closes (inside : Bool) {keyword : Token} (hkind : keyword.kind ∉ stops) :
    Abreast (· ++ behind)
      (fun _ rest ↦ ∃ semicolon : Token, semicolon.kind = .semicolon ∧
        Took stops tokens (semicolon :: rest))
      (fun refusal rest ↦ Located stops (keyword :: tokens) rest refusal)
      (returnStatement inside expr keyword) (returnStatement inside expr' keyword) tokens := by
  have hbefore : Took stops (keyword :: tokens) tokens := .cons hkind (.refl _)
  refine .ite (fun _ ↦ ?_) fun _ ↦ .throw ⟨tokens, .refl _, hbefore⟩
  have hvalue := unlessAt_advances .semicolon (hexpr tokens h) h
  have hcloses := hvalue.closes fun value rest htook ↦
    semicolon_closes .returnValue (Stmt.ret keyword value) (h.took htook)
  exact hcloses.imp (fun _ _ hgood ↦ hgood) fun _ _ hlocated ↦ hbefore.located hlocated

end

section

include hstops hexpr h

/-- A declaration of a variable ends with its semicolon. -/
theorem variableDeclaration_closes :
    Closes stops behind (variableDeclaration expr) (variableDeclaration expr') tokens := by
  refine Advances.closes (expect_advances (not_mem_stops hstops (by decide)) _ h)
    fun name mid hmid ↦ ?_
  have hready := h.took hmid
  refine Advances.closes (after_advances (not_mem_stops hstops (by decide)) hexpr hready)
    fun initial rest hrest ↦ ?_
  exact semicolon_closes _ _ (hready.took hrest)

theorem conditionIn_advances (before after : Site) :
    Advances stops behind (conditionIn before after expr) (conditionIn before after expr')
      tokens := by
  refine .bind (expectSymbol_advances (not_mem_stops hstops (by decide)) _ h) fun _ mid hmid ↦ ?_
  have hready := h.took hmid
  refine .bind (hexpr mid hready) fun condition rest hrest ↦ ?_
  exact expectSymbol_last_advances (not_mem_stops hstops (by decide)) _ _ (hready.took hrest)

theorem firstClause_advances (hsemicolon : .semicolon ∉ stops) :
    Advances stops behind (firstClause expr) (firstClause expr') tokens := by
  refine ite_accepts_advances hsemicolon h (fun _ _ _ _ ↦ .pure (.refl _)) ?_
  have hvar : .kwVar ∉ stops := not_mem_stops hstops (by decide)
  refine ite_accepts_advances hvar h ?_ ?_
  · rintro token rest rfl hkind
    have hready := h.took (.cons (hkind ▸ hvar) (.refl _))
    exact .map ((variableDeclaration_closes hstops hexpr hready).advances hsemicolon) _
  · exact .map ((expressionStatement_closes hexpr h).advances hsemicolon) _

/-- The clauses of a loop are read alike where a semicolon does not end what may be read. -/
theorem forClauses_advances (hsemicolon : .semicolon ∉ stops) :
    Advances stops behind (forClauses expr) (forClauses expr') tokens := by
  refine .bind (expectSymbol_advances (not_mem_stops hstops (by decide)) _ h) fun _ s₁ h₁ ↦ ?_
  replace h₁ := h.took h₁
  refine .bind (firstClause_advances hstops hexpr h₁ hsemicolon) fun _ s₂ h₂ ↦ ?_
  replace h₂ := h₁.took h₂
  refine .bind (unlessAt_advances .semicolon (hexpr s₂ h₂) h₂) fun _ s₃ h₃ ↦ ?_
  replace h₃ := h₂.took h₃
  refine .bind (expectSymbol_advances hsemicolon _ h₃) fun _ s₄ h₄ ↦ ?_
  replace h₄ := h₃.took h₄
  refine .bind (unlessAt_advances .rightParen (hexpr s₄ h₄) h₄) fun _ s₅ h₅ ↦ ?_
  exact expectSymbol_last_advances (not_mem_stops hstops (by decide)) _ _ (h₄.took h₅)

end

section

include hstops h

theorem functionHead_advances :
    Advances stops behind (functionHead size) (functionHead size') tokens := by
  refine .bind (expect_advances (not_mem_stops hstops (by decide)) _ h) fun _ s₁ h₁ ↦ ?_
  replace h₁ := h.took h₁
  refine .bind (expectSymbol_advances (not_mem_stops hstops (by decide)) _ h₁) fun _ s₂ h₂ ↦ ?_
  replace h₂ := h₁.took h₂
  refine .bind (commaSeparated_advances hstops (fun _ h ↦ expect_advances
    (not_mem_stops hstops (by decide)) _ h) h₂) fun _ s₃ h₃ ↦ ?_
  replace h₃ := h₂.took h₃
  refine .bind (expectSymbol_advances (not_mem_stops hstops (by decide)) _ h₃) fun _ s₄ h₄ ↦ ?_
  exact expectSymbol_last_advances (not_mem_stops hstops (by decide)) _ _ (h₃.took h₄)

end

end

end Lox.Parser
