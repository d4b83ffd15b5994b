import Lox.Proofs.Parse.Trail

/-!
# Resuming after a statement

A simple statement ends at its semicolon, whether it is well formed or not: what is left of a faulty
one is skipped up to there.  So it is read as if it stood alone, and the rest of the program as if
there had been nothing before.
-/

namespace Lox.Parser

open Stateful

/-- What ends a simple statement. -/
abbrev limits : List Kind := [.eof, .semicolon]

theorem eq_of_mem_limits : ∀ kind ∈ limits, kind = .eof ∨ kind = .semicolon := by
  simp

/-- Tokens up to their only semicolon that look like one statement.  There is no brace among them,
and a keyword that opens statements stands at most at the beginning, where it is none that has other
statements after it. -/
structure Simple (tokens : List Token) : Prop where
  closed : ∃ before semicolon, tokens = before ++ [semicolon] ∧ semicolon.kind = .semicolon ∧
    ∀ token ∈ before, token.kind ≠ .semicolon
  plain : ∀ token ∈ tokens, token.kind ∉ [.leftBrace, .rightBrace, .eof]
  tail : ∀ token ∈ tokens.tail, opensStatement token.kind = false
  head : ∀ token ∈ tokens.head?, opensStatement token.kind = true →
    token.kind ∈ [.kwVar, .kwFun, .kwPrint, .kwReturn, .kwClass]

/-! ## Up to the semicolon -/

theorem skippedFrom_of_semicolon {passed : Token} (h : passed.kind = .semicolon)
    (tokens : List Token) : skippedFrom passed tokens = tokens := by
  match tokens with
  | [] => rfl
  | _ :: _ => exact if_pos (.inr (.inl h))

/-- Tokens that do not open a statement are skipped up to the semicolon, and that is skipped too. -/
theorem skippedFrom_past {passed semicolon : Token} {before : List Token}
    (hpassed : passed.kind ≠ .semicolon) (hsemicolon : semicolon.kind = .semicolon)
    (hbefore : ∀ token ∈ before, token.kind ∉ limits ∧ opensStatement token.kind = false)
    (behind : List Token) : skippedFrom passed (before ++ semicolon :: behind) = behind := by
  induction before generalizing passed with
  | nil =>
    rw [List.nil_append, skippedFrom, if_neg (by simp [hpassed, hsemicolon, opensStatement])]
    exact skippedFrom_of_semicolon hsemicolon behind
  | cons token before ih =>
    obtain ⟨⟨hlimits, hopens⟩, hbefore⟩ := List.forall_mem_cons.mp hbefore
    simp only [List.mem_cons, List.not_mem_nil, or_false, not_or] at hlimits
    rw [List.cons_append, skippedFrom, if_neg (by simp [hlimits, hpassed, hopens])]
    exact ih hlimits.2 hbefore

theorem parse_of_ok {levels : Nat} {tokens : List Token} {result : Option Stmt} {after : Progress}
    (h : atEnd tokens = false)
    (hread : declaration tokens.length levels false ⟨tokens, []⟩ = .ok result after) :
    parse levels tokens =
      program (declaration tokens.length levels false) (tokens.length - 1) result.toList after := by
  match tokens with
  | token :: rest =>
    have hparse := program_of_ok h hread rest.length []
    rw [List.append_nil] at hparse
    exact hparse

theorem parse_of_error {levels : Nat} {tokens : List Token} {cause : Interruption}
    {after : Progress} (h : atEnd tokens = false)
    (hread : declaration tokens.length levels false ⟨tokens, []⟩ = .error cause after) :
    parse levels tokens = ⟨[], after.errors.reverse, some (cause, after.rest)⟩ := by
  match tokens with
  | token :: rest => exact program_of_error h hread rest.length []

theorem parse_of_eof {mark : Token} (h : mark.kind = .eof) (levels : Nat) :
    parse levels [mark] = ⟨[], [], none⟩ := by
  have hend : atEnd [mark] = true := decide_eq_true h
  exact if_pos hend

namespace Simple

variable {tokens rest : List Token} (h : Simple tokens)
include h

/-- The semicolon is the last token. -/
theorem eq_nil_of_took {semicolon : Token} (hkind : semicolon.kind = .semicolon)
    (htook : Took limits tokens (semicolon :: rest)) : rest = [] := by
  obtain ⟨before, last, rfl, -, hbefore⟩ := h.closed
  obtain ⟨taken, heq, -⟩ := htook
  rcases List.eq_nil_or_concat rest with rfl | ⟨others, other, rfl⟩
  · rfl
  · have hinit : before ++ [last] = (taken ++ semicolon :: others) ++ [other] := by simpa using heq
    have hbefore' : before = taken ++ semicolon :: others := List.append_inj_left' hinit rfl
    exact absurd hkind (hbefore semicolon (by simp [hbefore']))

/-- What is left before the semicolon is taken ends with it. -/
theorem exists_left (htook : Took limits tokens rest) :
    ∃ taken left semicolon, tokens = taken ++ left ++ [semicolon] ∧ rest = left ++ [semicolon] ∧
      semicolon.kind = .semicolon ∧ ∀ token ∈ left, token.kind ∉ limits := by
  have hplain := h.plain
  obtain ⟨before, semicolon, rfl, hsemicolon, hbefore⟩ := h.closed
  obtain ⟨taken, heq, htaken⟩ := htook
  rcases List.eq_nil_or_concat rest with rfl | ⟨left, last, rfl⟩
  · rw [List.append_nil] at heq
    exact absurd (by simp [hsemicolon]) (htaken semicolon (by simp [← heq]))
  · rw [List.concat_eq_append, ← List.append_assoc] at heq
    obtain ⟨rfl, hlast⟩ := List.append_inj' heq rfl
    obtain rfl : semicolon = last := by simpa using hlast
    refine ⟨taken, left, semicolon, rfl, by simp, hsemicolon, fun token hmem ↦ ?_⟩
    have hne := hbefore token (List.mem_append_right _ hmem)
    have hplain := hplain token (by simp [hmem])
    simp_all

/-- What is left of a faulty statement is skipped, and nothing else. -/
theorem skipped_append (htook : Took limits tokens rest) (behind : List Token) :
    skipped (rest ++ behind) = behind := by
  obtain ⟨taken, left, semicolon, heq, rfl, hsemicolon, hleft⟩ := h.exists_left htook
  match left with
  | [] =>
    rw [List.nil_append, List.singleton_append, skipped, if_neg (by simp [hsemicolon])]
    exact skippedFrom_of_semicolon hsemicolon behind
  | first :: left =>
    obtain ⟨hfirst, hleft⟩ := List.forall_mem_cons.mp hleft
    simp only [List.mem_cons, List.not_mem_nil, or_false, not_or] at hfirst
    have htail : ∀ token ∈ left, token ∈ tokens.tail := by
      intro token hmem
      cases taken <;> simp [heq, hmem]
    rw [List.append_assoc, List.cons_append, skipped, if_neg hfirst.1]
    exact skippedFrom_past hfirst.2 hsemicolon
      (fun token hmem ↦ ⟨hleft token hmem, h.tail token (htail token hmem)⟩) behind

end Simple

/-! ## Reading a simple statement -/

/-- `p` and `q` read the rest of a simple statement alike, up to the semicolon or to an obstacle
before it. -/
abbrev Settles (behind : List Token) (older : List SyntaxError) (tokens : List Token)
    (p q : StmtParser Stmt) (progress : Progress) : Prop :=
  Abreast (beside behind older) (fun _ after ↦ after.rest = [])
    (fun refusal after ↦ Located limits tokens after.rest refusal) p q progress

namespace Simple

variable {tokens rest behind : List Token} {errors older : List SyntaxError} {size size' : Nat}
  (h : Simple tokens)
include h

/-- What is closed by a semicolon settles a simple statement. -/
theorem lift_settles {p q : Parser Stmt} (htook : Took limits tokens rest)
    (hp : Closes limits behind p q rest) :
    Settles behind older tokens (lift p) (lift q) ⟨rest, errors⟩ := by
  refine Abreast.imp (lift_abreast hp) ?_ fun _ _ hlocated ↦ htook.located hlocated.1
  rintro _ after ⟨⟨semicolon, hkind, htook'⟩, -⟩
  exact h.eq_nil_of_took hkind (htook.trans htook')

/-- There is no brace to open the body of a function. -/
theorem functionHead_ne_ok (htook : Took limits tokens rest) (hsize : rest.length ≤ size)
    (head : Token × List Token) (after : Progress) :
    lift (functionHead size) ⟨rest, errors⟩ ≠ .ok head after := by
  intro hread
  obtain ⟨left, hread, -⟩ := lift_eq_ok hread
  obtain ⟨opening, inner, closing, brace, rfl, -, -, -, -, hbrace⟩ := functionHead_eq_ok hsize hread
  obtain ⟨taken, rfl, -⟩ := htook
  exact h.plain brace (by simp) (by simp [hbrace])

section

variable (hready : Ready limits behind size size' tokens)
  (hexpr : ∀ levels, Alongside limits behind size size' (expression size levels .none)
    (expression size' levels .none))
include hready hexpr

/-- A simple statement is read up to its semicolon, or refused before it. -/
theorem statement_settles (levels : Nat) :
    Settles behind older tokens (statement size levels false) (statement size' levels false)
      ⟨tokens, errors⟩ := by
  match levels with
  | 0 | 1 => exact .throw ⟨.refl _, fun hcause ↦ absurd rfl hcause⟩
  | levels + 2 =>
    rw [statement, statement]
    refine leader_abreast hready ?_
      (h.lift_settles (.refl _) (expressionStatement_closes (hexpr levels) hready))
    rintro token rest rfl hmem
    have hhead := h.head token rfl
    have hplain := h.plain token List.mem_cons_self
    have hbefore (hkind : token.kind ∉ limits) : Took limits (token :: rest) rest :=
      .cons hkind (.refl _)
    simp only [leaders, List.mem_cons, List.not_mem_nil, or_false] at hmem
    rcases hmem with hkind | hkind | hkind | hkind | hkind | hkind | hkind
    all_goals simp only [hkind] at hhead hplain hbefore ⊢
    -- Loops, branches and blocks have other statements inside, so they are not simple.
    · exact absurd (hhead rfl) (by decide)
    · exact absurd (hhead rfl) (by decide)
    · exact absurd hplain (by decide)
    · have htook := hbefore (by decide)
      exact h.lift_settles htook (printStatement_closes (hexpr (levels + 1)) (hready.took htook))
    · have htook := hbefore (by decide)
      have hreturn := returnStatement_closes (hexpr levels) (hready.took htook) false
        (by simp [hkind] : token.kind ∉ limits)
      refine Abreast.imp (lift_abreast hreturn) ?_ fun _ _ hlocated ↦ hlocated.1
      rintro _ after ⟨⟨semicolon, hsemicolon, htook'⟩, -⟩
      exact h.eq_nil_of_took hsemicolon (htook.trans htook')
    · exact absurd (hhead rfl) (by decide)
    · exact .pure (h.eq_nil_of_took hkind (.refl _))

theorem declared_settles {nested nested' : DeclParser (Option Stmt)} (levels : Nat) :
    Settles behind older tokens
      (declared size (expression size levels .none) nested (statement size (levels + 1) false))
      (declared size' (expression size' levels .none) nested' (statement size' (levels + 1) false))
      ⟨tokens, errors⟩ := by
  refine ite_accepts_abreast hready ?_ (ite_accepts_abreast hready ?_ ?_)
  · rintro token rest rfl hkind
    have htook : Took limits (token :: rest) rest := .cons (by simp [hkind]) (.refl _)
    exact h.lift_settles htook
      (variableDeclaration_closes eq_of_mem_limits (hexpr levels) (hready.took htook))
  · rintro token rest rfl hkind
    have htook : Took limits (token :: rest) rest := .cons (by simp [hkind]) (.refl _)
    have hrest := hready.took htook
    have hhead : Abreast (beside behind older) (fun _ _ ↦ False)
        (fun refusal after ↦ Located limits (token :: rest) after.rest refusal)
        (lift (functionHead size)) (lift (functionHead size')) ⟨rest, errors⟩ := by
      apply Abreast.of_fails _ (h.functionHead_ne_ok htook hrest.fits)
      · exact fun _ after ↦ Took limits rest after.rest ∧ after.errors = errors
      · exact Abreast.imp (lift_abreast (functionHead_advances eq_of_mem_limits hrest))
          (fun _ _ hgood ↦ hgood) fun _ _ hbad ↦ htook.located hbad.1
    -- The body of the function is never reached.
    exact Abreast.bind hhead fun _ _ hfalse ↦ hfalse.elim
  · exact statement_settles h hready hexpr _

end

/-- Either way nothing is left of a simple statement: it was read, or skipped up to its semicolon.
-/
theorem recover_settles {p q : StmtParser Stmt}
    (hp : Settles behind older tokens p q ⟨tokens, errors⟩) :
    Abreast (beside behind older) (fun _ after ↦ after.rest = []) (fun cause _ ↦ cause = .tooDeep)
      (recover p) (recover q) ⟨tokens, errors⟩ := by
  have hsame := hp.same
  have hyields := hp.yields
  cases hread : p ⟨tokens, errors⟩ with
  | ok stmt after =>
    rw [hread] at hsame hyields
    exact .of_ok (recover_of_ok hread) (recover_of_ok hsame) hyields
  | error refusal after =>
    rw [hread] at hsame hyields
    cases refusal with
    | invalid error =>
      obtain ⟨following, hbefore, hafter⟩ := hyields
      have hskip := h.skipped_append (hbefore.trans hafter)
      have hskip' : skipped after.rest = [] := by simpa using hskip []
      refine .of_ok (recover_of_invalid hread) ?_ hskip'
      rw [recover_of_invalid hsame]
      simp only [beside, hskip, hskip', List.cons_append, List.nil_append]
    | interrupted cause =>
      refine .of_error (recover_of_interrupted hread) (recover_of_interrupted hsame) ?_
      obtain ⟨htook, hnil⟩ := hyields
      refine Decidable.byContradiction fun hcause ↦ ?_
      obtain ⟨_, left, semicolon, -, heq, -, -⟩ := h.exists_left htook
      simp [(hnil hcause).2] at heq

theorem atEnd_append (behind : List Token) : atEnd (tokens ++ behind) = false := by
  have hplain (token : Token) (hmem : token ∈ tokens) : token.kind ≠ .eof :=
    fun heq ↦ h.plain token hmem (by simp [heq])
  obtain ⟨before, semicolon, rfl, -, -⟩ := h.closed
  match before with
  | [] => simpa [atEnd] using hplain semicolon (by simp)
  | first :: _ => simpa [atEnd] using hplain first (by simp)

theorem ready_append (behind : List Token) :
    Ready limits behind tokens.length (tokens ++ behind).length tokens := by
  obtain ⟨before, semicolon, rfl, hsemicolon, -⟩ := h.closed
  exact ⟨.inr ⟨semicolon, by simp, by simp [hsemicolon]⟩, Nat.le_refl _,
    Nat.le_of_eq List.length_append.symm⟩

/-- A simple statement is read as if it stood alone, and entirely, whatever follows. -/
theorem declaration_settles (levels : Nat) (behind : List Token) :
    Abreast (beside behind []) (fun _ after ↦ after.rest = []) (fun cause _ ↦ cause = .tooDeep)
      (declaration tokens.length levels false) (declaration (tokens ++ behind).length levels false)
      ⟨tokens, []⟩ := by
  match levels with
  | 0 | 1 | 2 => exact .throw rfl
  | levels + 3 =>
    rw [declaration_eq_recover, declaration_eq_recover]
    exact h.recover_settles (h.declared_settles (h.ready_append behind)
      (fun levels ↦ expression_advances eq_of_mem_limits levels .none) (levels + 1))

/-- The outcome of a program that begins with a simple statement. -/
theorem parse_append (levels : Nat) :
    (∀ rest, Exhausted (parse levels (tokens ++ rest))) ∨ ∃ trees errors, ∀ rest,
      parse levels (tokens ++ rest) = within [] errors trees (parse levels rest) := by
  have hsame (rest : List Token) : declaration (tokens ++ rest).length levels false
      ⟨tokens ++ rest, []⟩ = image (beside rest []) id id
        (declaration tokens.length levels false ⟨tokens, []⟩) :=
    (h.declaration_settles levels rest).same
  have hyields := (h.declaration_settles levels []).yields
  cases hread : declaration tokens.length levels false ⟨tokens, []⟩ with
  | ok result after =>
    rw [hread] at hyields
    refine .inr ⟨result.toList, after.errors, fun rest ↦ ?_⟩
    -- The rest is read with a larger bound than it needs, and after what has been found so far.
    have hless : rest.length ≤ (tokens ++ rest).length - 1 := by
      have := length_pos_of_atEnd_eq_false (h.atEnd_append [])
      simp only [List.length_append, List.length_nil] at this ⊢
      omega
    have hready : Ready [.eof] [] rest.length (tokens ++ rest).length rest :=
      ⟨.inl rfl, Nat.le_refl _, by simp⟩
    have hcount : Ready [.eof] [] rest.length ((tokens ++ rest).length - 1) rest :=
      ⟨.inl rfl, Nat.le_refl _, hless⟩
    have hbeside : beside rest [] after = beside [] after.errors ⟨rest, []⟩ := by
      have hrest : after.rest = [] := hyields
      simp [beside, hrest]
    have hfirst := hsame rest
    rw [hread, image, hbeside] at hfirst
    calc parse levels (tokens ++ rest)
        = program (declaration (tokens ++ rest).length levels false) ((tokens ++ rest).length - 1)
            result.toList (beside [] after.errors ⟨rest, []⟩) :=
          parse_of_ok (h.atEnd_append rest) hfirst
      _ = within [] after.errors result.toList (parse levels rest) :=
          program_within (declaration_statement_alike levels false).1 result.toList [] ⟨rest, []⟩
            hready hcount
  | error cause after =>
    rw [hread] at hyields
    obtain rfl : cause = .tooDeep := hyields
    refine .inl fun rest ↦ ⟨after.rest ++ rest, ?_⟩
    have hfirst := hsame rest
    rw [hread, image] at hfirst
    rw [parse_of_error (h.atEnd_append rest) hfirst]
    rfl

end Simple

/-- A simple statement, well formed or not, does not disturb what follows.  Unless the levels are
exhausted, the trees and the faults of a program that begins with it are those of the statement
alone, followed by those of the rest. -/
theorem parse_resumes {levels : Nat} {tokens rest : List Token} {mark : Token} (h : Simple tokens)
    (hmark : mark.kind = .eof) (hlevels : ¬Exhausted (parse levels (tokens ++ rest))) :
    (parse levels (tokens ++ rest)).statements =
        (parse levels (tokens ++ [mark])).statements ++ (parse levels rest).statements ∧
      (parse levels (tokens ++ rest)).errors =
        (parse levels (tokens ++ [mark])).errors ++ (parse levels rest).errors := by
  rcases h.parse_append levels with hexhausted | ⟨trees, errors, hparse⟩
  · exact absurd (hexhausted rest) hlevels
  rw [hparse rest, hparse [mark], parse_of_eof hmark]
  simp [within]

/-- `print (+;` is faulty and does not disturb `a = ; b;`, in which there is another fault. -/
theorem faulty_print_passed :
    let name (lexeme : String) : Token := ⟨.identifier, lexeme, .nil, 1, 0⟩
    let sign (kind : Kind) : Token := ⟨kind, kind.mark, .nil, 1, 0⟩
    let tokens := [sign .kwPrint, sign .leftParen, sign .plus, sign .semicolon]
    let rest := [name "a", sign .equal, sign .semicolon, name "b", sign .semicolon, sign .eof]
    Simple tokens ∧ ¬Exhausted (parse 20 (tokens ++ rest)) ∧
      (parse 20 (tokens ++ rest)).statements = [.expression (.var (name "b"))] ∧
      (parse 20 (tokens ++ rest)).errors =
        [⟨sign .plus, .noExpression⟩, ⟨sign .semicolon, .noExpression⟩] := by
  intro name sign tokens rest
  have hsimple : Simple tokens :=
    { closed := ⟨tokens.dropLast, sign .semicolon, rfl, rfl, by decide⟩
      plain := by decide
      tail := by decide
      head := by decide }
  have hlevels : ¬Exhausted (parse 20 (tokens ++ rest)) := nofun
  have hmark : (sign .eof).kind = .eof := rfl
  obtain ⟨hstatements, herrors⟩ := parse_resumes hsimple hmark hlevels
  exact ⟨hsimple, hlevels, hstatements.trans rfl, herrors.trans rfl⟩

end Lox.Parser
