import Lox.Proofs.Parse.Trail

/-!
# Parsing ends

Each repetition of the parser ends of itself, because every round takes a token: the bounds on them
only make this evident.  Parsing stops at the first mark of the end, which it never takes, so that
what stands behind is of no effect.  If there is no such mark, the tokens may run out.
-/

namespace Lox.Parser

open Stateful

/-! ## Rounds -/

/-- One more item after a comma, or the end of the list. -/
def itemRound {α : Type} (item : Parser α) (items : List α) : Parser (List α ⊕ List α) := do
  if ← accepts .comma then
    return .inl ((← item) :: items)
  else
    return .inr items.reverse

/-- One more operator that binds more tightly than `least`, or the end of the expression. -/
def climbRound (size : Nat) (nested : Precedence → Parser Expr) (argument : Parser Expr)
    (least : Precedence) (left : Expr) : Parser (Expr ⊕ Expr)
  | [] => .ok (.inr left) []
  | operator :: rest =>
    match operator.kind.precedence? with
    | none => .ok (.inr left) (operator :: rest)
    | some own =>
      if least.level < own.level then
        (Sum.inl <$> extended size nested argument operator own left) rest
      else
        .ok (.inr left) (operator :: rest)

/-- One more declaration, unless the block or the program is finished. -/
def declarationRound {ε : Type} (finished : List Token → Bool) (fault : Interruption → ε)
    (declaration : DeclParser (Option Stmt)) (body : List Stmt) :
    EStateM ε Progress (List Stmt ⊕ List Stmt) := fun progress ↦
  if finished progress.rest then
    .ok (.inr body.reverse) progress
  else
    match declaration progress with
    | .ok result progress => .ok (.inl (result.toList ++ body)) progress
    | .error cause progress => .error (fault cause) progress

/-- Each further item takes at least a comma, so lists end. -/
theorem furtherItems_bounds {α : Type} {item : Parser α} (h : Shortens item) :
    Bounds (itemRound item) (furtherItems item) List.length fun _ ↦ True where
  step count items tokens := by
    have hstep : furtherItems item (count + 1) items =
        itemRound item items >>= Sum.elim (furtherItems item count) pure := by
      rw [furtherItems, itemRound, bind_assoc]
      congr
      funext answer
      cases answer <;> simp
    rw [hstep]
  empty items tokens hempty := by
    obtain rfl := List.eq_nil_of_length_eq_zero hempty
    exact ⟨items.reverse, rfl, rfl⟩
  less items items' tokens rest _ hround := by
    refine ⟨?_, trivial⟩
    rcases ite_eq_ok hround with ⟨mid, haccepts, hitem⟩ | ⟨mid, -, hdone⟩
    · obtain ⟨comma, rfl, -⟩ := accepts_eq_ok_true haccepts
      obtain ⟨a, after, hread, hpure⟩ := bind_eq_ok hitem
      obtain ⟨-, rfl⟩ := pure_eq_ok hpure
      exact Nat.lt_succ_of_le (h _ _ _ hread)
    · cases (pure_eq_ok hdone).1

section

variable {size : Nat} {nested : Precedence → Parser Expr} {argument : Parser Expr}
  {least : Precedence}

theorem climbRound_of_stops {tokens : List Token} (h : Stops least tokens) (left : Expr) :
    climbRound size nested argument least left tokens = .ok (.inr left) tokens := by
  match tokens with
  | [] => rfl
  | operator :: rest =>
    simp only [climbRound]
    split
    · rfl
    · rename_i own hown
      exact if_neg (Nat.not_lt.mpr (h _ _ rfl hown))

theorem climbRound_of_lt {operator : Token} {own : Precedence}
    (hown : operator.kind.precedence? = some own) (hlt : least.level < own.level) (left : Expr)
    (rest : List Token) :
    climbRound size nested argument least left (operator :: rest) =
      (Sum.inl <$> extended size nested argument operator own left) rest := by
  simp only [climbRound, hown, if_pos hlt]

/-- Each further operator takes at least a token, so expressions end. -/
theorem climb_bounds
    (h : ∀ operator own left, Shortens (extended size nested argument operator own left)) :
    Bounds (climbRound size nested argument least) (climb size nested argument least) List.length
      fun _ ↦ True where
  step count left tokens := by
    by_cases hstop : Stops least tokens
    · rw [climb_of_stops hstop, bind_of_ok (climbRound_of_stops hstop left)]
      rfl
    · obtain ⟨operator, rest, own, rfl, hown, hlt⟩ := exists_operator hstop
      have hround : climbRound size nested argument least left (operator :: rest) = _ :=
        climbRound_of_lt hown hlt left rest
      rw [climb_of_lt hown hlt]
      cases hread : extended size nested argument operator own left rest with
      | ok tree after =>
        rw [bind_of_ok hread, bind_of_ok (hround.trans (map_of_ok hread _))]
        rfl
      | error refusal after =>
        rw [bind_of_error hread, bind_of_error (hround.trans (map_of_error hread _))]
  empty left tokens hempty := by
    obtain rfl := List.eq_nil_of_length_eq_zero hempty
    exact ⟨left, rfl, rfl⟩
  less left tree tokens rest _ hround := by
    refine ⟨?_, trivial⟩
    by_cases hstop : Stops least tokens
    · rw [climbRound_of_stops hstop] at hround
      cases hround
    · obtain ⟨operator, following, own, rfl, hown, hlt⟩ := exists_operator hstop
      rw [climbRound_of_lt hown hlt] at hround
      obtain ⟨_, hread, -⟩ := map_eq_ok hround
      exact Nat.lt_succ_of_le (h operator own left _ _ _ hread)

end

section

variable {ε : Type} {finished : List Token → Bool} {fault : Interruption → ε}
  {declaration : DeclParser (Option Stmt)} {body : List Stmt} {progress after : Progress}

theorem declarationRound_of_finished (h : finished progress.rest = true) :
    declarationRound finished fault declaration body progress = .ok (.inr body.reverse) progress :=
  if_pos h

theorem declarationRound_of_ok {result : Option Stmt} (h : finished progress.rest = false)
    (hread : declaration progress = .ok result after) :
    declarationRound finished fault declaration body progress =
      .ok (.inl (result.toList ++ body)) after := by
  rw [declarationRound, if_neg (Bool.eq_false_iff.mp h), hread]

theorem declarationRound_of_error {cause : Interruption} (h : finished progress.rest = false)
    (hread : declaration progress = .error cause after) :
    declarationRound finished fault declaration body progress = .error (fault cause) after := by
  rw [declarationRound, if_neg (Bool.eq_false_iff.mp h), hread]

/-- After a round that is not the last one, a declaration has been read. -/
theorem declarationRound_eq_inl {body' : List Stmt}
    (h : declarationRound finished fault declaration body progress = .ok (.inl body') after) :
    finished progress.rest = false ∧ ∃ result, declaration progress = .ok result after := by
  cases hfinished : finished progress.rest with
  | true =>
    rw [declarationRound_of_finished hfinished] at h
    cases h
  | false =>
    refine ⟨rfl, ?_⟩
    cases hread : declaration progress with
    | ok result mid =>
      rw [declarationRound_of_ok hfinished hread] at h
      cases h
      exact ⟨result, rfl⟩
    | error cause mid =>
      rw [declarationRound_of_error hfinished hread] at h
      cases h

/-- In a token list of bounded length a declaration takes at least one token. -/
def Consuming (size : Nat) (declaration : DeclParser (Option Stmt)) : Prop :=
  ∀ progress result after, progress.rest.length ≤ size → atEnd progress.rest = false →
    declaration progress = .ok result after → after.rest.length < progress.rest.length

/-- Each declaration takes at least a token, so blocks end. -/
theorem declarations_bounds {size : Nat} (h : Consuming size declaration) :
    Bounds (declarationRound closed .interrupted declaration) (declarations declaration)
      (·.rest.length) (·.rest.length ≤ size) where
  step count body progress := by
    cases hclosed : closed progress.rest with
    | true =>
      rw [declarations_of_closed hclosed, bind_of_ok (declarationRound_of_finished hclosed)]
      rfl
    | false =>
      cases hread : declaration progress with
      | ok result after =>
        rw [declarations_of_ok hclosed hread, bind_of_ok (declarationRound_of_ok hclosed hread)]
        rfl
      | error cause after =>
        rw [declarations_of_error hclosed hread,
          bind_of_error (declarationRound_of_error hclosed hread)]
  empty body progress hempty := by
    have hnil := List.eq_nil_of_length_eq_zero hempty
    exact ⟨body.reverse, declarationRound_of_finished (by rw [hnil]; rfl), rfl⟩
  less body body' progress after hvalid hround := by
    obtain ⟨hclosed, result, hread⟩ := declarationRound_eq_inl hround
    have hless := h progress result after hvalid (Bool.or_eq_false_iff.mp hclosed).1 hread
    exact ⟨hless, by omega⟩

end

/-- What a declaration leaves behind, apart from any comparison. -/
theorem declaration_recovers {size : Nat} (levels : Nat) (inside : Bool) {progress : Progress}
    (hsize : progress.rest.length ≤ size) (hgo : atEnd progress.rest = false) :
    Recovers [] [] (declaration size levels inside) (declaration size levels inside) progress :=
  (declaration_statement_alike levels inside).1 progress
    ⟨.inl rfl, hsize, by simpa using hsize⟩ hgo

/-- A declaration that cannot be read is skipped, and that takes at least a token too. -/
theorem declaration_consuming (size levels : Nat) (inside : Bool) :
    Consuming size (declaration size levels inside) := by
  intro progress result after hsize hgo hread
  have hyields := (declaration_recovers levels inside hsize hgo).yields
  rw [hread] at hyields
  exact hyields.2

/-! ## Programs -/

/-- `parsed` reports the end of the declarations of a program, or the obstacle to it. -/
def Reports (parsed : Parsed) : EStateM.Result Interruption Progress (List Stmt) → Prop
  | .ok trees last => parsed = ⟨trees, last.errors.reverse, none⟩
  | .error cause last =>
    parsed.errors = last.errors.reverse ∧ parsed.stopped = some (cause, last.rest)

theorem Reports.of_stopped {parsed : Parsed}
    {result : EStateM.Result Interruption Progress (List Stmt)} (h : Reports parsed result)
    {cause : Interruption} {rest : List Token} (hstopped : parsed.stopped = some (cause, rest)) :
    ∃ last : Progress, result = .error cause last ∧ last.rest = rest := by
  cases result with
  | ok trees last =>
    rw [show parsed = _ from h] at hstopped
    cases hstopped
  | error cause' last =>
    obtain ⟨-, hstopped'⟩ := h
    rw [hstopped'] at hstopped
    cases hstopped
    exact ⟨last, rfl, rfl⟩

/-- Without a bound, declarations are read up to the end or to an obstacle. -/
theorem program_loops {size count : Nat} (levels : Nat) (body : List Stmt) (progress : Progress)
    (hsize : progress.rest.length ≤ size) (hcount : progress.rest.length ≤ count) :
    ∃ result,
      Loops (declarationRound atEnd id (declaration size levels false)) body progress result ∧
      Reports (program (declaration size levels false) count body progress) result ∧
      Yields (fun _ last ↦ Trail 0 progress last ∧ atEnd last.rest = true)
        (fun cause last ↦
          Trail 0 progress last ∧ (cause ≠ .tooDeep → cause = .ranOut ∧ last.rest = []))
        result := by
  induction count generalizing body progress with
  | zero =>
    have hend : atEnd progress.rest = true := by
      rw [List.eq_nil_of_length_eq_zero (Nat.le_zero.mp hcount)]
      rfl
    exact ⟨_, .done (declarationRound_of_finished hend), rfl, .refl _, hend⟩
  | succ count ih =>
    cases hend : atEnd progress.rest with
    | true =>
      exact ⟨_, .done (declarationRound_of_finished hend), program_of_atEnd hend _ _ _, .refl _,
        hend⟩
    | false =>
      have hyields := (declaration_recovers levels false hsize hend).yields
      cases hread : declaration size levels false progress with
      | ok result after =>
        rw [hread] at hyields
        obtain ⟨htrail, hless⟩ := hyields
        obtain ⟨outcome, hloops, hreports, houtcome⟩ :=
          ih (result.toList ++ body) after (by omega) (by omega)
        rw [← program_of_ok hend hread] at hreports
        refine ⟨outcome, .again (declarationRound_of_ok hend hread) hloops, hreports, ?_⟩
        exact houtcome.imp (fun _ _ h ↦ ⟨htrail.trans h.1, h.2⟩) fun _ _ h ↦
          ⟨htrail.trans h.1, h.2⟩
      | error cause after =>
        rw [hread] at hyields
        rw [program_of_error hend hread]
        exact ⟨_, .failed (declarationRound_of_error hend hread), ⟨rfl, rfl⟩, hyields⟩

/-- With an end that is marked and levels enough, parsing comes to the end. -/
theorem stopped_eq_none {levels : Nat} {tokens : List Token} (hend : HasEnd tokens)
    (hlevels : ¬Exhausted (parse levels tokens)) : (parse levels tokens).stopped = none := by
  cases hstopped : (parse levels tokens).stopped with
  | none => rfl
  | some reason =>
    obtain ⟨cause, rest⟩ := reason
    obtain ⟨rfl, -⟩ := (parse_safe hend levels).2 cause rest hstopped
    exact absurd ⟨rest, hstopped⟩ hlevels

theorem within_eq_self {parsed : Parsed} (h : parsed.stopped = none) (behind : List Token) :
    within behind [] [] parsed = parsed := by
  obtain ⟨trees, errors, stopped⟩ := parsed
  obtain rfl : stopped = none := h
  rfl

/-- Appended to a token list with a mark of the end, tokens are not read. -/
theorem parse_append {tokens : List Token} (hend : HasEnd tokens) (levels : Nat)
    (junk : List Token) :
    parse levels (tokens ++ junk) = within junk [] [] (parse levels tokens) := by
  obtain ⟨mark, hmem, hmark⟩ := hend
  have hready : Ready [.eof] junk tokens.length (tokens ++ junk).length tokens :=
    ⟨.inr ⟨mark, hmem, by simp [hmark]⟩, Nat.le_refl _, by simp⟩
  exact program_within (declaration_statement_alike levels false).1 [] [] ⟨tokens, []⟩ hready hready

/-- The repetitions inside of a program of at most `size` tokens end of themselves: without a bound
they come to the same as with the bound `size`. -/
structure RepetitionsEnd (size : Nat) : Prop where
  parameters : ∀ params tokens, tokens.length ≤ size →
    Loops (itemRound (expect .identifier .noParameterName)) params tokens
      (furtherItems (expect .identifier .noParameterName) size params tokens)
  arguments : ∀ levels arguments tokens, tokens.length ≤ size →
    Loops (itemRound (expression size levels .none)) arguments tokens
      (furtherItems (expression size levels .none) size arguments tokens)
  operators : ∀ levels least left tokens, tokens.length ≤ size →
    Loops (climbRound size (expression size (levels + 2)) (expression size levels .none) least) left
      tokens
      (climb size (expression size (levels + 2)) (expression size levels .none) least size left
        tokens)
  blocks : ∀ levels inside body progress, progress.rest.length ≤ size →
    Loops (declarationRound closed .interrupted (declaration size levels inside)) body progress
      (declarations (declaration size levels inside) size body progress)

theorem expect_shortens {kind : Kind} (h : kind ≠ .eof) (cause : SyntaxCause) :
    Shortens (expect kind cause) :=
  .of_maintains fun bound ↦ expect_maintains (shorter_lasting bound) h cause

theorem repetitionsEnd (size : Nat) : RepetitionsEnd size where
  parameters params tokens hsize :=
    (furtherItems_bounds (expect_shortens (by decide) _)).loops params trivial hsize
  arguments levels arguments tokens hsize :=
    (furtherItems_bounds (expression_shortens size levels .none)).loops arguments trivial hsize
  operators levels least left tokens hsize :=
    (climb_bounds fun operator own left ↦ extendedBy_shortens operator own left).loops left trivial
      hsize
  blocks levels inside body progress hsize :=
    (declarations_bounds (declaration_consuming size levels inside)).loops body hsize hsize

/-- Parsing ends, whatever the tokens are, unless the levels are exhausted.  Every repetition inside
ends of itself and so does the reading of declarations, which takes no mark of the end.  If there is
such a mark, parsing is not stopped, and what stands behind is of no effect.  Otherwise it can be
stopped only because the tokens ran out where one was looked at; none is ever taken behind the last
one. -/
theorem parsing_ends {levels : Nat} {tokens : List Token}
    (hlevels : ¬Exhausted (parse levels tokens)) :
    RepetitionsEnd tokens.length ∧
      (∃ result,
        Loops (declarationRound atEnd id (declaration tokens.length levels false)) [] ⟨tokens, []⟩
          result ∧
        Reports (parse levels tokens) result ∧
        ∃ taken, tokens = taken ++ (final result).rest ∧ ∀ token ∈ taken, token.kind ≠ .eof) ∧
      (HasEnd tokens → (parse levels tokens).stopped = none ∧
        ∀ junk, parse levels (tokens ++ junk) = parse levels tokens) ∧
      ∀ cause rest, (parse levels tokens).stopped = some (cause, rest) →
        cause = .ranOut ∧ rest = [] := by
  obtain ⟨result, hloops, hreports, hyields⟩ :=
    program_loops levels [] ⟨tokens, []⟩ (Nat.le_refl tokens.length) (Nat.le_refl tokens.length)
  have htook : Took [.eof] tokens (final result).rest := by
    cases result with
    | ok trees last => exact hyields.1.took
    | error cause last => exact hyields.1.took
  refine ⟨repetitionsEnd _, ⟨result, hloops, hreports, ?_⟩, fun hend ↦ ?_, fun cause rest h ↦ ?_⟩
  · obtain ⟨taken, heq, htaken⟩ := htook
    exact ⟨taken, heq, by simpa using htaken⟩
  · have hstopped := stopped_eq_none hend hlevels
    exact ⟨hstopped, fun junk ↦ (parse_append hend levels junk).trans (within_eq_self hstopped _)⟩
  · have hcause : cause ≠ .tooDeep := by
      rintro rfl
      exact hlevels ⟨rest, h⟩
    obtain ⟨last, rfl, rfl⟩ := Reports.of_stopped hreports h
    exact hyields.2 hcause

/-- In `{ f(a, +` with a mark of the end two faults are found, whatever stands behind the mark; in
`print a` without a mark the tokens run out. -/
theorem unfinished_call_ends :
    let name (lexeme : String) : Token := ⟨.identifier, lexeme, .nil, 1, 0⟩
    let sign (kind : Kind) : Token := ⟨kind, kind.mark, .nil, 1, 0⟩
    let marked := [sign .leftBrace, name "f", sign .leftParen, name "a", sign .comma, sign .plus,
      sign .eof]
    let unmarked := [sign .kwPrint, name "a"]
    (¬Exhausted (parse 20 marked) ∧ HasEnd marked ∧
      ∀ junk, (parse 20 (marked ++ junk)).errors.length = 2) ∧
    ¬Exhausted (parse 20 unmarked) ∧ ¬HasEnd unmarked ∧ ∃ cause rest,
      (parse 20 unmarked).stopped = some (cause, rest) ∧ cause = .ranOut ∧ rest = [] := by
  intro name sign marked unmarked
  have hlevels : ¬Exhausted (parse 20 marked) := nofun
  have hlevels' : ¬Exhausted (parse 20 unmarked) := nofun
  have hend : HasEnd marked := ⟨sign .eof, by simp [marked], rfl⟩
  obtain ⟨-, -, hmarked, -⟩ := parsing_ends hlevels
  obtain ⟨-, -, -, hunmarked⟩ := parsing_ends hlevels'
  refine ⟨⟨hlevels, hend, fun junk ↦ ?_⟩, hlevels', ?_, _, _, rfl, hunmarked _ _ rfl⟩
  · rw [(hmarked hend).2 junk]
    rfl
  · rintro ⟨token, hmem, hkind⟩
    have hnone : ∀ token ∈ unmarked, token.kind ≠ .eof := by decide
    exact hnone token hmem hkind

end Lox.Parser
