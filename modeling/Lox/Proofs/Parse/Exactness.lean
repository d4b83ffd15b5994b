import Lox.Proofs.Parse.Levels
import Lox.Proofs.Parse.StmtCompleteness
import Lox.Proofs.Parse.StmtSoundness

/-!
# Parsing accepts exactly the programs

Parsing finds no fault in a token list if and only if the grammar derives it, and then the trees are
those of the derivation.  Since parsing is a function, no token list has derivations with different
trees.  The number of levels does not matter as long as it is not exhausted: more levels do not
change the answer, and with enough of them every program is read.
-/

namespace Lox.Parser

open Stateful Grammar

/-! ## More levels -/

def Exhausted (parsed : Parsed) : Prop :=
  ∃ rest, parsed.stopped = some (.tooDeep, rest)

/-- With more levels a program is read alike, unless levels were exhausted. -/
theorem program_deepens {declaration declaration' : DeclParser (Option Stmt)}
    (h : DeepensDeclarations declaration declaration') (count : Nat) (body : List Stmt)
    (progress : Progress) :
    Exhausted (program declaration count body progress) ∨
      program declaration' count body progress = program declaration count body progress := by
  induction count generalizing body progress with
  | zero => exact .inr rfl
  | succ count ih =>
    unfold program
    split
    · exact .inr rfl
    · rcases h progress with ⟨cause, after, hlost, rfl⟩ | heq
      · exact .inl ⟨after.rest, by rw [hlost]⟩
      · rw [heq]
        split
        · exact ih _ _
        · exact ih _ _
        · exact .inr rfl

/-- With more levels a token list is parsed as before. -/
theorem parse_deepens {levels levels' : Nat} (hle : levels ≤ levels') (tokens : List Token) :
    Exhausted (parse levels tokens) ∨ parse levels' tokens = parse levels tokens :=
  program_deepens (declaration_statement_deepens tokens.length hle false).1 _ _ _

/-- A program is parsed without a fault unless the levels are exhausted. -/
theorem parse_eq_of_program {levels : Nat} {tokens : List Token} {trees : List Stmt}
    (h : Program tokens trees) (hlevels : ¬Exhausted (parse levels tokens)) :
    parse levels tokens = ⟨trees, [], none⟩ := by
  have hle : levels ≤ levels + 3 * tokens.length := Nat.le_add_right _ _
  rcases parse_deepens hle tokens with hexhausted | heq
  · exact absurd hexhausted hlevels
  · rw [← heq]
    exact parse_of_program h (Nat.le_add_left _ _)

/-- No token list has derivations with different trees. -/
theorem program_unique {tokens : List Token} {trees trees' : List Stmt} (h : Program tokens trees)
    (h' : Program tokens trees') : trees = trees' := by
  have hparse := parse_of_program h (Nat.le_refl _)
  rw [parse_of_program h' (Nat.le_refl _)] at hparse
  exact (congrArg Parsed.statements hparse).symm

/-! ## Faults at the end -/

/-- Faults that were found stay found. -/
theorem program_grows {declaration : DeclParser (Option Stmt)} {good : Option Stmt → Prop}
    {stop : Interruption → Prop}
    (h : ∀ errors, Maintains (fun progress ↦ errors <:+ progress.errors) good stop declaration)
    (count : Nat) (body : List Stmt) (progress : Progress) :
    progress.errors.length ≤ (program declaration count body progress).errors.length := by
  induction count generalizing body progress with
  | zero => simp [program]
  | succ count ih =>
    unfold program
    split
    · simp
    · have hend := h progress.errors progress (List.suffix_refl _)
      split
      · rename_i hread
        rw [hread] at hend
        exact Nat.le_trans hend.1.length_le (ih _ _)
      · rename_i hread
        rw [hread] at hend
        exact Nat.le_trans hend.1.length_le (ih _ _)
      · rename_i hread
        rw [hread] at hend
        simpa using hend.1.length_le

/-- What is read without adding a fault, up to the mark of the end, is a sequence of
declarations. -/
theorem program_derives {size levels count : Nat} {body : List Stmt} {tokens : List Token}
    {errors : List SyntaxError} (hsize : tokens.length ≤ size) (hcount : tokens.length ≤ count)
    (hend : HasEnd tokens)
    (hstopped : (program (declaration size levels false) count body ⟨tokens, errors⟩).stopped = none)
    (herrors : (program (declaration size levels false) count body ⟨tokens, errors⟩).errors.length ≤
      errors.length) :
    ∃ taken mark rest trees, tokens = taken ++ mark :: rest ∧ mark.kind = .eof ∧
      (program (declaration size levels false) count body ⟨tokens, errors⟩).statements =
        body.reverse ++ trees ∧ Declarations false taken trees := by
  have hgrows := program_grows fun errors ↦
    (declaration_statement_maintains (growing errors) size levels false).1
  have hlasting := (declaration_statement_maintains hasEnd_lasting size levels false).1
  induction count generalizing body tokens with
  | zero =>
    obtain rfl := List.eq_nil_of_length_eq_zero (Nat.le_zero.mp hcount)
    exact absurd hend not_hasEnd_nil
  | succ count ih =>
    unfold program at hstopped herrors ⊢
    split at hstopped
    · rename_i hatEnd
      obtain ⟨mark, rest, rfl⟩ : ∃ mark rest, tokens = mark :: rest :=
        List.exists_cons_of_ne_nil fun hnil ↦ not_hasEnd_nil (hnil ▸ hend)
      exact ⟨[], mark, rest, [], rfl, of_decide_eq_true hatEnd, by simp [hatEnd], .nil⟩
    · rename_i hgo
      rw [if_neg hgo] at herrors ⊢
      cases hread : declaration size levels false ⟨tokens, errors⟩ with
      | error cause after =>
        rw [hread] at hstopped
        cases hstopped
      | ok result after =>
        obtain ⟨mid, errors'⟩ := after
        have hsuffix := declaration_grows size levels false _ _ _ hread
        obtain rfl : errors = errors' := by
          apply hsuffix.eq_of_length_le
          rw [hread] at herrors
          cases result with
          | none => exact Nat.le_trans (hgrows _ _ _) herrors
          | some tree => exact Nat.le_trans (hgrows _ _ _) herrors
        obtain ⟨tree, taken, rfl, rfl, hderived⟩ :=
          (declaration_statement_reads size levels false).1 _ _ _ _ hsize hread
        have hmid : HasEnd mid := (hlasting.ok hend hread).1
        have hpos := hderived.begins.length_pos
        rw [List.length_append] at hsize hcount
        rw [hread] at hstopped herrors
        obtain ⟨others, mark, rest, trees, rfl, hmark, hstatements, hothers⟩ :=
          ih (Nat.le_trans (Nat.le_add_left _ _) hsize) (by omega : mid.length ≤ count) hmid hstopped
            herrors
        refine ⟨taken ++ others, mark, rest, tree :: trees, by simp, hmark, ?_, .cons hderived hothers⟩
        simpa using hstatements

/-! ## Programs -/

def EndsOnce (tokens : List Token) : Prop :=
  ∃ before mark, tokens = before ++ [mark] ∧ mark.kind = .eof ∧ ∀ token ∈ before, token.kind ≠ .eof

theorem EndsOnce.hasEnd {tokens : List Token} (h : EndsOnce tokens) : HasEnd tokens := by
  obtain ⟨before, mark, rfl, hmark, -⟩ := h
  exact ⟨mark, by simp, hmark⟩

/-- The only mark of the end has nothing behind it. -/
theorem EndsOnce.eq_nil {before rest : List Token} {mark : Token}
    (h : EndsOnce (before ++ mark :: rest)) (hmark : mark.kind = .eof) : rest = [] := by
  obtain ⟨before', mark', heq, -, hbefore⟩ := h
  rcases List.eq_nil_or_concat rest with rfl | ⟨others, last, rfl⟩
  · rfl
  · have heq' : (before ++ mark :: others) ++ [last] = before' ++ [mark'] := by simpa using heq
    have hbefore' : before ++ mark :: others = before' := List.append_inj_left' heq' rfl
    exact absurd hmark (hbefore mark (by simp [← hbefore']))

/-- The tokens of a program in which no fault was found are derived by the grammar. -/
theorem program_of_parse {levels : Nat} {tokens : List Token} (hend : EndsOnce tokens)
    (hstopped : (parse levels tokens).stopped = none) (herrors : (parse levels tokens).errors = []) :
    Program tokens (parse levels tokens).statements := by
  obtain ⟨taken, mark, rest, trees, rfl, hmark, hstatements, hderived⟩ :=
    program_derives (Nat.le_refl _) (Nat.le_refl _) hend.hasEnd hstopped
      (Nat.le_of_eq (congrArg List.length herrors))
  obtain rfl := hend.eq_nil hmark
  have htrees : (parse levels (taken ++ [mark])).statements = trees := hstatements
  rw [htrees]
  exact .intro hderived hmark

/-- Parsing accepts exactly the programs.  Of tokens whose end is marked once and there, and unless
the levels are exhausted, parsing reaches the end; it finds no fault and returns given trees if and
only if the grammar derives the tokens with these trees, and no other trees can be derived. -/
theorem parse_accepts_iff_program {levels : Nat} {tokens : List Token} (hend : EndsOnce tokens)
    (hlevels : ¬Exhausted (parse levels tokens)) :
    (parse levels tokens).stopped = none ∧
      (∀ trees, ((parse levels tokens).errors = [] ∧ (parse levels tokens).statements = trees) ↔
        Program tokens trees) ∧
      ∀ trees trees', Program tokens trees → Program tokens trees' → trees = trees' := by
  have hstopped : (parse levels tokens).stopped = none := by
    cases hcause : (parse levels tokens).stopped with
    | none => rfl
    | some reason =>
      obtain ⟨cause, rest⟩ := reason
      obtain ⟨rfl, -⟩ := (parse_safe hend.hasEnd levels).2 cause rest hcause
      exact absurd ⟨rest, hcause⟩ hlevels
  refine ⟨hstopped, fun trees ↦ ⟨?_, fun h ↦ ?_⟩, fun _ _ ↦ program_unique⟩
  · rintro ⟨herrors, rfl⟩
    exact program_of_parse hend hstopped herrors
  · rw [parse_eq_of_program h hlevels]
    exact ⟨rfl, rfl⟩

/-- `if (a) if (b) c = d; else ;` has one tree, in which `else` belongs to the second `if`. -/
theorem nested_branches_parsed :
    let name (lexeme : String) : Token := ⟨.identifier, lexeme, .nil, 1, 0⟩
    let sign (kind : Kind) : Token := ⟨kind, kind.mark, .nil, 1, 0⟩
    let tokens := [sign .kwIf, sign .leftParen, name "a", sign .rightParen, sign .kwIf,
      sign .leftParen, name "b", sign .rightParen, name "c", sign .equal, name "d", sign .semicolon,
      sign .kwElse, sign .semicolon, sign .eof]
    let inner := Stmt.branch (.var (name "b")) (.expression (.assign (name "c") (.var (name "d"))))
      (some .empty)
    EndsOnce tokens ∧ ¬Exhausted (parse 20 tokens) ∧
      ∀ trees, Program tokens trees ↔ trees = [.branch (.var (name "a")) inner none] := by
  intro name sign tokens inner
  have hend : EndsOnce tokens := ⟨tokens.dropLast, sign .eof, rfl, rfl, by decide⟩
  have hparse : parse 20 tokens = ⟨[.branch (.var (name "a")) inner none], [], none⟩ := rfl
  have hlevels : ¬Exhausted (parse 20 tokens) := by
    rintro ⟨rest, hstopped⟩
    rw [hparse] at hstopped
    cases hstopped
  obtain ⟨-, haccepts, -⟩ := parse_accepts_iff_program hend hlevels
  refine ⟨hend, hlevels, fun trees ↦ ?_⟩
  rw [← haccepts trees, hparse]
  simp [eq_comm]

end Lox.Parser
