import Lox.Proofs.Parse.Origin
import Lox.Proofs.Tree.Readability

/-!
# Expressions of programs are told apart by their texts

The expressions in the trees of a source are readable, since its tokens are spelled by their lexemes
and what the grammar makes of such tokens is readable.  So the text of an expression tells what it
is, up to the places of its tokens, also if the source is faulty.
-/

namespace Lox

/-! ## Parts -/

namespace Expr

theorem parts_applied {operator : Token} {operands : List Expr} {e : Expr}
    (h : applied? operator operands = some e) : e.parts = e :: partsAll operands := by
  rcases applied?_cases h with ⟨operand, rfl, rfl⟩ | ⟨left, right, rfl, rfl | rfl⟩
  · simp [parts, partsAll]
  · simp [parts, partsAll]
  · simp [parts, partsAll]

theorem readable_applied {operator : Token} {operands : List Expr} {e : Expr}
    (hoperator : operator.Spelled) (hkind : operator.kind ∈ Grammar.operatorKinds)
    (h : applied? operator operands = some e)
    (hoperands : ∀ operand ∈ operands, Readable operand.form operand) : Readable e.form e := by
  have hform : e.form = .operation := by
    rcases applied?_cases h with ⟨operand, rfl, rfl⟩ | ⟨left, right, rfl, rfl | rfl⟩
    · rfl
    · rfl
    · rfl
  rw [hform]
  exact .operation hoperator hkind h hoperands

/-- All expressions inside a readable one are readable. -/
theorem Readable.parts {form : Form} {e : Expr} (h : Readable form e) :
    ∀ part ∈ e.parts, Readable part.form part := by
  have hall {es : List Expr} (h : ∀ e ∈ es, ∀ part ∈ e.parts, Readable part.form part) :
      ∀ part ∈ partsAll es, Readable part.form part := by
    intro part hpart
    obtain ⟨e, he, hpart⟩ := mem_partsAll hpart
    exact h e he part hpart
  induction h with
  | literal hvalue => exact List.forall_mem_singleton.mpr (.literal hvalue)
  | var hname hkind => exact List.forall_mem_singleton.mpr (.var hname hkind)
  | assign hname hkind hvalue ih =>
    exact List.forall_mem_cons.mpr ⟨.assign hname hkind hvalue, ih⟩
  | operation hoperator hkind happlied hoperands ih =>
    rw [parts_applied happlied]
    exact List.forall_mem_cons.mpr ⟨readable_applied hoperator hkind happlied hoperands, hall ih⟩
  | call hcallee hparen hkind harguments ihcallee iharguments =>
    exact List.forall_mem_cons.mpr ⟨.call hcallee hparen hkind harguments,
      List.forall_mem_append.mpr ⟨ihcallee, hall iharguments⟩⟩
  | grouping hinner ih => exact List.forall_mem_cons.mpr ⟨.grouping hinner, ih⟩

end Expr

/-! ## Phrases -/

namespace Grammar

/-- All tokens but the mark of the end are spelled by their lexemes. -/
def AllSpelled (tokens : List Token) : Prop :=
  ∀ token ∈ tokens, token.kind ≠ .eof → token.Spelled

@[simp]
theorem allSpelled_cons {token : Token} {tokens : List Token} :
    AllSpelled (token :: tokens) ↔ (token.kind ≠ .eof → token.Spelled) ∧ AllSpelled tokens :=
  List.forall_mem_cons

@[simp]
theorem allSpelled_append {tokens others : List Token} :
    AllSpelled (tokens ++ others) ↔ AllSpelled tokens ∧ AllSpelled others :=
  List.forall_mem_append

theorem writable_of_literal? {token : Token} {value : Atom} (h : literal? token = some value)
    (htoken : token.kind ≠ .eof → token.Spelled) : value.Writable := by
  unfold literal? at h
  split at h
  all_goals cases h
  · trivial
  · trivial
  · trivial
  · exact (htoken (by simp [*])).writable
  · exact (htoken (by simp [*])).writable

theorem ne_eof_of_operator {kind : Kind} (h : kind ∈ operatorKinds) : kind ≠ .eof := by
  rintro rfl
  exact absurd h (by decide)

/-- A phrase of spelled tokens has a readable tree. -/
theorem Phrase.readable {level : Precedence} {tokens : List Token} {tree : Expr}
    (h : Phrase level tokens tree) (htokens : AllSpelled tokens) :
    Expr.Readable tree.form tree := by
  induction h using Phrase.rec
    (motive_2 := fun tokens arguments _ ↦ AllSpelled tokens →
      ∀ argument ∈ arguments, Expr.Readable argument.form argument) with
  | literal h => exact .literal (writable_of_literal? h (htokens _ List.mem_cons_self))
  | name hkind => exact .var (htokens _ List.mem_cons_self (by simp [hkind])) hkind
  | grouping _ _ _ ih =>
    simp only [allSpelled_cons, allSpelled_append] at htokens
    exact .grouping (ih htokens.2.1)
  | call _ _ hclosing ih =>
    simp only [allSpelled_cons, allSpelled_append] at htokens
    obtain ⟨hcallee, -, hparen, -⟩ := htokens
    exact .call (ih hcallee) (hparen (by simp [hclosing])) hclosing (List.forall_mem_nil _)
  | callWith _ _ _ hclosing ihcallee iharguments =>
    simp only [allSpelled_cons, allSpelled_append] at htokens
    obtain ⟨hcallee, -, hinside, hparen, -⟩ := htokens
    exact .call (ihcallee hcallee) (hparen (by simp [hclosing])) hclosing (iharguments hinside)
  | @signed operator _ operand hoperator _ ih =>
    obtain ⟨hspelled, hoperand⟩ := allSpelled_cons.mp htokens
    have happlied : Expr.applied? operator [operand] = some (.unary operator operand) := rfl
    have hkind : operator.kind ∈ operatorKinds := List.mem_append_left _ hoperator
    exact Expr.readable_applied (hspelled (ne_eof_of_operator hkind)) hkind happlied
      (List.forall_mem_singleton.mpr (ih hoperand))
  | @operation _ operator _ _ left right _ hoperator _ ihleft ihright =>
    simp only [allSpelled_cons, allSpelled_append] at htokens
    obtain ⟨hbefore, hspelled, hafter⟩ := htokens
    have happlied : Expr.applied? operator [left, right] = some (joined operator left right) := rfl
    have hkind := mem_operatorKinds hoperator
    exact Expr.readable_applied (hspelled (ne_eof_of_operator hkind)) hkind happlied
      (List.forall_mem_cons.mpr ⟨ihleft hbefore, List.forall_mem_singleton.mpr (ihright hafter)⟩)
  | assignment hname _ _ ih =>
    simp only [allSpelled_cons] at htokens
    obtain ⟨hspelled, -, hvalue⟩ := htokens
    exact .assign (hspelled (by simp [hname])) hname (ih hvalue)
  | tighter _ ih => exact ih htokens
  | one _ ih htokens e he =>
    cases List.mem_singleton.mp he
    exact ih htokens
  | more _ _ _ ih ihothers htokens e he =>
    simp only [allSpelled_cons, allSpelled_append] at htokens
    rcases List.mem_cons.mp he with rfl | he
    · exact ih htokens.1
    · exact ihothers htokens.2.2 e he

end Grammar

/-! ## Programs -/

theorem allSpelled_scan (source : String) : Grammar.AllSpelled (scan source).tokens := by
  intro token htoken hkind
  rcases scan_spelled htoken with hspelled | rfl
  · exact hspelled
  · exact absurd rfl hkind

/-- All expressions in the trees of a source are readable. -/
theorem readable_of_mem_expressions {levels : Nat} {source : String} {e : Expr}
    (h : e ∈ (parse levels (scan source).tokens).expressions) : e.Readable e.form := by
  obtain ⟨whole, hwhole, he⟩ := List.mem_flatMap.mp h
  rcases Parser.parse_stemsFrom levels (scan source).tokens whole hwhole with
    rfl | ⟨part, hpart, hphrase⟩
  · have hforever : Expr.Readable .literal (.literal (.bool true)) := .literal trivial
    exact hforever.parts e he
  · have hreadable := hphrase.readable fun token htoken ↦
      allSpelled_scan source token (hpart.subset htoken)
    exact hreadable.parts e he

/-- The text of an expression tells what it is.  Of two expressions that occur anywhere in the trees
of two sources, faulty or not, and whatever nesting is allowed for, the texts are the same just if
the expressions are the same apart from the lines and the offsets of the tokens in them. -/
theorem texts_tell_expressions_apart {levels levels' : Nat} {source source' : String} {e e' : Expr}
    (h : e ∈ (parse levels (scan source).tokens).expressions)
    (h' : e' ∈ (parse levels' (scan source').tokens).expressions) :
    e.text = e'.text ↔ e.relocate .forget = e'.relocate .forget := by
  constructor
  · intro htext
    have hchars : e.chars ++ [] = e'.chars ++ [] := by rw [Expr.chars, htext, Expr.chars]
    have hreads := (readable_of_mem_expressions h).readsOneWay
    exact (hreads (readable_of_mem_expressions h') Text.endsWord_nil Text.endsWord_nil hchars).1
  · intro hrelocate
    rw [← e.text_relocate .forget, hrelocate, e'.text_relocate]

/-- A minus before a call and one behind it, and a text with a comma and parentheses in it: written
over three lines with a comment, and with a fault behind, they are the same expression. -/
theorem spread_call_recognised :
    let text := "(- (- (call (variable f) [\"a, (b)\", 1.5])) 2)"
    let source := "print -f(\"a, (b)\", 1.5) - 2;"
    let source' := "print // twice\n - f ( \"a, (b)\" , 1.50 )\n-2.0; var;"
    ∃ e ∈ (parse 100 (scan source).tokens).expressions,
      ∃ e' ∈ (parse 100 (scan source').tokens).expressions,
        e.text = text ∧ e'.text = text ∧ e.relocate .forget = e'.relocate .forget := by
  intro text source source'
  have hfound : ∃ e ∈ (parse 100 (scan source).tokens).expressions, e.text = text := by
    decide +kernel
  have hfound' : ∃ e ∈ (parse 100 (scan source').tokens).expressions, e.text = text := by
    decide +kernel
  obtain ⟨e, he, htext⟩ := hfound
  obtain ⟨e', he', htext'⟩ := hfound'
  have hsame := (texts_tell_expressions_apart he he').mp (htext.trans htext'.symm)
  exact ⟨e, he, e', he', htext, htext', hsame⟩

end Lox
