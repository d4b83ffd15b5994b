import Lox.Tree.Text
import Lox.Proofs.Tree.Literal

/-!
# Texts of expressions are read in one way

Nothing is escaped in the text of an expression: a text in it may hold parentheses, commas and
brackets, and a minus stands in front of one operand or of two.  The text can still be read in one
way only.  What stands first behind a parenthesis tells what the expression is, and then each of its
parts ends where nothing else could end.  So expressions with the same text differ in the places of
their tokens at most.
-/

namespace Lox

/-! ## Rows -/

namespace Text

/-- Items one after the other, each behind a separator. -/
def row (separator : List Char) (items : List (List Char)) : List Char :=
  items.flatMap (separator ++ ·)

theorem row_cons_inj {separator item item' : List Char} {items items' : List (List Char)}
    {rest rest' : List Char}
    (h : row separator (item :: items) ++ rest = row separator (item' :: items') ++ rest') :
    item ++ (row separator items ++ rest) = item' ++ (row separator items' ++ rest') := by
  simp only [row, List.flatMap_cons, List.append_assoc] at h
  exact List.append_cancel_left h

def enclosed (head : String) (items : List (List Char)) : List Char :=
  '(' :: (head.toList ++ (row [' '] items ++ [')']))

def bracketed (items : List (List Char)) : List Char :=
  '[' :: ([',', ' '].intercalate items ++ [']'])

theorem intercalate_cons (separator item : List Char) (items : List (List Char)) :
    separator.intercalate (item :: items) = item ++ row separator items := by
  induction items generalizing item with
  | nil => simp [row]
  | cons next items ih =>
    rw [List.intercalate_cons_cons, ih]
    simp [row]

/-- A head ends at a blank or at the closing parenthesis. -/
def inHead (c : Char) : Bool :=
  c != ' ' && c != ')'

theorem head_row (items : List (List Char)) (rest : List Char) :
    ∀ c ∈ (row [' '] items ++ ')' :: rest).head?, inHead c = false := by
  intro c hc
  cases items with
  | nil =>
    cases hc
    rfl
  | cons item items =>
    cases hc
    rfl

theorem enclosed_append (head : String) (items : List (List Char)) (rest : List Char) :
    enclosed head items ++ rest = '(' :: (head.toList ++ (row [' '] items ++ ')' :: rest)) := by
  simp [enclosed]

/-- Heads and items can be told apart, since no head goes on with a blank or a parenthesis. -/
theorem enclosed_inj {head head' : String} (hhead : head.toList.all inHead = true)
    (hhead' : head'.toList.all inHead = true) {items items' : List (List Char)}
    {rest rest' : List Char} (h : enclosed head items ++ rest = enclosed head' items' ++ rest') :
    head = head' ∧ row [' '] items ++ ')' :: rest = row [' '] items' ++ ')' :: rest' := by
  rw [enclosed_append, enclosed_append] at h
  obtain ⟨hheads, hrests⟩ := run_append_inj (List.all_eq_true.mp hhead)
    (List.all_eq_true.mp hhead') (head_row items rest) (head_row items' rest') (List.cons.inj h).2
  exact ⟨String.toList_inj.mp hheads, hrests⟩

theorem endsWord_row {separator : List Char} {c stop : Char} (hc : inWord c = false)
    (hstop : inWord stop = false) (items : List (List Char)) (rest : List Char) :
    EndsWord (row (c :: separator) items ++ stop :: rest) := by
  cases items with
  | nil => exact endsWord_cons hstop rest
  | cons item items => exact endsWord_cons hc _

end Text

open Text

namespace Expr

/-! ## Texts of expressions -/

def chars (e : Expr) : List Char :=
  e.text.toList

/-- The tree of an operator with one operand or two. -/
def applied? (operator : Token) : List Expr → Option Expr
  | [operand] => some (.unary operator operand)
  | [left, right] => some (Grammar.joined operator left right)
  | _ => none

theorem applied?_cases {operator : Token} {operands : List Expr} {e : Expr}
    (h : applied? operator operands = some e) :
    (∃ operand, operands = [operand] ∧ e = .unary operator operand) ∨
      ∃ left right, operands = [left, right] ∧
        (e = .binary operator left right ∨ e = .logical operator left right) := by
  unfold applied? at h
  split at h
  · cases h
    exact .inl ⟨_, rfl, rfl⟩
  · cases h
    refine .inr ⟨_, _, rfl, ?_⟩
    unfold Grammar.joined
    split
    · exact .inr rfl
    · exact .inl rfl
  · cases h

theorem texts_eq_map (es : List Expr) : texts es = es.map text := by
  induction es with
  | nil => rfl
  | cons e es ih => rw [texts, ih, List.map_cons]

theorem chars_literal (value : Atom) : (Expr.literal value).chars = value.source.toList := by
  rw [chars, text]

theorem chars_var (name : Token) :
    (Expr.var name).chars = enclosed "variable" [name.lexeme.toList] := by
  simp [chars, text, enclosed, row]

theorem chars_assign (name : Token) (value : Expr) :
    (Expr.assign name value).chars = enclosed "=" [name.lexeme.toList, value.chars] := by
  simp [chars, text, enclosed, row]

theorem chars_applied {operator : Token} {operands : List Expr} {e : Expr}
    (h : applied? operator operands = some e) :
    e.chars = enclosed operator.lexeme (operands.map chars) := by
  rcases applied?_cases h with ⟨operand, rfl, rfl⟩ | ⟨left, right, rfl, rfl | rfl⟩
  · simp [chars, text, enclosed, row]
  · simp [chars, text, enclosed, row]
  · simp [chars, text, enclosed, row]

theorem chars_call (callee : Expr) (paren : Token) (arguments : List Expr) :
    (Expr.call callee paren arguments).chars =
      enclosed "call" [callee.chars, bracketed (arguments.map chars)] := by
  have hcommas : (", ".intercalate (texts arguments)).toList =
      [',', ' '].intercalate (arguments.map chars) := by
    rw [String.toList_intercalate, texts_eq_map, List.map_map]
    rfl
  simp [chars, text, enclosed, row, bracketed, hcommas]

theorem chars_grouping (inner : Expr) :
    (Expr.grouping inner).chars = enclosed "grouping" [inner.chars] := by
  simp [chars, text, enclosed, row]

/-! ## Forms -/

/-- What an expression is, as far as the beginning of its text tells. -/
inductive Form where
  | literal
  | name
  | assignment
  | operation
  | call
  | grouping
  deriving DecidableEq

namespace Form

/-- The form of what has the given head in its parentheses. -/
def ofHead (head : String) : Form :=
  if head = "variable" then .name
  else if head = "=" then .assignment
  else if head = "call" then .call
  else if head = "grouping" then .grouping
  else .operation

/-- The form of the expression that the characters begin with. -/
def ofChars : List Char → Form
  | '(' :: rest => ofHead (String.ofList (rest.takeWhile inHead))
  | _ => .literal

theorem ofChars_enclosed {head : String} (hhead : head.toList.all inHead = true)
    (items : List (List Char)) (rest : List Char) :
    ofChars (enclosed head items ++ rest) = ofHead head := by
  rw [enclosed_append, ofChars,
    takeWhile_append_run (List.all_eq_true.mp hhead) (head_row items rest), String.ofList_toList]

/-- Neither a word nor a quotation begins with a parenthesis. -/
theorem ofChars_source {value : Atom} (h : value.Writable) (rest : List Char) :
    ofChars (value.source.toList ++ rest) = .literal := by
  rw [ofChars]
  intro tail
  exact h.append_ne rfl (by decide) rest tail

end Form

end Expr

namespace Grammar

def operatorKinds : List Kind :=
  signs ++ [Precedence.or, .and, .equality, .comparison, .term, .factor].flatMap operators

theorem mem_operatorKinds {level : Precedence} {kind : Kind} (h : kind ∈ operators level) :
    kind ∈ operatorKinds := by
  have hall : ∀ kind ∈ operators level, kind ∈ operatorKinds := by
    cases level <;> decide
  exact hall kind h

end Grammar

/-- An operator is spelled as no other head is. -/
theorem Token.Spelled.of_operator {token : Token} (h : token.Spelled)
    (hkind : token.kind ∈ Grammar.operatorKinds) :
    token.lexeme.toList.all inHead = true ∧ Expr.Form.ofHead token.lexeme = .operation := by
  have hspellings : ∀ kind ∈ Grammar.operatorKinds,
      kind ∉ [Kind.identifier, .string, .number] ∧ kind.spelling.toList.all inHead = true ∧
        Expr.Form.ofHead kind.spelling = .operation := by
    decide +kernel
  obtain ⟨hfixed, hhead, hform⟩ := hspellings token.kind hkind
  rw [h.lexeme_eq hfixed]
  exact ⟨hhead, hform⟩

namespace Expr

/-! ## Reading in one way -/

def form : Expr → Form
  | .literal _ | .void => .literal
  | .var _ => .name
  | .assign _ _ => .assignment
  | .unary _ _ | .binary _ _ _ | .logical _ _ _ => .operation
  | .call _ _ _ => .call
  | .grouping _ => .grouping

/-- An expression of the given form whose literals can be written and whose tokens are spelled as
they have to be where they stand. -/
inductive Readable : Form → Expr → Prop
  | literal {value : Atom} (h : value.Writable) : Readable .literal (.literal value)
  | var {name : Token} (hname : name.Spelled) (hkind : name.kind = .identifier) :
      Readable .name (.var name)
  | assign {name : Token} {form : Form} {value : Expr} (hname : name.Spelled)
      (hkind : name.kind = .identifier) (h : Readable form value) :
      Readable .assignment (.assign name value)
  | operation {operator : Token} {operands : List Expr} {e : Expr} (hoperator : operator.Spelled)
      (hkind : operator.kind ∈ Grammar.operatorKinds) (h : applied? operator operands = some e)
      (hoperands : ∀ operand ∈ operands, Readable operand.form operand) : Readable .operation e
  | call {form : Form} {callee : Expr} {paren : Token} {arguments : List Expr}
      (hcallee : Readable form callee) (hparen : paren.Spelled) (hkind : paren.kind = .rightParen)
      (harguments : ∀ argument ∈ arguments, Readable argument.form argument) :
      Readable .call (.call callee paren arguments)
  | grouping {form : Form} {inner : Expr} (h : Readable form inner) :
      Readable .grouping (.grouping inner)

/-- The text is that of a literal, or it stands in parentheses, with a head that the form tells. -/
theorem Readable.chars_cases {form : Form} {e : Expr} (h : Readable form e) :
    (form = .literal ∧ ∃ value : Atom, value.Writable ∧ e.chars = value.source.toList) ∨
      ∃ head items, e.chars = enclosed head items ∧ head.toList.all inHead = true ∧
        Form.ofHead head = form := by
  cases h with
  | literal h => exact .inl ⟨rfl, _, h, chars_literal _⟩
  | var => exact .inr ⟨_, _, chars_var _, rfl, rfl⟩
  | assign => exact .inr ⟨_, _, chars_assign _ _, rfl, rfl⟩
  | operation hoperator hkind h => exact .inr ⟨_, _, chars_applied h, hoperator.of_operator hkind⟩
  | call => exact .inr ⟨_, _, chars_call _ _ _, rfl, rfl⟩
  | grouping => exact .inr ⟨_, _, chars_grouping _, rfl, rfl⟩

/-- The text begins as the form tells. -/
theorem Readable.ofChars {form : Form} {e : Expr} (h : Readable form e) (rest : List Char) :
    Form.ofChars (e.chars ++ rest) = form := by
  rcases h.chars_cases with ⟨rfl, value, hvalue, hchars⟩ | ⟨head, items, hchars, hhead, hform⟩
  · rw [hchars, Form.ofChars_source hvalue]
  · rw [hchars, Form.ofChars_enclosed hhead, hform]

/-- No expression begins with a bracket. -/
theorem Readable.append_ne {form : Form} {e : Expr} (h : Readable form e)
    (rest rest' : List Char) : e.chars ++ rest ≠ ']' :: rest' := by
  rcases h.chars_cases with ⟨-, value, hvalue, hchars⟩ | ⟨head, items, hchars, -⟩
  · rw [hchars]
    exact hvalue.append_ne rfl (by decide) rest rest'
  · rw [hchars, enclosed_append]
    intro heq
    cases heq

/-- No other expression has a text that begins with that of `e`, apart from places. -/
def ReadsOneWay (e : Expr) : Prop :=
  ∀ ⦃form : Form⦄ ⦃e' : Expr⦄ ⦃rest rest' : List Char⦄, Readable form e' → EndsWord rest →
    EndsWord rest' → e.chars ++ rest = e'.chars ++ rest' →
      e.relocate .forget = e'.relocate .forget ∧ rest = rest'

/-- Expressions one after the other are told apart if each is. -/
theorem row_inj {separator : List Char} {c stop : Char} (hc : inWord c = false)
    (hstop : inWord stop = false) (hne : c ≠ stop) {es es' : List Expr} {rest rest' : List Char}
    (hes : ∀ e ∈ es, ReadsOneWay e) (hes' : ∀ e ∈ es', Readable e.form e)
    (h : row (c :: separator) (es.map chars) ++ stop :: rest =
      row (c :: separator) (es'.map chars) ++ stop :: rest') :
    relocateAll .forget es = relocateAll .forget es' ∧ rest = rest' := by
  induction es generalizing es' with
  | nil =>
    cases es' with
    | nil => exact ⟨rfl, (List.cons.inj h).2⟩
    | cons e' es' => exact absurd (List.cons.inj h).1.symm hne
  | cons e es ih =>
    cases es' with
    | nil => exact absurd (List.cons.inj h).1 hne
    | cons e' es' =>
      obtain ⟨he, hes⟩ := List.forall_mem_cons.mp hes
      obtain ⟨he', hes'⟩ := List.forall_mem_cons.mp hes'
      obtain ⟨hhead, htail⟩ := he he' (endsWord_row hc hstop _ _) (endsWord_row hc hstop _ _)
        (row_cons_inj h)
      obtain ⟨hrow, hrest⟩ := ih hes hes' htail
      exact ⟨by rw [relocateAll, relocateAll, hhead, hrow], hrest⟩

/-- Brackets close where nothing but another item could stand. -/
theorem bracketed_inj {es es' : List Expr} {rest rest' : List Char}
    (hes : ∀ e ∈ es, ReadsOneWay e) (hreadable : ∀ e ∈ es, Readable e.form e)
    (hes' : ∀ e ∈ es', Readable e.form e)
    (h : bracketed (es.map chars) ++ rest = bracketed (es'.map chars) ++ rest') :
    relocateAll .forget es = relocateAll .forget es' ∧ rest = rest' := by
  simp only [bracketed, List.cons_append, List.append_assoc, List.nil_append, List.cons.injEq,
    true_and] at h
  cases es with
  | nil =>
    cases es' with
    | nil => simpa using h
    | cons e' es' =>
      rw [List.map_cons, intercalate_cons, List.append_assoc] at h
      exact absurd h.symm ((hes' e' List.mem_cons_self).append_ne _ _)
  | cons e es =>
    cases es' with
    | nil =>
      rw [List.map_cons, intercalate_cons, List.append_assoc] at h
      exact absurd h ((hreadable e List.mem_cons_self).append_ne _ _)
    | cons e' es' =>
      obtain ⟨he, hes⟩ := List.forall_mem_cons.mp hes
      obtain ⟨he', hes'⟩ := List.forall_mem_cons.mp hes'
      rw [List.map_cons, List.map_cons, intercalate_cons, intercalate_cons, List.append_assoc,
        List.append_assoc] at h
      obtain ⟨hhead, htail⟩ := he he' (endsWord_row rfl rfl _ _) (endsWord_row rfl rfl _ _) h
      obtain ⟨hrow, hrest⟩ := row_inj rfl rfl (by decide) hes hes' htail
      exact ⟨by rw [relocateAll, relocateAll, hhead, hrow], hrest⟩

/-- Only expressions of the same form have to be told apart. -/
theorem ReadsOneWay.of_form {form : Form} {e : Expr} (h : Readable form e)
    (hsame : ∀ e' rest rest', Readable form e' → EndsWord rest → EndsWord rest' →
      e.chars ++ rest = e'.chars ++ rest' →
        e.relocate .forget = e'.relocate .forget ∧ rest = rest') : ReadsOneWay e := by
  intro form' e' rest rest' h' hrest hrest' heq
  obtain rfl : form' = form := by rw [← h.ofChars rest, heq, h'.ofChars rest']
  exact hsame e' rest rest' h' hrest hrest' heq

/-- Closing parentheses differ in their places only. -/
theorem paren_forget {paren paren' : Token} (h : paren.Spelled) (h' : paren'.Spelled)
    (hkind : paren.kind = .rightParen) (hkind' : paren'.kind = .rightParen) :
    paren.relocate .forget = paren'.relocate .forget := by
  have hfixed : Kind.rightParen ∉ [Kind.identifier, .string, .number] := by decide
  have hlexeme := h.lexeme_eq (hkind ▸ hfixed)
  have hlexeme' := h'.lexeme_eq (hkind' ▸ hfixed)
  rw [hkind] at hlexeme
  rw [hkind', ← hlexeme] at hlexeme'
  exact h.relocate_forget h' hlexeme'.symm

theorem name_inj {name name' : Token} (h : name.Spelled) (h' : name'.Spelled)
    (hkind : name.kind = .identifier) (hkind' : name'.kind = .identifier)
    {rest rest' : List Char} (hrest : EndsWord rest) (hrest' : EndsWord rest')
    (heq : name.lexeme.toList ++ rest = name'.lexeme.toList ++ rest') :
    name.relocate .forget = name'.relocate .forget ∧ rest = rest' := by
  have hword {name : Token} (h : name.Spelled) (hkind : name.kind = .identifier) :
      ∀ c ∈ name.lexeme.toList, inWord c = true := by
    intro c hc
    rw [Token.Spelled, hkind] at h
    simp [inWord, h.of_identifier c hc]
  obtain ⟨hlexeme, hrests⟩ := run_append_inj (hword h hkind) (hword h' hkind') hrest hrest' heq
  exact ⟨h.relocate_forget h' (String.toList_inj.mp hlexeme), hrests⟩

theorem applied?_relocate (r : Relocation) {operator : Token} {operands : List Expr} {e : Expr}
    (h : applied? operator operands = some e) :
    applied? (operator.relocate r) (relocateAll r operands) = some (e.relocate r) := by
  unfold applied? at h
  split at h
  · cases h
    rfl
  · cases h
    rw [Grammar.joined_relocate]
    rfl
  · cases h

/-- The text of a readable expression is that of no other, whatever follows it. -/
theorem Readable.readsOneWay {form : Form} {e : Expr} (h : Readable form e) : ReadsOneWay e := by
  -- Both texts are of one form, and their parts cancel from the left one by one: behind each stands
  -- a blank or what closes the parentheses, and no word goes on with either.
  induction h with
  | literal hvalue =>
    refine ReadsOneWay.of_form (.literal hvalue) ?_
    intro _ rest rest' h' hrest hrest' heq
    cases h' with
    | literal hvalue' =>
      rw [chars_literal, chars_literal] at heq
      obtain ⟨rfl, hrests⟩ := hvalue.append_inj hvalue' hrest hrest' heq
      exact ⟨rfl, hrests⟩
  | var hname hkind =>
    refine ReadsOneWay.of_form (.var hname hkind) ?_
    intro _ rest rest' h' _ _ heq
    cases h' with
    | var hname' hkind' =>
      rw [chars_var, chars_var] at heq
      obtain ⟨-, hrow⟩ := enclosed_inj rfl rfl heq
      obtain ⟨hnames, hrests⟩ := name_inj hname hname' hkind hkind' (endsWord_row rfl rfl _ _)
        (endsWord_row rfl rfl _ _) (row_cons_inj hrow)
      exact ⟨by rw [relocate, relocate, hnames], (List.cons.inj hrests).2⟩
  | assign hname hkind hvalue ih =>
    refine ReadsOneWay.of_form (.assign hname hkind hvalue) ?_
    intro _ rest rest' h' _ _ heq
    cases h' with
    | assign hname' hkind' hvalue' =>
      rw [chars_assign, chars_assign] at heq
      obtain ⟨-, hrow⟩ := enclosed_inj rfl rfl heq
      obtain ⟨hnames, hrow⟩ := name_inj hname hname' hkind hkind' (endsWord_row rfl rfl _ _)
        (endsWord_row rfl rfl _ _) (row_cons_inj hrow)
      obtain ⟨hvalues, hrests⟩ := ih hvalue' (endsWord_row rfl rfl _ _) (endsWord_row rfl rfl _ _)
        (row_cons_inj hrow)
      exact ⟨by rw [relocate, relocate, hnames, hvalues], (List.cons.inj hrests).2⟩
  | operation hoperator hkind happlied hoperands ih =>
    refine ReadsOneWay.of_form (.operation hoperator hkind happlied hoperands) ?_
    intro _ rest rest' h' _ _ heq
    cases h' with
    | operation hoperator' hkind' happlied' hoperands' =>
      rw [chars_applied happlied, chars_applied happlied'] at heq
      obtain ⟨hlexeme, hrow⟩ := enclosed_inj (hoperator.of_operator hkind).1
        (hoperator'.of_operator hkind').1 heq
      obtain ⟨hoperands, hrests⟩ := row_inj rfl rfl (by decide) ih hoperands' hrow
      have htree := applied?_relocate .forget happlied
      rw [hoperator.relocate_forget hoperator' hlexeme, hoperands,
        applied?_relocate .forget happlied'] at htree
      exact ⟨(Option.some.inj htree).symm, hrests⟩
  | call hcallee hparen hkind harguments ihcallee iharguments =>
    refine ReadsOneWay.of_form (.call hcallee hparen hkind harguments) ?_
    intro _ rest rest' h' _ _ heq
    cases h' with
    | call hcallee' hparen' hkind' harguments' =>
      rw [chars_call, chars_call] at heq
      obtain ⟨-, hrow⟩ := enclosed_inj rfl rfl heq
      obtain ⟨hcallees, hrow⟩ := ihcallee hcallee' (endsWord_row rfl rfl _ _)
        (endsWord_row rfl rfl _ _) (row_cons_inj hrow)
      obtain ⟨hall, hrests⟩ := bracketed_inj iharguments harguments harguments' (row_cons_inj hrow)
      have hparens := paren_forget hparen hparen' hkind hkind'
      exact ⟨by rw [relocate, relocate, hcallees, hparens, hall], (List.cons.inj hrests).2⟩
  | grouping hinner ih =>
    refine ReadsOneWay.of_form (.grouping hinner) ?_
    intro _ rest rest' h' _ _ heq
    cases h' with
    | grouping hinner' =>
      rw [chars_grouping, chars_grouping] at heq
      obtain ⟨-, hrow⟩ := enclosed_inj rfl rfl heq
      obtain ⟨hinners, hrests⟩ := ih hinner' (endsWord_row rfl rfl _ _)
        (endsWord_row rfl rfl _ _) (row_cons_inj hrow)
      exact ⟨by rw [relocate, relocate, hinners], (List.cons.inj hrests).2⟩

mutual

@[simp]
theorem text_relocate (r : Relocation) (e : Expr) : (e.relocate r).text = e.text := by
  cases e with
  | literal | var | void => simp [relocate, text, Token.relocate]
  | assign name inner => simp [relocate, text, Token.relocate, text_relocate r inner]
  | unary operator inner => simp [relocate, text, Token.relocate, text_relocate r inner]
  | grouping inner => simp [relocate, text, text_relocate r inner]
  | binary operator left right | logical operator left right =>
    simp [relocate, text, Token.relocate, text_relocate r left, text_relocate r right]
  | call callee paren arguments =>
    simp [relocate, text, text_relocate r callee, texts_relocateAll r arguments]

theorem texts_relocateAll (r : Relocation) (es : List Expr) :
    texts (relocateAll r es) = texts es := by
  cases es with
  | nil => rfl
  | cons e es => simp [relocateAll, texts, text_relocate r e, texts_relocateAll r es]

end

end Expr

end Lox
