import Lox.Proofs.Parse.Binding

/-!
# Only expressions are read

What climbing reads is a phrase of the grammar, and the operator at which it stops does not bind
tightly enough to go on.  Along the way the tree built so far is a phrase of some level, and the
next operator does not bind more tightly than that level: this keeps the left operand of every
operator within the level that the grammar asks for.
-/

namespace Lox.Parser

open Stateful Grammar

/-! ## Items between commas -/

section

variable {α : Type} {size : Nat} {item : Parser α} {Item : List Token → α → Prop}
  {Items : List Token → List α → Prop}

def Continues (Items : List Token → List α → Prop) (tokens : List Token) (items : List α) : Prop :=
  tokens = [] ∧ items = [] ∨
    ∃ comma others, tokens = comma :: others ∧ comma.kind = .comma ∧ Items others items

def ReadsItem (size : Nat) (Item : List Token → α → Prop) (item : Parser α) : Prop :=
  ∀ tokens a rest, tokens.length ≤ size → item tokens = .ok a rest →
    ∃ taken, tokens = taken ++ rest ∧ Item taken a

/-- Items are made of a first one and those that follow after commas. -/
def Separates (Item : List Token → α → Prop) (Items : List Token → List α → Prop) : Prop :=
  ∀ first others a items, Item first a → Continues Items others items →
    Items (first ++ others) (a :: items)

/-- Whatever further items are read, each follows a comma. -/
theorem furtherItems_eq_ok (hitem : ReadsItem size Item item) (hitems : Separates Item Items)
    {count : Nat} {before result : List α} {tokens rest : List Token}
    (hsize : tokens.length ≤ size)
    (h : furtherItems item count before tokens = .ok result rest) :
    ∃ taken items, tokens = taken ++ rest ∧ result = before.reverse ++ items ∧
      Continues Items taken items := by
  induction count generalizing before tokens with
  | zero =>
    obtain ⟨rfl, rfl⟩ := pure_eq_ok h
    exact ⟨[], [], rfl, (List.append_nil _).symm, .inl ⟨rfl, rfl⟩⟩
  | succ count ih =>
    unfold furtherItems at h
    rcases ite_eq_ok h with ⟨mid, haccepts, hmore⟩ | ⟨mid, haccepts, hdone⟩
    · obtain ⟨comma, rfl, hcomma⟩ := accepts_eq_ok_true haccepts
      obtain ⟨a, after, ha, hothers⟩ := bind_eq_ok hmore
      rw [List.length_cons] at hsize
      obtain ⟨first, rfl, hfirst⟩ := hitem _ _ _ (by omega) ha
      rw [List.length_append] at hsize
      obtain ⟨others, items, rfl, rfl, hitems'⟩ := ih (by omega) hothers
      refine ⟨comma :: (first ++ others), a :: items, by simp, by simp, ?_⟩
      exact .inr ⟨comma, _, rfl, hcomma, hitems _ _ _ _ hfirst hitems'⟩
    · obtain ⟨rfl, rfl⟩ := pure_eq_ok hdone
      obtain ⟨rfl, -⟩ := accepts_eq_ok_false haccepts
      exact ⟨[], [], rfl, (List.append_nil _).symm, .inl ⟨rfl, rfl⟩⟩

/-- Whatever list is read stands in the tokens, up to a closing parenthesis. -/
theorem commaSeparated_eq_ok (hitem : ReadsItem size Item item) (hitems : Separates Item Items)
    {count : Nat} {result : List α} {tokens rest : List Token} (hsize : tokens.length ≤ size)
    (h : commaSeparated count item tokens = .ok result rest) :
    ∃ taken, tokens = taken ++ rest ∧ (taken = [] ∧ result = [] ∨ Items taken result) := by
  unfold commaSeparated at h
  rcases ite_eq_ok h with ⟨mid, hsees, hdone⟩ | ⟨mid, hsees, hmore⟩
  · obtain ⟨rfl, -⟩ := sees_eq_ok hsees
    obtain ⟨rfl, rfl⟩ := pure_eq_ok hdone
    exact ⟨[], rfl, .inl ⟨rfl, rfl⟩⟩
  · obtain ⟨rfl, -⟩ := sees_eq_ok hsees
    obtain ⟨a, after, ha, hothers⟩ := bind_eq_ok hmore
    obtain ⟨first, rfl, hfirst⟩ := hitem _ _ _ hsize ha
    rw [List.length_append] at hsize
    obtain ⟨others, items, rfl, rfl, hitems'⟩ :=
      furtherItems_eq_ok hitem hitems (by omega) hothers
    exact ⟨first ++ others, by simp, .inr (hitems _ _ _ _ hfirst hitems')⟩

end

theorem separates_arguments : Separates Expression Arguments := by
  intro first others a items hfirst hothers
  rcases hothers with ⟨rfl, rfl⟩ | ⟨comma, others, rfl, hcomma, hothers⟩
  · rw [List.append_nil]
    exact .one hfirst
  · exact .more hfirst hcomma hothers

/-! ## Operands and rounds -/

/-- Every result of the parser is a phrase, as far as operators above `least` go. -/
def Reads (size : Nat) (least : Precedence) (parser : Parser Expr) : Prop :=
  ∀ tokens tree rest, tokens.length ≤ size → parser tokens = .ok tree rest →
    ∃ taken, tokens = taken ++ rest ∧ Phrase least.wanted taken tree ∧ Stops least rest

theorem Reads.readsItem {size : Nat} {parser : Parser Expr} (h : Reads size .none parser) :
    ReadsItem size Expression parser := by
  intro tokens tree rest hsize hread
  obtain ⟨taken, htaken, hphrase, -⟩ := h tokens tree rest hsize hread
  exact ⟨taken, htaken, hphrase⟩

section

variable {size : Nat} {nested : Precedence → Parser Expr} {argument : Parser Expr}

/-- What is read in parentheses is an expression. -/
theorem group_eq_ok (hnested : Reads size .none (nested .none)) {tokens rest : List Token}
    {tree : Expr} (hsize : tokens.length ≤ size)
    (h : operand.group nested tokens = .ok tree rest) :
    ∃ taken inner closing, tokens = taken ++ closing :: rest ∧ tree = .grouping inner ∧
      Expression taken inner ∧ closing.kind = .rightParen := by
  unfold operand.group at h
  obtain ⟨inner, mid, hinner, hclose⟩ := bind_eq_ok h
  obtain ⟨closing, after, hexpect, hpure⟩ := bind_eq_ok hclose
  obtain ⟨rfl, rfl⟩ := pure_eq_ok hpure
  obtain ⟨taken, rfl, hphrase, -⟩ := hnested _ _ _ hsize hinner
  obtain ⟨rfl, hclosing⟩ := expectSymbol_eq_ok hexpect
  exact ⟨taken, inner, closing, rfl, rfl, hphrase, hclosing⟩

/-- An operand is a phrase that is at least as tight as an operator before its operand. -/
theorem operand_eq_ok (hnested : ∀ least, Reads size least (nested least))
    {tokens rest : List Token} {tree : Expr} (hsize : tokens.length ≤ size)
    (h : operand nested tokens = .ok tree rest) :
    ∃ taken level, tokens = taken ++ rest ∧ Phrase level taken tree ∧ Stops level.following rest ∧
      Precedence.unary.level ≤ level.level := by
  have hprimary : Stops Precedence.primary.following rest := (stops_call rest).mono (by decide)
  have hsigned {token : Token} {after : List Token} (hkind : token.kind ∈ signs)
      (hsize : after.length ≤ size)
      (h : (Expr.unary token <$> nested .unary) after = .ok tree rest) :
      ∃ taken level, token :: after = taken ++ rest ∧ Phrase level taken tree ∧
        Stops level.following rest ∧ Precedence.unary.level ≤ level.level := by
    obtain ⟨inner, hinner, rfl⟩ := map_eq_ok h
    obtain ⟨taken, rfl, hphrase, hstops⟩ := hnested .unary _ _ _ hsize hinner
    exact ⟨token :: taken, .unary, rfl, .signed hkind hphrase, hstops, by decide⟩
  have hliteral {token : Token} {value : Atom} (hvalue : literal? token = some value) :
      ∃ taken level, token :: rest = taken ++ rest ∧ Phrase level taken (.literal value) ∧
        Stops level.following rest ∧ Precedence.unary.level ≤ level.level :=
    ⟨[token], .primary, rfl, .literal hvalue, hprimary, by decide⟩
  match tokens with
  | [] => cases h
  | token :: after =>
    rw [List.length_cons] at hsize
    simp only [operand_eq] at h
    split at h
    case h_1 hkind =>
      obtain ⟨taken, inner, closing, rfl, rfl, hphrase, hclosing⟩ :=
        group_eq_ok (hnested .none) (by omega) h
      exact ⟨token :: (taken ++ [closing]), .primary, by simp, .grouping hkind hphrase hclosing,
        hprimary, by decide⟩
    case h_2 hkind => exact hsigned (by simp [hkind, signs]) (by omega) h
    case h_3 hkind => exact hsigned (by simp [hkind, signs]) (by omega) h
    case h_9 hkind =>
      cases h
      exact ⟨[token], .primary, rfl, .name hkind, hprimary, by decide⟩
    case h_10 => cases h
    all_goals
      cases h
      refine hliteral ?_
      simp only [literal?, *]

/-- The operator that has been taken and what it was applied to, together with the phrase before
it, are a phrase of the operator's level. -/
theorem extended_eq_ok (hnested : ∀ least, Reads size least (nested least))
    (hargument : Reads size .none argument) {operator : Token} {own level : Precedence}
    {before tokens rest : List Token} {left tree : Expr} (hsize : tokens.length ≤ size)
    (hown : operator.kind.precedence? = some own) (hleft : Phrase level before left)
    (hle : own.level ≤ level.level)
    (h : extended size nested argument operator own left tokens = .ok tree rest) :
    ∃ taken, tokens = taken ++ rest ∧ Phrase own (before ++ operator :: taken) tree ∧
      Stops own.following rest := by
  unfold extended at h
  rcases operator.kind.precedence?_cases hown with
    ⟨hkind, rfl⟩ | ⟨hkind, rfl⟩ | ⟨hparen, hequal, hmem⟩
  · rw [if_pos hkind] at h
    obtain ⟨arguments, mid, harguments, hclose⟩ := bind_eq_ok h
    obtain ⟨closing, after, hexpect, hpure⟩ := bind_eq_ok hclose
    obtain ⟨rfl, rfl⟩ := pure_eq_ok hpure
    obtain ⟨rfl, hclosing⟩ := expectSymbol_eq_ok hexpect
    obtain ⟨taken, rfl, hlist⟩ :=
      commaSeparated_eq_ok hargument.readsItem separates_arguments hsize harguments
    have hcallee : Phrase .call before left := hleft.loosen hle
    refine ⟨taken ++ [closing], by simp, ?_, stops_call _⟩
    rcases hlist with ⟨rfl, rfl⟩ | hlist
    · exact .call hcallee hkind hclosing
    · exact .callWith hcallee hkind hlist hclosing
  · have hbound : operator.kind.rightBound .assignment = .none := by rw [hkind]; rfl
    rw [if_neg (by rw [hkind]; decide), hbound] at h
    obtain ⟨right, mid, hright, hcombine⟩ := bind_eq_ok h
    obtain ⟨taken, rfl, hphrase, hstops⟩ := hnested .none _ _ _ hsize hright
    simp only [combine, hkind] at hcombine
    split at hcombine
    · rename_i name
      obtain ⟨rfl, rfl⟩ := pure_eq_ok hcombine
      obtain ⟨rfl, hname⟩ := hleft.eq_singleton_of_var rfl
      exact ⟨taken, rfl, .assignment hname hkind hphrase, hstops⟩
    · cases hcombine
  · have hbound : operator.kind.rightBound own = own := if_neg hequal
    rw [if_neg hparen, hbound] at h
    obtain ⟨right, mid, hright, hcombine⟩ := bind_eq_ok h
    obtain ⟨taken, rfl, hphrase, hstops⟩ := hnested own _ _ _ hsize hright
    rw [combine_of_mem_operators hmem] at hcombine
    obtain ⟨rfl, rfl⟩ := pure_eq_ok hcombine
    rw [wanted_of_mem_operators hmem] at hphrase
    refine ⟨taken, rfl, .operation (hleft.loosen hle) hmem hphrase, ?_⟩
    rwa [following_of_mem_operators hmem]

/-- The invariant of climbing: the tree so far is a phrase to which the next operator can be
applied. -/
theorem climb_eq_ok (hnested : ∀ least, Reads size least (nested least))
    (hargument : Reads size .none argument) {least level : Precedence} {count : Nat}
    {before tokens rest : List Token} {left tree : Expr} (hsize : tokens.length ≤ size)
    (hcount : tokens.length ≤ count) (hleft : Phrase level before left)
    (hstops : Stops level.following tokens) (hwanted : least.wanted.level ≤ level.level)
    (h : climb size nested argument least count left tokens = .ok tree rest) :
    ∃ taken, tokens = taken ++ rest ∧ Phrase least.wanted (before ++ taken) tree ∧
      Stops least rest := by
  induction count generalizing level before tokens left with
  | zero =>
    obtain rfl := List.eq_nil_of_length_eq_zero (Nat.le_zero.mp hcount)
    obtain ⟨rfl, rfl⟩ := pure_eq_ok h
    exact ⟨[], rfl, by simpa using hleft.loosen hwanted, nofun⟩
  | succ count ih =>
    match tokens with
    | [] =>
      cases h
      exact ⟨[], rfl, by simpa using hleft.loosen hwanted, nofun⟩
    | operator :: after =>
      rw [climb_cons] at h
      split at h
      · cases h
        exact ⟨[], rfl, by simpa using hleft.loosen hwanted, stops_of_none ‹_› least after⟩
      · rename_i own hown
        split at h
        · rename_i hlt
          obtain ⟨larger, mid, hround, hclimb⟩ := bind_eq_ok h
          rw [List.length_cons] at hsize hcount
          have hle : own.level ≤ level.level :=
            Nat.le_trans (hstops _ _ rfl hown) level.level_following_le
          obtain ⟨taken, rfl, hphrase, hfollows⟩ :=
            extended_eq_ok hnested hargument (by omega) hown hleft hle hround
          rw [List.length_append] at hsize hcount
          have hown_wanted : least.wanted.level ≤ own.level := by
            rw [Precedence.level_wanted]
            omega
          obtain ⟨more, rfl, htree, hrest⟩ :=
            ih (by omega) (by omega) hphrase hfollows hown_wanted hclimb
          exact ⟨operator :: (taken ++ more), by simp, by simpa using htree, hrest⟩
        · cases h
          exact ⟨[], rfl, by simpa using hleft.loosen hwanted, stops_cons hown (by omega) after⟩

end

/-- Whatever is read as an expression is a phrase. -/
theorem expression_reads (size levels : Nat) (least : Precedence) :
    Reads size least (expression size levels least) := by
  induction levels using Nat.strongRecOn generalizing least with
  | ind levels ih =>
    intro tokens tree rest hsize h
    match levels with
    | 0 | 1 | 2 => cases h
    | levels + 3 =>
      unfold expression at h
      obtain ⟨left, mid, hoperand, hclimb⟩ := bind_eq_ok h
      obtain ⟨before, level, rfl, hleft, hstops, hlevel⟩ :=
        operand_eq_ok (fun least ↦ ih _ (by omega) least) hsize hoperand
      rw [List.length_append] at hsize
      have hwanted : least.wanted.level ≤ level.level := by
        rw [Precedence.level_wanted]
        omega
      obtain ⟨taken, rfl, hphrase, hrest⟩ :=
        climb_eq_ok (fun least ↦ ih _ (by omega) least) (ih _ (by omega) .none) (by omega) (by omega)
          hleft hstops hwanted hclimb
      exact ⟨before ++ taken, by simp, hphrase, hrest⟩

end Lox.Parser
