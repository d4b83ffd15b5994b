import Lox.Proofs.Parse.Ending
import Lox.Proofs.Scan.Tiling

/-!
# The order of faults

Faults are found in the order of the tokens at which they are located, one at each token at most,
and none behind the mark of the end, which alone may be at fault repeatedly.  The tokens of a source
are in the order of their offsets, and hence so are the faults in its form.
-/

namespace Lox.Parser

open Stateful

/-! ## Positions -/

/-- The position of the first mark of the end, or else the number of tokens. -/
def endIndex (tokens : List Token) : Nat :=
  tokens.findIdx (·.kind = .eof)

theorem endIndex_cons_of_eq {token : Token} (h : token.kind = .eof) (tokens : List Token) :
    endIndex (token :: tokens) = 0 := by
  simp [endIndex, List.findIdx_cons, h]

theorem endIndex_cons_of_ne {token : Token} (h : token.kind ≠ .eof) (tokens : List Token) :
    endIndex (token :: tokens) = endIndex tokens + 1 := by
  simp [endIndex, List.findIdx_cons, h]

/-- Up to the mark of the end, tokens may be taken. -/
theorem length_le_endIndex {tokens rest : List Token} (h : Took [.eof] tokens rest) :
    tokens.length ≤ endIndex tokens + rest.length := by
  obtain ⟨taken, rfl, htaken⟩ := h
  induction taken with
  | nil => simp
  | cons token taken ih =>
    obtain ⟨hkind, htaken⟩ := List.forall_mem_cons.mp htaken
    rw [List.cons_append, endIndex_cons_of_ne (by simpa using hkind), List.length_cons]
    have := ih htaken
    omega

/-- The faults are located at the tokens in the given positions, none of which is behind the mark of
the end, and the positions increase up to there. -/
structure InOrder (tokens : List Token) (errors : List SyntaxError) (positions : List Nat) :
    Prop where
  located : errors.map (fun error ↦ some error.token) = positions.map (tokens[·]?)
  within : ∀ position ∈ positions, position ≤ endIndex tokens
  increasing : positions.Pairwise fun first second ↦
    first < second ∨ first = endIndex tokens ∧ second = endIndex tokens

namespace InOrder

variable {tokens : List Token} {errors : List SyntaxError} {positions : List Nat}

/-- A token that is passed moves all positions by one. -/
theorem pass {token : Token} (h : InOrder tokens errors positions) (hkind : token.kind ≠ .eof) :
    InOrder (token :: tokens) errors (positions.map (· + 1)) where
  located := by
    rw [h.located, List.map_map]
    rfl
  within := by
    rw [endIndex_cons_of_ne hkind, List.forall_mem_map]
    exact fun position hmem ↦ Nat.succ_le_succ (h.within position hmem)
  increasing := by
    rw [endIndex_cons_of_ne hkind, List.pairwise_map]
    exact h.increasing.imp fun hlt ↦ by omega

/-- A fault at a token that is passed comes first. -/
theorem fault {error : SyntaxError} (h : InOrder tokens errors positions)
    (hkind : error.token.kind ≠ .eof) :
    InOrder (error.token :: tokens) (error :: errors) (0 :: positions.map (· + 1)) where
  located := by
    rw [List.map_cons, List.map_cons, (h.pass hkind).located]
    rfl
  within := List.forall_mem_cons.mpr ⟨Nat.zero_le _, (h.pass hkind).within⟩
  increasing := by
    refine .cons ?_ (h.pass hkind).increasing
    rw [List.forall_mem_map]
    exact fun position _ ↦ .inl (Nat.succ_pos position)

/-- A fault at the mark of the end comes first and leaves the mark where it is. -/
theorem faultAtEnd {error : SyntaxError} (h : InOrder (error.token :: tokens) errors positions)
    (hkind : error.token.kind = .eof) :
    InOrder (error.token :: tokens) (error :: errors) (0 :: positions) where
  located := by
    rw [List.map_cons, List.map_cons, h.located]
    rfl
  within := List.forall_mem_cons.mpr ⟨Nat.zero_le _, h.within⟩
  increasing := by
    refine .cons (fun position hmem ↦ .inr ?_) h.increasing
    have hle := h.within position hmem
    rw [endIndex_cons_of_eq hkind] at hle ⊢
    exact ⟨rfl, Nat.le_zero.mp hle⟩

end InOrder

/-- What is met on a way is met in order. -/
theorem Walk.inOrder {tokens rest : List Token} {found : List SyntaxError}
    (h : Walk tokens found rest) : ∃ positions, InOrder tokens found positions := by
  induction h with
  | stay => exact ⟨[], rfl, nofun, .nil⟩
  | pass hkind _ ih =>
    obtain ⟨positions, hpositions⟩ := ih
    exact ⟨_, hpositions.pass hkind⟩
  | fault hkind _ ih =>
    obtain ⟨positions, hpositions⟩ := ih
    exact ⟨_, hpositions.fault hkind⟩
  | faultAtEnd hkind _ ih =>
    obtain ⟨positions, hpositions⟩ := ih
    exact ⟨_, hpositions.faultAtEnd hkind⟩

/-- The faults along a trail are in order, and there are no more of them than tokens before the end.
-/
theorem Trail.inOrder {tokens : List Token} {last : Progress} (h : Trail 0 ⟨tokens, []⟩ last) :
    (∃ positions, InOrder tokens last.errors.reverse positions) ∧
      last.errors.reverse.length ≤ endIndex tokens := by
  have hlength := length_le_endIndex h.took
  obtain ⟨found, herrors, hwalk, hbound⟩ := h
  rw [herrors, List.append_nil, List.reverse_reverse]
  refine ⟨hwalk.inOrder, ?_⟩
  rcases hbound with rfl | hbound
  · exact Nat.zero_le _
  · dsimp only at hbound hlength
    omega

/-- The faults in the form of any token list. -/
theorem parse_inOrder (levels : Nat) (tokens : List Token) :
    (∃ positions, InOrder tokens (parse levels tokens).errors positions) ∧
      (parse levels tokens).errors.length ≤ endIndex tokens := by
  obtain ⟨result, -, hreports, hyields⟩ :=
    program_loops levels [] ⟨tokens, []⟩ (Nat.le_refl tokens.length) (Nat.le_refl tokens.length)
  cases result with
  | ok trees last =>
    have herrors : (parse levels tokens).errors = last.errors.reverse :=
      congrArg Parsed.errors hreports
    rw [herrors]
    exact hyields.1.inOrder
  | error cause last =>
    have herrors : (parse levels tokens).errors = last.errors.reverse := hreports.1
    rw [herrors]
    exact hyields.1.inOrder

/-! ## Offsets -/

/-- The tokens of a source are in the order of their offsets. -/
theorem offsets_increase (source : String) :
    (scan source).tokens.Pairwise fun first second ↦ first.offset < second.offset := by
  have htiled := tiled source.toList
  rw [scan_tokens, List.pairwise_append]
  refine ⟨?_, List.pairwise_singleton _ _, fun token hmem mark hmark ↦ ?_⟩
  · apply htiled.tokens_ordered.imp_of_mem
    intro first second hfirst hsecond hle
    obtain ⟨hoffset, hlies, -⟩ := htiled.token first hfirst
    obtain ⟨hoffset', -, -⟩ := htiled.token second hsecond
    have := hlies.nonempty
    omega
  · obtain ⟨hoffset, hlies, -⟩ := htiled.token token hmem
    have := hlies.nonempty
    have := hlies.inside
    rw [List.mem_singleton.mp hmark]
    simp only [Mark.endToken, Mark.after, Mark.start]
    omega

theorem kind_of_endIndex {tokens : List Token} {mark : Token}
    (h : tokens[endIndex tokens]? = some mark) : mark.kind = .eof := by
  obtain ⟨hlt, rfl⟩ := List.getElem?_eq_some_iff.mp h
  have hfound : decide (tokens[endIndex tokens].kind = .eof) = true :=
    List.findIdx_getElem (p := fun token : Token ↦ decide (token.kind = .eof))
  exact of_decide_eq_true hfound

/-- The mark of the end is the last token of a source and lies behind all characters. -/
theorem offset_of_kind_eof {source : String} {mark : Token} (h : mark ∈ (scan source).tokens)
    (hkind : mark.kind = .eof) : mark.offset = source.length := by
  rw [scan_tokens, List.mem_append, List.mem_singleton] at h
  rcases h with hmem | rfl
  · exact absurd hkind (kind_ne_eof hmem)
  · simp [Mark.endToken, Mark.after, Mark.start, String.length_toList]

/-- Where tokens are in the order of their offsets, so are faults. -/
theorem InOrder.offsets {tokens : List Token} {errors : List SyntaxError} {positions : List Nat}
    (h : InOrder tokens errors positions)
    (htokens : tokens.Pairwise fun first second ↦ first.offset < second.offset) :
    errors.Pairwise fun first second ↦ first.token.offset < second.token.offset ∨
      tokens[endIndex tokens]? = some first.token ∧
        tokens[endIndex tokens]? = some second.token := by
  have hplaces : (positions.map (tokens[·]?)).Pairwise fun first second ↦
      ∀ a b, first = some a → second = some b → a.offset < b.offset ∨
        tokens[endIndex tokens]? = some a ∧ tokens[endIndex tokens]? = some b := by
    rw [List.pairwise_map]
    apply h.increasing.imp
    rintro p q (hlt | ⟨rfl, rfl⟩) a b ha hb
    · obtain ⟨hp, rfl⟩ := List.getElem?_eq_some_iff.mp ha
      obtain ⟨hq, rfl⟩ := List.getElem?_eq_some_iff.mp hb
      exact .inl (List.pairwise_iff_getElem.mp htokens p q hp hq hlt)
    · exact .inr ⟨ha, hb⟩
  rw [← h.located, List.pairwise_map] at hplaces
  exact hplaces.imp fun hpair ↦ hpair _ _ rfl rfl

/-- Faults come in order and are bounded.  In any token list they are located at tokens in
increasing positions up to the first mark of the end, where several of them may be, and there are at
most as many as tokens before that mark.  In a source their offsets increase likewise, except that
several may be at its end. -/
theorem faults_come_in_order (levels : Nat) :
    (∀ tokens, (∃ positions, InOrder tokens (parse levels tokens).errors positions) ∧
      (parse levels tokens).errors.length ≤ endIndex tokens) ∧
    ∀ source : String, (parse levels (scan source).tokens).errors.Pairwise
      fun first second : SyntaxError ↦ first.token.offset < second.token.offset ∨
        first.token.offset = source.length ∧ second.token.offset = source.length := by
  refine ⟨parse_inOrder levels, fun source ↦ ?_⟩
  have hmark {token : Token}
      (h : (scan source).tokens[endIndex (scan source).tokens]? = some token) :
      token.offset = source.length :=
    offset_of_kind_eof (List.mem_of_getElem? h) (kind_of_endIndex h)
  obtain ⟨⟨positions, horder⟩, -⟩ := parse_inOrder levels (scan source).tokens
  apply (horder.offsets (offsets_increase source)).imp
  rintro first second (hlt | ⟨hfirst, hsecond⟩)
  · exact .inl hlt
  · exact .inr ⟨hmark hfirst, hmark hsecond⟩

/-- In `{ = ; {` there is one fault in the middle, and at the end one for each missing brace. -/
example :
    let sign (kind : Kind) (offset : Int) : Token := ⟨kind, kind.mark, .nil, 1, offset⟩
    let tokens := [sign .leftBrace 0, sign .equal 2, sign .semicolon 4, sign .leftBrace 6,
      sign .eof 7]
    (parse 20 tokens).errors.map (·.token.offset) = [2, 7, 7] := by
  rfl

end Lox.Parser
