import Lox.Proofs.Parse.Advance
import Lox.Proofs.Parse.Exactness

/-!
# The trail of faults

Statements and declarations advance as expressions do, past everything but the mark of the end, and
leave a trail of faults behind them.  A fault is recorded and then passed, so that the next one is
located behind it; only the mark of the end can be at fault more than once.  Still there are never
more faults than tokens taken, because a statement takes a token before another one begins inside
it.
-/

namespace Lox.Parser

open Stateful Grammar

/-! ## Faults on the way -/

theorem took_tail {token : Token} (hkind : token.kind ≠ .eof) (rest : List Token) :
    Took [.eof] (token :: rest) rest :=
  .cons (by simpa using hkind) (.refl _)

/-- On the way from `tokens` to `rest` the faults in `found` are met, in this order. -/
inductive Walk : (tokens : List Token) → (found : List SyntaxError) → (rest : List Token) →
    Prop where
  | stay {tokens : List Token} : Walk tokens [] tokens
  | pass {token : Token} {tokens rest : List Token} {found : List SyntaxError} :
      token.kind ≠ .eof → Walk tokens found rest → Walk (token :: tokens) found rest
  | fault {error : SyntaxError} {tokens rest : List Token} {found : List SyntaxError} :
      error.token.kind ≠ .eof → Walk tokens found rest →
      Walk (error.token :: tokens) (error :: found) rest
  | faultAtEnd {error : SyntaxError} {tokens rest : List Token} {found : List SyntaxError} :
      error.token.kind = .eof → Walk (error.token :: tokens) found rest →
      Walk (error.token :: tokens) (error :: found) rest

namespace Walk

variable {tokens rest after : List Token} {found others : List SyntaxError}

/-- Where no fault is met, a walk only takes tokens. -/
theorem of_took (h : Took [.eof] tokens rest) : Walk tokens [] rest := by
  obtain ⟨taken, rfl, htaken⟩ := h
  induction taken with
  | nil => exact .stay
  | cons token taken ih =>
    obtain ⟨hkind, htaken⟩ := List.forall_mem_cons.mp htaken
    exact .pass (by simpa using hkind) (ih htaken)

theorem took (h : Walk tokens found rest) : Took [.eof] tokens rest := by
  induction h with
  | stay => exact .refl _
  | pass hkind _ ih => exact (took_tail hkind _).trans ih
  | fault hkind _ ih => exact (took_tail hkind _).trans ih
  | faultAtEnd _ _ ih => exact ih

/-- Walks are put together, and so are the faults met on them. -/
theorem trans (h : Walk tokens found rest) (h' : Walk rest others after) :
    Walk tokens (found ++ others) after := by
  induction h with
  | stay => exact h'
  | pass hkind _ ih => exact .pass hkind (ih h')
  | fault hkind _ ih => exact .fault hkind (ih h')
  | faultAtEnd hkind _ ih => exact .faultAtEnd hkind (ih h')

end Walk

/-- From `before` to `after` faults were met on the way and recorded.  If there were any, `spare`
more tokens were taken than there are of them. -/
def Trail (spare : Nat) (before after : Progress) : Prop :=
  ∃ found, after.errors = found.reverse ++ before.errors ∧ Walk before.rest found after.rest ∧
    (found = [] ∨ found.length + after.rest.length + spare ≤ before.rest.length)

namespace Trail

variable {spare : Nat} {before mid after : Progress}

theorem of_took (htook : Took [.eof] before.rest after.rest)
    (herrors : after.errors = before.errors) : Trail spare before after :=
  ⟨[], herrors, .of_took htook, .inl rfl⟩

theorem refl (progress : Progress) : Trail spare progress progress :=
  of_took (.refl _) rfl

theorem took (h : Trail spare before after) : Took [.eof] before.rest after.rest := by
  obtain ⟨_, -, hwalk, -⟩ := h
  exact hwalk.took

/-- Trails are put together. -/
theorem trans (h : Trail spare before mid) (h' : Trail spare mid after) :
    Trail spare before after := by
  have hbefore := h.took.length_le
  have hafter := h'.took.length_le
  obtain ⟨found, herrors, hwalk, hbound⟩ := h
  obtain ⟨others, herrors', hwalk', hbound'⟩ := h'
  refine ⟨found ++ others, by simp [herrors, herrors'], hwalk.trans hwalk', ?_⟩
  rw [List.length_append, List.append_eq_nil_iff]
  rcases hbound with rfl | hbound <;> rcases hbound' with rfl | hbound'
  · exact .inl ⟨rfl, rfl⟩
  · exact .inr (by simp only [List.length_nil]; omega)
  · exact .inr (by simp only [List.length_nil]; omega)
  · exact .inr (by omega)

theorem forget (h : Trail (spare + 1) before after) : Trail spare before after := by
  obtain ⟨found, herrors, hwalk, hbound⟩ := h
  exact ⟨found, herrors, hwalk, hbound.imp_right fun hbound ↦ by omega⟩

/-- A token taken before is one to spare. -/
theorem cons {token : Token} {rest : List Token} {errors : List SyntaxError}
    (hkind : token.kind ≠ .eof) (h : Trail spare ⟨rest, errors⟩ after) :
    Trail (spare + 1) ⟨token :: rest, errors⟩ after := by
  obtain ⟨found, herrors, hwalk, hbound⟩ := h
  refine ⟨found, herrors, .pass hkind hwalk, hbound.imp_right fun hbound ↦ ?_⟩
  exact Nat.succ_le_succ hbound

end Trail

/-- An obstacle was met between `before` and `after`, and a fault among them lies on the way. -/
def Refused (spare : Nat) (before after : Progress) : Refusal → Prop
  | .invalid error => ∃ following, Trail spare before ⟨error.token :: following, after.errors⟩ ∧
      Took [.eof] (error.token :: following) after.rest
  | .interrupted cause =>
      Trail spare before after ∧ (cause ≠ .tooDeep → cause = .ranOut ∧ after.rest = [])

section

variable {spare : Nat} {before mid after : Progress} {refusal : Refusal}

/-- An obstacle met at the end of a trail was met on the way. -/
theorem Trail.refused (h : Trail spare before mid) (hrefused : Refused spare mid after refusal) :
    Refused spare before after refusal :=
  match refusal, hrefused with
  | .invalid _, ⟨following, htrail, htook⟩ => ⟨following, h.trans htrail, htook⟩
  | .interrupted _, ⟨htrail, hnil⟩ => ⟨h.trans htrail, hnil⟩

theorem Refused.forget (h : Refused (spare + 1) before after refusal) :
    Refused spare before after refusal :=
  match refusal, h with
  | .invalid _, ⟨following, htrail, htook⟩ => ⟨following, htrail.forget, htook⟩
  | .interrupted _, ⟨htrail, hnil⟩ => ⟨htrail.forget, hnil⟩

theorem Refused.cons {token : Token} {rest : List Token} {errors : List SyntaxError}
    (hkind : token.kind ≠ .eof) (h : Refused spare ⟨rest, errors⟩ after refusal) :
    Refused (spare + 1) ⟨token :: rest, errors⟩ after refusal :=
  match refusal, h with
  | .invalid _, ⟨following, htrail, htook⟩ => ⟨following, htrail.cons hkind, htook⟩
  | .interrupted _, ⟨htrail, hnil⟩ => ⟨htrail.cons hkind, hnil⟩

theorem Refused.of_located (h : Located [.eof] before.rest after.rest refusal)
    (herrors : after.errors = before.errors) : Refused spare before after refusal :=
  match refusal, h with
  | .invalid _, ⟨following, hbefore, hafter⟩ => ⟨following, .of_took hbefore herrors, hafter⟩
  | .interrupted _, ⟨htook, hnil⟩ => ⟨.of_took htook herrors, hnil⟩

end

/-! ## Parsers of statements -/

/-- The same progress with tokens behind it and with older faults. -/
def beside (behind : List Token) (older : List SyntaxError) (progress : Progress) : Progress :=
  ⟨progress.rest ++ behind, progress.errors ++ older⟩

/-- `p` and `q` end alike and leave a trail. -/
abbrev Proceeds {α : Type} (spare : Nat) (behind : List Token) (older : List SyntaxError)
    (p q : StmtParser α) (progress : Progress) : Prop :=
  Abreast (beside behind older) (fun _ after ↦ Trail spare progress after)
    (fun refusal after ↦ Refused spare progress after refusal) p q progress

/-- Likewise, and on success at least one token has been taken. -/
abbrev Completes (behind : List Token) (older : List SyntaxError) (p q : StmtParser Stmt)
    (progress : Progress) : Prop :=
  Abreast (beside behind older)
    (fun _ after ↦ Trail 1 progress after ∧ after.rest.length < progress.rest.length)
    (fun refusal after ↦ Refused 1 progress after refusal) p q progress

/-- Likewise for declarations, which recover from faults. -/
abbrev Recovers (behind : List Token) (older : List SyntaxError) (p q : DeclParser (Option Stmt))
    (progress : Progress) : Prop :=
  Abreast (beside behind older)
    (fun _ after ↦ Trail 0 progress after ∧ after.rest.length < progress.rest.length)
    (fun cause after ↦
      Trail 0 progress after ∧ (cause ≠ .tooDeep → cause = .ranOut ∧ after.rest = []))
    p q progress

/-- Two parsers of statements end alike wherever they may be run. -/
abbrev StatementsAlike (behind : List Token) (older : List SyntaxError) (size size' : Nat)
    (p q : StmtParser Stmt) : Prop :=
  ∀ progress : Progress, Ready [.eof] behind size size' progress.rest →
    Completes behind older p q progress

abbrev DeclarationsAlike (behind : List Token) (older : List SyntaxError) (size size' : Nat)
    (p q : DeclParser (Option Stmt)) : Prop :=
  ∀ progress : Progress, Ready [.eof] behind size size' progress.rest →
    atEnd progress.rest = false → Recovers behind older p q progress

section

variable {α β : Type} {spare : Nat} {behind : List Token} {older : List SyntaxError}
  {size size' : Nat} {progress : Progress}

/-- Parsers leave trails step by step. -/
theorem Proceeds.bind {p q : StmtParser α} {next next' : α → StmtParser β}
    (h : Proceeds spare behind older p q progress)
    (hnext : ∀ a after, Trail spare progress after →
      Proceeds spare behind older (next a) (next' a) after) :
    Proceeds spare behind older (p >>= next) (q >>= next') progress :=
  Abreast.bind h fun a after htrail ↦ (hnext a after htrail).imp (fun _ _ h ↦ htrail.trans h)
    fun _ _ h ↦ htrail.refused h

theorem Completes.proceeds {p q : StmtParser Stmt} (h : Completes behind older p q progress) :
    Proceeds 0 behind older p q progress :=
  h.imp (fun _ _ h ↦ h.1.forget) fun _ _ h ↦ h.forget

/-- What follows a token that has been taken completes a statement. -/
theorem Proceeds.completes {p q : StmtParser Stmt} {token : Token} {rest : List Token}
    {errors : List SyntaxError} (h : Proceeds 0 behind older p q ⟨rest, errors⟩)
    (hkind : token.kind ≠ .eof) :
    Abreast (beside behind older)
      (fun _ after ↦ Trail 1 ⟨token :: rest, errors⟩ after ∧
        after.rest.length < (token :: rest).length)
      (fun refusal after ↦ Refused 1 ⟨token :: rest, errors⟩ after refusal) p q ⟨rest, errors⟩ :=
  h.imp (fun _ _ htrail ↦ ⟨htrail.cons hkind, Nat.lt_succ_of_le htrail.took.length_le⟩)
    fun _ _ hrefused ↦ hrefused.cons hkind

/-- A parser without faults to record behaves as before when it is lifted. -/
theorem lift_abreast {good : α → List Token → Prop} {bad : Refusal → List Token → Prop}
    {p q : Parser α} (h : Abreast (· ++ behind) good bad p q progress.rest) :
    Abreast (beside behind older)
      (fun a after ↦ good a after.rest ∧ after.errors = progress.errors)
      (fun refusal after ↦ bad refusal after.rest ∧ after.errors = progress.errors)
      (lift p) (lift q) progress := by
  have hsame := h.same
  have hyields := h.yields
  cases hp : p progress.rest with
  | ok a rest =>
    rw [hp] at hsame hyields
    have hq : lift q (beside behind older progress) = .ok a (beside behind older ⟨rest, _⟩) :=
      lift_of_ok hsame _
    exact .of_ok (lift_of_ok hp _) hq ⟨hyields, rfl⟩
  | error refusal rest =>
    rw [hp] at hsame hyields
    have hq : lift q (beside behind older progress) =
        .error refusal (beside behind older ⟨rest, progress.errors⟩) := by
      unfold lift beside
      simp only [hsame, image, id]
    exact .of_error (by simp only [lift, hp]) hq ⟨hyields, rfl⟩

theorem lift_proceeds {p q : Parser α} (h : Advances [.eof] behind p q progress.rest) :
    Proceeds spare behind older (lift p) (lift q) progress :=
  (lift_abreast h).imp (fun _ _ h ↦ .of_took h.1 h.2) fun _ _ h ↦ .of_located h.1 h.2

/-- What a semicolon closes is complete. -/
theorem lift_completes {p q : Parser Stmt} (h : Closes [.eof] behind p q progress.rest) :
    Completes behind older (lift p) (lift q) progress := by
  refine (lift_abreast h).imp ?_ fun _ _ h ↦ .of_located h.1 h.2
  rintro _ after ⟨⟨semicolon, hkind, htook⟩, herrors⟩
  have hsemicolon := took_tail (by simp [hkind] : semicolon.kind ≠ .eof) after.rest
  exact ⟨.of_took (htook.trans hsemicolon) herrors, htook.length_le⟩

/-- Two ways of going on, the first after a token of the kind `kind`. -/
theorem ite_accepts_abreast {stops : List Kind} {kind : Kind} {good : α → Progress → Prop}
    {bad : Refusal → Progress → Prop} {yes yes' no no' : StmtParser α} {tokens : List Token}
    {errors : List SyntaxError} (h : Ready stops behind size size' tokens)
    (hyes : ∀ token rest, tokens = token :: rest → token.kind = kind →
      Abreast (beside behind older) good bad yes yes' ⟨rest, errors⟩)
    (hno : Abreast (beside behind older) good bad no no' ⟨tokens, errors⟩) :
    Abreast (beside behind older) good bad
      (lift (accepts kind) >>= fun answer ↦ if answer = true then yes else no)
      (lift (accepts kind) >>= fun answer ↦ if answer = true then yes' else no')
      ⟨tokens, errors⟩ := by
  by_cases hnext : nextKind? tokens = some kind
  · obtain ⟨token, rest, rfl, heq⟩ := exists_cons_of_nextKind? hnext
    exact .of_steps (ite_of_true (lift_of_ok (accepts_cons heq rest) _) _ _)
      (ite_of_true (lift_of_ok (accepts_cons heq (rest ++ behind)) _) _ _) (hyes token rest rfl heq)
  · have hnext' : nextKind? (tokens ++ behind) ≠ some kind := h.nextKind?_append ▸ hnext
    exact .of_steps (ite_of_false (lift_of_ok (accepts_of_ne hnext) _) _ _)
      (ite_of_false (lift_of_ok (accepts_of_ne hnext') _) _ _) hno

theorem elseBranch_proceeds {p q : StmtParser Stmt}
    (hbranch : StatementsAlike behind older size size' p q)
    (h : Ready [.eof] behind size size' progress.rest) :
    Proceeds 0 behind older (elseBranch p) (elseBranch q) progress := by
  obtain ⟨tokens, errors⟩ := progress
  refine ite_accepts_abreast h ?_ (.pure (.refl _))
  rintro token rest rfl hkind
  have htook := took_tail (by simp [hkind] : token.kind ≠ .eof) rest
  have hbefore : Trail 0 ⟨token :: rest, errors⟩ ⟨rest, errors⟩ := .of_took htook rfl
  have hproceeds := (hbranch ⟨rest, errors⟩ (h.took htook)).proceeds
  have hafter := hproceeds.imp (fun _ _ h ↦ hbefore.trans h) fun _ _ h ↦ hbefore.refused h
  exact hafter.map fun _ _ h ↦ h

end

/-! ## Recovering -/

section

variable {behind : List Token} {older : List SyntaxError} {size size' : Nat} {tokens : List Token}

theorem length_pos_of_atEnd_eq_false (h : atEnd tokens = false) : 0 < tokens.length := by
  match tokens with
  | [] => cases h
  | _ :: _ => exact Nat.succ_pos _

/-- Skipping stops before what is appended. -/
theorem skippedFrom_append (passed : Token) (h : Ready [.eof] behind size size' tokens) :
    skippedFrom passed (tokens ++ behind) = skippedFrom passed tokens ++ behind := by
  induction tokens generalizing passed with
  | nil =>
    obtain rfl := h.eq_nil
    rfl
  | cons _ rest ih =>
    rw [List.cons_append]
    unfold skippedFrom
    split
    · rfl
    · rename_i hgo
      exact ih _ (h.took (took_tail (not_or.mp hgo).1 rest))

theorem skipped_append (h : Ready [.eof] behind size size' tokens) :
    skipped (tokens ++ behind) = skipped tokens ++ behind := by
  match tokens with
  | [] =>
    obtain rfl := h.eq_nil
    rfl
  | _ :: rest =>
    simp only [List.cons_append, skipped]
    split
    · rfl
    · rename_i hkind
      exact skippedFrom_append _ (h.took (took_tail hkind rest))

theorem took_lasting (tokens : List Token) :
    Lasting (fun rest ↦ Took [.eof] tokens rest) fun _ ↦ True where
  step _ rest hkind h := h.trans (took_tail hkind rest)
  invalid _ := trivial
  tooDeep := trivial
  ranOut _ := trivial

theorem took_skipped (tokens : List Token) : Took [.eof] tokens (skipped tokens) :=
  ahead_skipped (took_lasting tokens) (.refl _)

/-- The mark of the end is never taken. -/
theorem Took.eq_of_eof {token : Token} {following rest : List Token} (hkind : token.kind = .eof)
    (h : Took [.eof] (token :: following) rest) : token :: following = rest := by
  obtain ⟨taken, heq, htaken⟩ := h
  match taken with
  | [] => exact heq
  | first :: taken =>
    obtain ⟨rfl, -⟩ := List.cons.inj heq
    exact absurd hkind (by simpa using htaken _ (List.mem_cons_self ..))

/-- What has come to the mark of the end from before it has taken something. -/
theorem Took.length_lt_of_eof {token : Token} {following : List Token}
    (h : Took [.eof] tokens (token :: following)) (hgo : atEnd tokens = false)
    (hkind : token.kind = .eof) : (token :: following).length < tokens.length := by
  obtain ⟨taken, rfl, -⟩ := h
  match taken with
  | [] => simp [atEnd, hkind] at hgo
  | first :: taken =>
    simp only [List.length_append, List.length_cons]
    omega

/-- A fault that has been come across is passed, unless it is one of the mark of the end. -/
theorem took_skipped_of_took {token : Token} {following rest : List Token}
    (hkind : token.kind ≠ .eof) (h : Took [.eof] (token :: following) rest) :
    Took [.eof] following (skipped rest) := by
  obtain ⟨taken, heq, htaken⟩ := h
  match taken with
  | [] =>
    obtain rfl : token :: following = rest := heq
    rw [skipped, if_neg hkind]
    exact ahead_skippedFrom (took_lasting following) (.refl _)
  | first :: taken =>
    obtain ⟨-, rfl⟩ := List.cons.inj heq
    exact Took.trans ⟨taken, rfl, (List.forall_mem_cons.mp htaken).2⟩ (took_skipped rest)

/-- A fault is recorded where it lies on the way, and what is left of the declaration is skipped. -/
theorem Trail.record {before : Progress} {error : SyntaxError} {following rest : List Token}
    {errors : List SyntaxError} (h : Trail 1 before ⟨error.token :: following, errors⟩)
    (htook : Took [.eof] (error.token :: following) rest) (hgo : atEnd before.rest = false) :
    Trail 0 before ⟨skipped rest, error :: errors⟩ ∧
      (skipped rest).length < before.rest.length := by
  suffices hfound : ∃ found, errors = found.reverse ++ before.errors ∧
      Walk before.rest (found ++ [error]) (skipped rest) ∧
      found.length + 1 + (skipped rest).length ≤ before.rest.length by
    obtain ⟨found, rfl, hwalk, hbound⟩ := hfound
    refine ⟨⟨found ++ [error], by simp, hwalk, .inr ?_⟩, by omega⟩
    rw [List.length_append]
    exact hbound
  have hbefore := h.took
  obtain ⟨found, herrors, hwalk, hbound⟩ := h
  refine ⟨found, herrors, ?_⟩
  by_cases hkind : error.token.kind = .eof
  · -- The mark of the end is not skipped, but something has been taken before it.
    obtain rfl := htook.eq_of_eof hkind
    have hless := hbefore.length_lt_of_eof hgo hkind
    have hskip : skipped (error.token :: following) = error.token :: following := if_pos hkind
    rw [hskip]
    refine ⟨hwalk.trans (.faultAtEnd hkind .stay), ?_⟩
    rcases hbound with rfl | hbound
    · rw [List.length_nil]
      omega
    · dsimp only at hbound
      omega
  · have hskipped := took_skipped_of_took hkind htook
    refine ⟨hwalk.trans (.fault hkind (.of_took hskipped)), ?_⟩
    have hlength := hskipped.length_le
    have hlength' := hbefore.length_le
    simp only [List.length_cons] at hlength' hbound
    rcases hbound with rfl | hbound
    · rw [List.length_nil]
      omega
    · omega

theorem recover_of_invalid {p : StmtParser Stmt} {before after : Progress} {error : SyntaxError}
    (h : p before = .error (.invalid error) after) :
    recover p before = .ok none ⟨skipped after.rest, error :: after.errors⟩ := by
  simp only [recover_eq, h]

theorem recover_of_interrupted {p : StmtParser Stmt} {before after : Progress}
    {cause : Interruption} (h : p before = .error (.interrupted cause) after) :
    recover p before = .error cause after := by
  simp only [recover_eq, h]

/-- A fault is recorded and what is left of the declaration skipped, so that one more token is taken
than there are faults. -/
theorem recover_recovers {p q : StmtParser Stmt} {progress : Progress}
    (h : Completes behind older p q progress)
    (hready : Ready [.eof] behind size size' progress.rest) (hgo : atEnd progress.rest = false) :
    Recovers behind older (recover p) (recover q) progress := by
  have hsame := h.same
  have hyields := h.yields
  cases hp : p progress with
  | ok stmt after =>
    rw [hp] at hsame hyields
    exact .of_ok (recover_of_ok hp) (recover_of_ok hsame) ⟨hyields.1.forget, hyields.2⟩
  | error refusal after =>
    rw [hp] at hsame hyields
    cases refusal with
    | invalid error =>
      obtain ⟨following, htrail, htook⟩ := hyields
      have hskip := skipped_append (hready.took (htrail.took.trans htook))
      refine .of_ok (recover_of_invalid hp) ?_ (htrail.record htook hgo)
      rw [recover_of_invalid hsame]
      simp only [beside, hskip, List.cons_append]
    | interrupted cause =>
      exact .of_error (recover_of_interrupted hp) (recover_of_interrupted hsame)
        ⟨hyields.1.forget, hyields.2⟩

end

/-! ## Blocks -/

def closed (tokens : List Token) : Bool :=
  atEnd tokens || tokens.head?.any (·.kind = .rightBrace)

section

variable {behind : List Token} {older : List SyntaxError} {size size' : Nat}

theorem Ready.atEnd_append {tokens : List Token} (h : Ready [.eof] behind size size' tokens) :
    atEnd (tokens ++ behind) = atEnd tokens := by
  match tokens with
  | [] => rw [h.eq_nil, List.append_nil]
  | token :: rest => rfl

theorem Ready.closed_append {tokens : List Token} (h : Ready [.eof] behind size size' tokens) :
    closed (tokens ++ behind) = closed tokens := by
  match tokens with
  | [] => rw [h.eq_nil, List.append_nil]
  | token :: rest => rfl

theorem declarations_of_closed {progress : Progress} (h : closed progress.rest = true)
    (declaration : DeclParser (Option Stmt)) (count : Nat) (body : List Stmt) :
    declarations declaration count body progress = .ok body.reverse progress := by
  match count with
  | 0 => rfl
  | count + 1 => exact if_pos h

theorem declarations_of_ok {declaration : DeclParser (Option Stmt)} {progress after : Progress}
    {result : Option Stmt} (h : closed progress.rest = false)
    (hread : declaration progress = .ok result after) (count : Nat) (body : List Stmt) :
    declarations declaration (count + 1) body progress =
      declarations declaration count (result.toList ++ body) after := by
  refine (if_neg (Bool.eq_false_iff.mp h)).trans ?_
  rw [hread]
  cases result <;> rfl

theorem declarations_of_error {declaration : DeclParser (Option Stmt)} {progress after : Progress}
    {cause : Interruption} (h : closed progress.rest = false)
    (hread : declaration progress = .error cause after) (count : Nat) (body : List Stmt) :
    declarations declaration (count + 1) body progress = .error (.interrupted cause) after := by
  refine (if_neg (Bool.eq_false_iff.mp h)).trans ?_
  rw [hread]

/-- Declarations are read alike, and leave trails, until a block ends. -/
theorem declarations_proceeds {d d' : DeclParser (Option Stmt)}
    (hd : DeclarationsAlike behind older size size' d d') {count count' : Nat} (body : List Stmt)
    {progress : Progress} (h : Ready [.eof] behind size size' progress.rest)
    (hcount : Ready [.eof] behind count count' progress.rest) :
    Proceeds 0 behind older (declarations d count body) (declarations d' count' body) progress := by
  induction count generalizing count' body progress with
  | zero =>
    have hnil := List.eq_nil_of_length_eq_zero (Nat.le_zero.mp hcount.fits)
    have hclosed : closed (progress.rest ++ behind) = true := by
      rw [h.closed_append, hnil]
      rfl
    exact .of_ok rfl (declarations_of_closed hclosed d' count' body) (.refl _)
  | succ count ih =>
    cases hclosed : closed progress.rest with
    | true =>
      exact .of_ok (declarations_of_closed hclosed d _ body)
        (declarations_of_closed (h.closed_append.trans hclosed) d' count' body) (.refl _)
    | false =>
      have hgo : atEnd progress.rest = false := (Bool.or_eq_false_iff.mp hclosed).1
      have hclosed' : closed (beside behind older progress).rest = false :=
        h.closed_append.trans hclosed
      obtain ⟨count', rfl⟩ : ∃ below, count' = below + 1 := by
        have := hcount.fits'
        have := length_pos_of_atEnd_eq_false hgo
        exact ⟨count' - 1, by omega⟩
      have hsame := (hd progress h hgo).same
      have hyields := (hd progress h hgo).yields
      cases hfirst : d progress with
      | ok result after =>
        rw [hfirst] at hsame hyields
        obtain ⟨htrail, hless⟩ := hyields
        have hrest := ih (result.toList ++ body) (h.took htrail.took)
          (hcount.less htrail.took hless)
        exact .of_steps (declarations_of_ok hclosed hfirst count body)
          (declarations_of_ok hclosed' hsame count' body)
          (hrest.imp (fun _ _ h ↦ htrail.trans h) fun _ _ h ↦ htrail.refused h)
      | error cause after =>
        rw [hfirst] at hsame hyields
        exact .of_error (declarations_of_error hclosed hfirst count body)
          (declarations_of_error hclosed' hsame count' body) hyields

theorem blockBody_proceeds {d d' : DeclParser (Option Stmt)}
    (hd : DeclarationsAlike behind older size size' d d') {progress : Progress}
    (h : Ready [.eof] behind size size' progress.rest) :
    Proceeds 0 behind older (blockBody size d) (blockBody size' d') progress := by
  refine .bind (declarations_proceeds hd [] h h) fun body mid hmid ↦ ?_
  have hbrace := expectSymbol_advances (by decide : .rightBrace ∉ [Kind.eof]) .block
    (h.took hmid.took)
  exact .bind (lift_proceeds hbrace) fun _ _ _ ↦ .pure (.refl _)

/-! ## Declarations and statements -/

/-- A declaration is complete when what it is made of is. -/
theorem declared_completes {expr expr' : Parser Expr} {nested nested' : DeclParser (Option Stmt)}
    {other other' : StmtParser Stmt} (hexpr : Alongside [.eof] behind size size' expr expr')
    (hnested : DeclarationsAlike behind older size size' nested nested')
    (hother : StatementsAlike behind older size size' other other') :
    StatementsAlike behind older size size' (declared size expr nested other)
      (declared size' expr' nested' other') := by
  rintro ⟨tokens, errors⟩ h
  refine ite_accepts_abreast h ?_ (ite_accepts_abreast h ?_ (hother _ h))
  · rintro token rest rfl hkind
    have hne : token.kind ≠ .eof := by simp [hkind]
    have hcloses := variableDeclaration_closes (by simp) hexpr (h.took (took_tail hne rest))
    exact (lift_proceeds (hcloses.advances (by decide))).completes hne
  · rintro token rest rfl hkind
    have hne : token.kind ≠ .eof := by simp [hkind]
    have hrest := h.took (took_tail hne rest)
    refine Proceeds.completes ?_ hne
    refine .bind (lift_proceeds (functionHead_advances (by simp) hrest)) fun head mid hmid ↦ ?_
    exact .bind (blockBody_proceeds hnested (hrest.took hmid.took)) fun _ _ _ ↦ .pure (.refl _)

theorem leader_of_mem {token : Token} (h : token.kind ∈ leaders) (rest : List Token) :
    leader (token :: rest) = .ok (some token) rest := by
  simp only [leaders, List.mem_cons, List.not_mem_nil, or_false] at h
  rcases h with h | h | h | h | h | h | h <;> simp only [leader_eq, h]

theorem leader_of_ne {tokens : List Token} (h : ∀ kind ∈ leaders, nextKind? tokens ≠ some kind) :
    leader tokens = .ok none tokens := by
  match tokens with
  | [] => rfl
  | token :: rest =>
    simp only [leaders, List.forall_mem_cons, nextKind?_cons, ne_eq, Option.some.injEq] at h
    simp only [leader_eq]
    split <;> simp_all

/-- Two ways of going on, the first after a token by which a statement is recognised. -/
theorem leader_abreast {stops : List Kind} {good : Stmt → Progress → Prop}
    {bad : Refusal → Progress → Prop} {next next' : Option Token → StmtParser Stmt}
    {tokens : List Token} {errors : List SyntaxError} (h : Ready stops behind size size' tokens)
    (hled : ∀ token rest, tokens = token :: rest → token.kind ∈ leaders →
      Abreast (beside behind older) good bad (next (some token)) (next' (some token))
        ⟨rest, errors⟩)
    (hother : Abreast (beside behind older) good bad (next none) (next' none) ⟨tokens, errors⟩) :
    Abreast (beside behind older) good bad (lift leader >>= next) (lift leader >>= next')
      ⟨tokens, errors⟩ := by
  by_cases hleads : ∃ kind ∈ leaders, nextKind? tokens = some kind
  · obtain ⟨kind, hmem, hnext⟩ := hleads
    obtain ⟨token, rest, rfl, rfl⟩ := exists_cons_of_nextKind? hnext
    exact .of_steps (bind_of_ok (lift_of_ok (leader_of_mem hmem rest) errors) _)
      (bind_of_ok (lift_of_ok (leader_of_mem hmem (rest ++ behind)) _) _) (hled token rest rfl hmem)
  · have hleader : ∀ kind ∈ leaders, nextKind? tokens ≠ some kind :=
      fun kind hmem hnext ↦ hleads ⟨kind, hmem, hnext⟩
    have hleader' : ∀ kind ∈ leaders, nextKind? (tokens ++ behind) ≠ some kind :=
      h.nextKind?_append ▸ hleader
    exact .of_steps (bind_of_ok (lift_of_ok (leader_of_ne hleader) errors) _)
      (bind_of_ok (lift_of_ok (leader_of_ne hleader') _) _) hother

section

variable {expr expr' : Parser Expr} (hexpr : Alongside [.eof] behind size size' expr expr')

include hexpr in
/-- A return statement, whose fault may lie at the keyword that has been taken. -/
theorem returnStatement_completes (inside : Bool) {keyword : Token} (hkind : keyword.kind ≠ .eof)
    {rest : List Token} {errors : List SyntaxError} (h : Ready [.eof] behind size size' rest) :
    Abreast (beside behind older)
      (fun _ after ↦ Trail 1 ⟨keyword :: rest, errors⟩ after ∧
        after.rest.length < (keyword :: rest).length)
      (fun refusal after ↦ Refused 1 ⟨keyword :: rest, errors⟩ after refusal)
      (lift (returnStatement inside expr keyword)) (lift (returnStatement inside expr' keyword))
      ⟨rest, errors⟩ := by
  have hstops : keyword.kind ∉ [.eof] := by simpa using hkind
  refine Abreast.imp (lift_abreast (returnStatement_closes hexpr h inside hstops)) ?_
    fun _ _ h ↦ .of_located h.1 h.2
  rintro _ after ⟨⟨semicolon, hsemicolon, htook⟩, herrors⟩
  have hpast := htook.trans (took_tail (by simp [hsemicolon] : semicolon.kind ≠ .eof) after.rest)
  exact ⟨.of_took ((took_tail hkind rest).trans hpast) herrors, Nat.lt_succ_of_le hpast.length_le⟩

variable {body body' : StmtParser Stmt} (hbody : StatementsAlike behind older size size' body body')
  {progress : Progress} (h : Ready [.eof] behind size size' progress.rest)
include hexpr hbody h

theorem loop_proceeds (before after : Site) :
    Proceeds 0 behind older
      (lift (conditionIn before after expr) >>= fun condition ↦ body >>= fun tree ↦
        pure (Stmt.loop condition tree))
      (lift (conditionIn before after expr') >>= fun condition ↦ body' >>= fun tree ↦
        pure (Stmt.loop condition tree)) progress := by
  refine .bind (lift_proceeds (conditionIn_advances (by simp) hexpr h before after))
    fun condition mid hmid ↦ ?_
  exact .bind (hbody mid (h.took hmid.took)).proceeds fun _ _ _ ↦ .pure (.refl _)

theorem clauses_proceeds :
    Proceeds 0 behind older
      (lift (forClauses expr) >>= fun clauses ↦ body >>= fun tree ↦ pure (clauses.toLoop tree))
      (lift (forClauses expr') >>= fun clauses ↦ body' >>= fun tree ↦ pure (clauses.toLoop tree))
      progress := by
  refine .bind (lift_proceeds (forClauses_advances (by simp) hexpr h (by decide)))
    fun clauses mid hmid ↦ ?_
  exact .bind (hbody mid (h.took hmid.took)).proceeds fun _ _ _ ↦ .pure (.refl _)

theorem branch_proceeds (before after : Site) :
    Proceeds 0 behind older
      (lift (conditionIn before after expr) >>= fun condition ↦ body >>= fun yes ↦
        elseBranch body >>= fun no ↦ pure (Stmt.branch condition yes no))
      (lift (conditionIn before after expr') >>= fun condition ↦ body' >>= fun yes ↦
        elseBranch body' >>= fun no ↦ pure (Stmt.branch condition yes no)) progress := by
  refine .bind (lift_proceeds (conditionIn_advances (by simp) hexpr h before after))
    fun condition mid hmid ↦ ?_
  have hready := h.took hmid.took
  refine .bind (hbody mid hready).proceeds fun yes rest hrest ↦ ?_
  exact .bind (elseBranch_proceeds hbody (hready.took hrest.took)) fun _ _ _ ↦ .pure (.refl _)

end

/-- Declarations and statements, by induction on the levels that may be opened. -/
theorem declaration_statement_alike (levels : Nat) (inside : Bool) :
    DeclarationsAlike behind older size size' (declaration size levels inside)
        (declaration size' levels inside) ∧
      StatementsAlike behind older size size' (statement size levels inside)
        (statement size' levels inside) := by
  have hexpr (levels : Nat) : Alongside [.eof] behind size size' (expression size levels .none)
      (expression size' levels .none) := expression_advances (by simp) levels .none
  induction levels using Nat.strongRecOn generalizing inside with
  | ind levels ih =>
    constructor
    · rcases levels with _ | _ | _ | levels
      iterate 3 exact fun progress _ _ ↦ .throw ⟨.refl _, fun hcause ↦ absurd rfl hcause⟩
      · intro progress h hgo
        rw [declaration_eq_recover, declaration_eq_recover]
        exact recover_recovers (declared_completes (hexpr _) (ih levels (by omega) true).1
          (ih (levels + 2) (by omega) inside).2 progress h) h hgo
    · rcases levels with _ | _ | levels
      iterate 2 exact fun progress _ ↦ .throw ⟨.refl _, fun hcause ↦ absurd rfl hcause⟩
      · obtain ⟨hdeclaration, hstatement⟩ := ih levels (by omega) inside
        rintro ⟨tokens, errors⟩ h
        rw [statement, statement]
        refine leader_abreast h ?_ (lift_completes (expressionStatement_closes (hexpr levels) h))
        rintro token rest rfl hmem
        have hne : token.kind ≠ .eof := fun heq ↦ absurd (heq ▸ hmem) (by decide)
        have hrest := h.took (took_tail hne rest)
        simp only [leaders, List.mem_cons, List.not_mem_nil, or_false] at hmem
        rcases hmem with hkind | hkind | hkind | hkind | hkind | hkind | hkind
        all_goals simp only [hkind]
        · exact Proceeds.completes (clauses_proceeds (hexpr levels) hstatement hrest) hne
        · exact Proceeds.completes (branch_proceeds (hexpr levels) hstatement hrest _ _) hne
        · have hbody : Proceeds 0 behind older (blockBody size (declaration size levels inside))
              (blockBody size' (declaration size' levels inside)) ⟨rest, errors⟩ :=
            blockBody_proceeds hdeclaration hrest
          exact Proceeds.completes (hbody.map fun _ _ htrail ↦ htrail) hne
        · have hprint := printStatement_closes (hexpr (levels + 1)) hrest
          exact Proceeds.completes (lift_proceeds (hprint.advances (by decide))) hne
        · exact returnStatement_completes (hexpr _) inside hne hrest
        · exact Proceeds.completes (loop_proceeds (hexpr levels) hstatement hrest _ _) hne
        · exact Proceeds.completes (.pure (.refl _)) hne

/-! ## Programs -/

theorem program_of_atEnd {progress : Progress} (h : atEnd progress.rest = true)
    (declaration : DeclParser (Option Stmt)) (count : Nat) (body : List Stmt) :
    program declaration count body progress = ⟨body.reverse, progress.errors.reverse, none⟩ := by
  match count with
  | 0 => rfl
  | count + 1 => exact if_pos h

theorem program_of_ok {declaration : DeclParser (Option Stmt)} {progress after : Progress}
    {result : Option Stmt} (h : atEnd progress.rest = false)
    (hread : declaration progress = .ok result after) (count : Nat) (body : List Stmt) :
    program declaration (count + 1) body progress =
      program declaration count (result.toList ++ body) after := by
  refine (if_neg (Bool.eq_false_iff.mp h)).trans ?_
  rw [hread]
  cases result <;> rfl

theorem program_of_error {declaration : DeclParser (Option Stmt)} {progress after : Progress}
    {cause : Interruption} (h : atEnd progress.rest = false)
    (hread : declaration progress = .error cause after) (count : Nat) (body : List Stmt) :
    program declaration (count + 1) body progress =
      ⟨body.reverse, after.errors.reverse, some (cause, after.rest)⟩ := by
  refine (if_neg (Bool.eq_false_iff.mp h)).trans ?_
  rw [hread]

/-- The same outcome after older trees and faults, which are given last first, and with tokens
behind what was not read. -/
def within (behind : List Token) (older : List SyntaxError) (trees : List Stmt) (parsed : Parsed) :
    Parsed where
  statements := trees.reverse ++ parsed.statements
  errors := older.reverse ++ parsed.errors
  stopped := parsed.stopped.map fun (cause, rest) ↦ (cause, rest ++ behind)

/-- With older trees and faults, and with tokens behind, a program is read as before. -/
theorem program_within {d d' : DeclParser (Option Stmt)}
    (hd : DeclarationsAlike behind older size size' d d') (trees body : List Stmt)
    (progress : Progress) {count count' : Nat} (h : Ready [.eof] behind size size' progress.rest)
    (hcount : Ready [.eof] behind count count' progress.rest) :
    program d' count' (body ++ trees) (beside behind older progress) =
      within behind older trees (program d count body progress) := by
  induction count generalizing count' body progress with
  | zero =>
    have hnil := List.eq_nil_of_length_eq_zero (Nat.le_zero.mp hcount.fits)
    have hend : atEnd (progress.rest ++ behind) = true := by
      rw [h.atEnd_append, hnil]
      rfl
    rw [program_of_atEnd hend]
    simp [program, within, beside]
  | succ count ih =>
    cases hend : atEnd progress.rest with
    | true =>
      have hend' : atEnd (beside behind older progress).rest = true := h.atEnd_append.trans hend
      rw [program_of_atEnd hend, program_of_atEnd hend']
      simp [within, beside]
    | false =>
      have hend' : atEnd (beside behind older progress).rest = false := h.atEnd_append.trans hend
      obtain ⟨count', rfl⟩ : ∃ below, count' = below + 1 := by
        have := hcount.fits'
        have := length_pos_of_atEnd_eq_false hend
        exact ⟨count' - 1, by omega⟩
      have hsame := (hd progress h hend).same
      have hyields := (hd progress h hend).yields
      cases hfirst : d progress with
      | ok result after =>
        rw [hfirst] at hsame hyields
        obtain ⟨htrail, hless⟩ := hyields
        have hrest := ih (result.toList ++ body) after (h.took htrail.took)
          (hcount.less htrail.took hless)
        rw [program_of_ok hend hfirst, program_of_ok hend' hsame, ← hrest, List.append_assoc]
        rfl
      | error cause after =>
        rw [hfirst] at hsame
        rw [program_of_error hend hfirst, program_of_error hend' hsame]
        simp [within, beside]

end

end Lox.Parser
