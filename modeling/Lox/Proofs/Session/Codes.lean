import Lox.Proofs.Session.Verdict

/-!
# Codes of runs

The faults found in a run are judged twice.  Where the run stops, a single fault of form decides the
code, whatever else was found.  In the verdict at the end a single fault of another kind decides it.
Both are the same code unless faults of both kinds were found.
-/

namespace Lox

theorem Category.isStatic_iff {category : Category} :
    category.isStatic = true ↔ category = .lexical ∨ category = .syntactic := by
  cases category <;> decide

namespace Outcome

theorem ofErrors_eq_success_iff (errors : List Diagnostic) :
    ofErrors errors = .success ↔ errors = [] := by
  constructor
  · intro h
    unfold ofErrors at h
    split at h
    · cases h
    split at h
    · cases h
    split at h
    · exact List.isEmpty_iff.mp ‹_›
    · cases h
  · rintro rfl
    rfl

/-- A fault that is not of form decides the verdict. -/
theorem exitCode_of_not_static {errors : List Diagnostic} {d : Diagnostic} (hd : d ∈ errors)
    (hgeneral : d.category ≠ .general) (hstatic : d.category.isStatic = false) :
    (ofErrors errors).exitCode = .runtimeError := by
  cases hcategory : d.category with
  | general => exact absurd hcategory hgeneral
  | lexical | syntactic =>
    rw [hcategory] at hstatic
    cases hstatic
  | overflow => rw [ofErrors_of_overflow hd hcategory, exitCode]
  | runtime =>
    have hany : errors.any (·.category == .runtime) = true :=
      List.any_eq_true.mpr ⟨d, hd, beq_iff_eq.mpr hcategory⟩
    rw [ofErrors, hany]
    split
    · rfl
    · rfl

end Outcome

/-- A fault of form decides where a run stops. -/
theorem stopCode?_of_static {errors : List Diagnostic} {d : Diagnostic} (hd : d ∈ errors)
    (hstatic : d.category.isStatic = true) : stopCode? errors = some .staticError := by
  have hempty : errors.isEmpty = false :=
    List.isEmpty_eq_false_iff.mpr (List.ne_nil_of_mem hd)
  have hany : errors.any (·.category.isStatic) = true := List.any_eq_true.mpr ⟨d, hd, hstatic⟩
  rw [stopCode?, hempty, hany]
  rfl

theorem stopCode?_of_not_static {errors : List Diagnostic} (hne : errors ≠ [])
    (h : ∀ d ∈ errors, d.category.isStatic = false) : stopCode? errors = some .runtimeError := by
  have hempty : errors.isEmpty = false := List.isEmpty_eq_false_iff.mpr hne
  have hany : errors.any (·.category.isStatic) = false := by
    rw [List.any_eq_false]
    intro d hd
    rw [h d hd]
    exact Bool.false_ne_true
  rw [stopCode?, hempty, hany]
  rfl

theorem isSome_stopCode?_iff (errors : List Diagnostic) :
    (stopCode? errors).isSome = true ↔ Outcome.ofErrors errors ≠ .success := by
  rw [Ne, Outcome.ofErrors_eq_success_iff, ← List.isEmpty_iff, stopCode?]
  split
  · simp [*]
  · split <;> simp [*]

def Mixed (errors : List Diagnostic) : Prop :=
  (∃ d ∈ errors, d.category.isStatic = true) ∧ ∃ d ∈ errors, d.category.isStatic = false

instance (errors : List Diagnostic) : Decidable (Mixed errors) :=
  inferInstanceAs (Decidable (_ ∧ _))

section

variable {errors : List Diagnostic} (h : ∀ d ∈ errors, d.category ≠ .general)
include h

/-- Both kinds together are judged in two ways. -/
theorem codes_of_mixed (hmixed : Mixed errors) :
    stopCode? errors = some .staticError ∧
      (Outcome.ofErrors errors).exitCode = .runtimeError := by
  obtain ⟨⟨d, hd, hstatic⟩, ⟨other, hother, hnot⟩⟩ := hmixed
  exact ⟨stopCode?_of_static hd hstatic,
    Outcome.exitCode_of_not_static hother (h other hother) hnot⟩

/-- Faults of one kind are judged in one way. -/
theorem stopCode?_of_not_mixed (hne : errors ≠ []) (hmixed : ¬Mixed errors) :
    stopCode? errors = some (Outcome.ofErrors errors).exitCode := by
  by_cases hstatic : ∃ d ∈ errors, d.category.isStatic = true
  · have hall : ∀ d ∈ errors, d.category.isStatic = true := by
      intro d hd
      by_contra hnot
      exact hmixed ⟨hstatic, d, hd, Bool.eq_false_iff.mpr hnot⟩
    obtain ⟨d, hd, hd'⟩ := hstatic
    have hform := Outcome.ofErrors_of_static hne fun d hd ↦ Category.isStatic_iff.mp (hall d hd)
    rw [stopCode?_of_static hd hd', hform, Outcome.exitCode]
  · have hnone : ∀ d ∈ errors, d.category.isStatic = false :=
      fun d hd ↦ Bool.eq_false_iff.mpr fun hd' ↦ hstatic ⟨d, hd, hd'⟩
    obtain ⟨d, hd⟩ := List.exists_mem_of_ne_nil errors hne
    rw [stopCode?_of_not_static hne hnone,
      Outcome.exitCode_of_not_static hd (h d hd) (hnone d hd)]

end

/-- A run stops because of the faults that were reported just if the verdict on them is that it
failed.  The code with which it stops is the one of the verdict just if faults of form and others do
not come together; if they do, the one is the code for faults of form and the other is not. -/
theorem codes_agree_iff_not_mixed (reporter : Reporter) (console : Console)
    {ds : List Diagnostic} (h : ∀ d ∈ ds, d.category ≠ .general) :
    let errors := (reporter.reset.reportAll ds console).1.errors.toList
    let verdict := Verdict.ofErrors errors
    ((stopCode? errors).isSome = true ↔ verdict.outcome ≠ .success) ∧
    ((∀ code, stopCode? errors = some code → code = verdict.outcome.exitCode) ↔ ¬Mixed ds) ∧
    (Mixed ds → stopCode? errors = some .staticError ∧
      verdict.outcome.exitCode = .runtimeError) := by
  intro errors verdict
  have herrors : errors = ds := by simp [errors, Reporter.reportAll_fst, Reporter.reset]
  have houtcome : verdict.outcome = Outcome.ofErrors ds := congrArg Outcome.ofErrors herrors
  rw [houtcome, herrors]
  refine ⟨isSome_stopCode?_iff ds, ⟨fun hagree hmixed ↦ ?_, fun hmixed code hcode ↦ ?_⟩,
    codes_of_mixed h⟩
  · obtain ⟨hstop, hexit⟩ := codes_of_mixed h hmixed
    have heq := hagree _ hstop
    rw [hexit] at heq
    cases heq
  · have hne : ds ≠ [] := by
      rintro rfl
      cases hcode
    rw [stopCode?_of_not_mixed h hne hmixed] at hcode
    exact (Option.some.inj hcode).symm

/-- A fault of execution and an overflow, reported one after the other, are of one kind. -/
theorem faults_of_execution_agree :
    let ds : List Diagnostic :=
      [{ category := .runtime, line := some 1, message := "Division by zero." }, .overflow]
    let errors := (({} : Reporter).reset.reportAll ds {}).1.errors.toList
    (∀ d ∈ ds, d.category ≠ .general) ∧ stopCode? errors = some .runtimeError ∧
      (Verdict.ofErrors errors).outcome.exitCode = .runtimeError := by
  intro ds errors
  have hgeneral : ∀ d ∈ ds, d.category ≠ .general := by decide
  have hstop : stopCode? errors = some .runtimeError := by decide
  obtain ⟨-, hagree, -⟩ := codes_agree_iff_not_mixed {} {} hgeneral
  exact ⟨hgeneral, hstop, (hagree.mpr (by decide) _ hstop).symm⟩

/-- A malformed lexeme, and then a nesting that is too deep. -/
theorem lexeme_and_nesting_disagree :
    let ds : List Diagnostic :=
      [{ category := .lexical, line := some 1, message := "Unexpected character.",
         place := "at '@'", offset := some 0 },
       { category := .overflow, line := some 1, message := nestingMessage, place := "at '('" }]
    let errors := (({} : Reporter).reset.reportAll ds {}).1.errors.toList
    (stopCode? errors).map ExitCode.code = some 65 ∧
      (Verdict.ofErrors errors).outcome.exitCode.code = 70 := by
  decide

end Lox
