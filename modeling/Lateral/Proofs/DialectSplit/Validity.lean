import Lateral.Proofs.DialectSplit.Splittable

/-!
# Splits keep plans valid

A split correlate has the row of the correlate (`Split.schema_replacement`) and is
valid where the correlate is (`Split.valid_replacement`). Where the correlate is valid
apart from its right input, the split is valid exactly when the references of the
operands are admitted (`Split.valid_replacement_of_admitted`,
`Split.admitted_of_valid_replacement`).
-/

namespace Lateral.DialectSplit.Split

open Plan

variable {settings : Settings} {correlation : Correlation} {left right : Plan}
  (split : Split settings correlation left right)

/-- A split keeps the row of the correlate. -/
theorem schema_replacement : split.replacement.schema = (Plan.correlate correlation left right).schema :=
  split.sameRow

/-- The left row with the foreign calls behind it. -/
theorem widened_eq : split.widened = ⟨Expr.fieldRefs left.schema ++
    foreignCalls split.function split.operands, settings.caseRule.uniquify
      (left.schema.names ++ extractedNames (foreignCalls split.function split.operands).length)⟩ :=
  (widening_eq_ok_iff.mp split.widens).2

/-- The widened row has a field more for each foreign call. -/
theorem length_schema_widened : split.widened.schema.length =
    left.schema.length + (foreignCalls split.function split.operands).length := by
  simp [split.widened_eq]

/-- The call of a split correlate that is valid refers to fields of the left row only. -/
theorem covered_of_valid {row : Option Schema}
    (valid : (Plan.correlate correlation left right).Valid settings.caseRule row) :
    ∀ index ∈ split.operands.flatMap Expr.references, index < left.schema.length := by
  have rightValid := (valid_correlate_iff.mp valid).2.2
  have scanValid := rightValid.scanBelow (RightSide.scanBelow?_of_ofPlan? split.ofRight)
  have covered := (valid_scan_iff.mp scanValid).1
  rw [split.isCall, Expr.references_call] at covered
  simpa using covered

/-- A split is valid whose correlate is valid apart from its right input, if the references of the
operands are admitted. -/
theorem valid_replacement_of_admitted {row : Option Schema}
    (fits : correlation.Fits settings.caseRule left.schema right.schema)
    (leftValid : left.Valid settings.caseRule row)
    (admitted : Admitted left.schema split.function split.operands) :
    split.replacement.Valid settings.caseRule row := by
  have sameRow : split.narrowed.schema = correlation.schema left.schema right.schema :=
    split.sameRow
  have narrowedFits : split.narrowed.Fits settings.caseRule split.newCorrelate.schema := by
    refine ⟨?_, ?_, sameRow ▸ fits.distinct⟩
    · have widths := congrArg List.length sameRow
      simpa [narrowed, narrowing] using widths.symm
    · intro expression member
      have isRef : expression ∈ Expr.fieldRefs split.newCorrelate.schema := by
        rcases List.mem_append.mp member with member | member
        · exact List.mem_of_mem_take member
        · exact List.mem_of_mem_drop member
      exact Expr.lt_of_mem_fieldRefs isRef
  have correlateFits : correlation.Fits settings.caseRule split.widened.schema
      split.newRight.schema := by
    constructor
    · intro index member
      have inLeft := fits.required index member
      rw [split.length_schema_widened]
      omega
    · rw [Correlation.names_schema, split.sameCase, CaseRule.uniquify_uniquify]
  have widenedFits : split.widened.Fits settings.caseRule left.schema := by
    rw [split.widened_eq]
    refine ⟨by simp [extractedNames], ?_, ?_⟩
    · intro expression member
      rcases List.mem_append.mp member with isRef | isCall
      · exact Expr.lt_of_mem_fieldRefs isRef
      · exact admitted.foreign expression isCall
    · rw [Projection.names_schema (by simp [extractedNames]), CaseRule.uniquify_uniquify]
  exact valid_project_iff.mpr ⟨narrowedFits, valid_correlate_iff.mpr
    ⟨correlateFits, valid_project_iff.mpr ⟨widenedFits, leftValid⟩, split.newRightValid⟩⟩

/-- A split is valid where the correlate is. -/
theorem valid_replacement {row : Option Schema}
    (valid : (Plan.correlate correlation left right).Valid settings.caseRule row) :
    split.replacement.Valid settings.caseRule row := by
  obtain ⟨fits, leftValid, -⟩ := valid_correlate_iff.mp valid
  have admitted : Admitted left.schema split.function split.operands :=
    .of_covered (split.covered_of_valid valid)
  exact split.valid_replacement_of_admitted fits leftValid admitted

/-- Where a split is valid, the references of the operands were admitted. -/
theorem admitted_of_valid_replacement {row : Option Schema}
    (valid : split.replacement.Valid settings.caseRule row) :
    Admitted left.schema split.function split.operands where
  foreign := by
    obtain ⟨-, correlateValid⟩ := valid_project_iff.mp valid
    obtain ⟨-, widenedValid, -⟩ := valid_correlate_iff.mp correlateValid
    have covered := (valid_project_iff.mp widenedValid).1.covered
    intro call member
    refine covered call ?_
    rw [split.widened_eq]
    exact List.mem_append_right _ member
  exposed := by
    have found := RightSide.scanBelow?_withCall split.ofRight split.freed
    have covered := (valid_scan_iff.mp (split.newRightValid.scanBelow found)).1
    intro index member
    have inKept : index ∈ (keptOperands left split.function split.operands).flatMap
        Expr.references := mem_references_keptOperands_iff.mpr (.inl member)
    have inWidened := covered index (by simpa using inKept)
    rwa [Option.getD_some, split.length_schema_widened] at inWidened

end Lateral.DialectSplit.Split
