import Lateral.Proofs.DialectSplit.Splittable

/-!
# Static conditions of a split

A split has to pass several checks of the plans it puts together. For a correlate that
validates they come down to three conditions on the correlate as it stands
(`transform_of_valid`): it has the case rule of the settings, the names of its left row
are different names, and merging the projections on its right changes no type. They are
necessary without the correlate being valid (`Split.splittable`).
-/

namespace Lateral.DialectSplit

open Plan

variable {settings : Settings} {correlation : Correlation} {left right : Plan}

/-- A split keeps the types of the right input. -/
theorem Split.types_newRight (split : Split settings correlation left right) :
    split.newRight.schema.types = right.schema.types := by
  have types := congrArg Schema.types split.sameRow
  rw [types_narrowing_widening split.widens, Correlation.types_schema] at types
  exact List.append_cancel_left types

/-- A correlate that has a split can be split. -/
theorem Split.splittable (split : Split settings correlation left right) :
    Splittable settings correlation left.schema right where
  sameCase := split.sameCase
  distinct := (widening_eq_ok_iff.mp split.widens).1
  sameTypes projection below merged isProject merges := by
    rcases RightSide.shape_of_withCall split.ofRight split.freed with
      ⟨isScan, -⟩ | ⟨other, otherBelow, otherMerged, isOther, -, otherMerges, isNew⟩
    · rw [isScan] at isProject
      cases isProject
    · obtain ⟨rfl, rfl⟩ := Plan.project.inj (isProject.symm.trans isOther)
      obtain rfl := Except.ok.inj (merges.symm.trans otherMerges)
      calc
        merged.schema.types = split.newRight.schema.types := by rw [isNew]; rfl
        _ = right.schema.types := split.types_newRight
        _ = projection.schema.types := by rw [isProject]; rfl

/-- The conditions on the projections of a valid right input: merging them goes through, and with
the types of the right input. -/
theorem sameTypes_iff_exists_merged {caseRule : CaseRule} {row : Option Schema} {source : Scan}
    {inputs : List Plan} (valid : right.Valid caseRule row)
    (found : right.scanBelow? = some (source, inputs)) :
    (∀ projection below merged, right = .project projection below →
        projection.merged below = .ok merged → merged.schema.types = projection.schema.types) ↔
      ∀ projection below, right = .project projection below →
        ∃ merged, projection.merged below = .ok merged ∧
          merged.expressions.map Expr.type = right.schema.types := by
  constructor
  · rintro sameTypes projection below rfl
    obtain ⟨merged, merges, -⟩ := exists_merged_of_valid valid found
    have types := sameTypes projection below merged rfl merges
    rw [Projection.types_schema] at types
    exact ⟨merged, merges, types⟩
  · rintro exists_merged projection below merged rfl merges
    obtain ⟨other, otherMerges, types⟩ := exists_merged projection below rfl
    obtain rfl := Except.ok.inj (merges.symm.trans otherMerges)
    rw [Projection.types_schema]
    exact types

/-- A correlate over the call of a scan, valid against some correlation row or without one, is split
exactly when it has the case rule of the settings, no two names of its left row are the same name
under it, and the projections over the scan, if there are any, merge into expressions of the types
of the right input. Otherwise the attempt fails with a violated invariant of plans. -/
theorem transform_of_valid {source : Scan} {inputs : List Plan} {row : Option Schema}
    (valid : (Plan.correlate correlation left right).Valid settings.caseRule row)
    (found : right.scanBelow? = some (source, inputs)) (isCall : source.call.isCall = true) :
    ((∃ replacement, (transform settings (.correlate correlation left right)).outcome =
        .ok (some replacement)) ↔
      correlation.caseRule = settings.caseRule ∧
        (left.schema.names.Pairwise fun name other =>
          settings.caseRule.sameName name other = false) ∧
          ∀ projection below, right = .project projection below →
            ∃ merged, projection.merged below = .ok merged ∧
              merged.expressions.map Expr.type = right.schema.types) ∧
    ((¬ ∃ replacement, (transform settings (.correlate correlation left right)).outcome =
        .ok (some replacement)) →
      ∃ error, (transform settings (.correlate correlation left right)).outcome = .error error ∧
        error.kind = .planInvariantViolation) := by
  obtain ⟨-, -, rightValid⟩ := valid_correlate_iff.mp valid
  rw [← CaseRule.uniquify_eq_self_iff_pairwise, ← sameTypes_iff_exists_merged rightValid found]
  refine ⟨⟨?_, ?_⟩, (transform_ends settings _).resolve_left⟩
  · rintro ⟨replacement, transformed⟩
    obtain ⟨_, _, _, same, split, -⟩ := transform_eq_some_iff.mp transformed
    obtain ⟨rfl, rfl, rfl⟩ := Plan.correlate.inj same
    exact ⟨split.sameCase, split.splittable.distinct, split.splittable.sameTypes⟩
  · rintro ⟨sameCase, distinct, sameTypes⟩
    obtain ⟨split⟩ := exists_split_of_valid valid found isCall ⟨sameCase, distinct, sameTypes⟩
    exact ⟨split.replacement,
      transform_eq_some_iff.mpr ⟨correlation, left, right, rfl, split, rfl⟩⟩

/-- A correlate of the row `x` with `PAIR(ABS($0), $0)` below two projections, of which the upper one
declares the given type for the field of the lower one. -/
def retypedPlan (type : DataType) : Plan :=
  .correlate ⟨0, .empty, .inner, .sensitive⟩ (.values [⟨"x", .int⟩] [[.int (-7)]]) <|
    .project ⟨[.ref 0 type], ["p"]⟩ <| .project ⟨[.ref 0 .int], ["q"]⟩ <|
      pairScan (.absOf (.ref 0 .int)) (.ref 0 .int)

/-- With the type of the field declared the correlate is split, and with another type it is not, as
merging the projections would give the field its own type again. -/
theorem transform_of_valid_retypedPlan :
    (∃ replacement, (transform .standard (retypedPlan .int)).outcome = .ok (some replacement)) ∧
      ∃ error, (transform .standard (retypedPlan .string)).outcome = .error error ∧
        error.kind = .planInvariantViolation := by
  have valid (type : DataType) : (retypedPlan type).Valid Settings.standard.caseRule none := rfl
  constructor
  · refine (transform_of_valid (valid .int) rfl rfl).1.mpr ⟨rfl, by simp [Schema.names, schema], ?_⟩
    rintro projection below same
    obtain ⟨rfl, rfl⟩ := Plan.project.inj same.symm
    exact ⟨_, rfl, rfl⟩
  · refine (transform_of_valid (valid .string) rfl rfl).2 fun splits => ?_
    obtain ⟨-, -, sameTypes⟩ := (transform_of_valid (valid .string) rfl rfl).1.mp splits
    obtain ⟨merged, merges, types⟩ := sameTypes _ _ rfl
    obtain rfl : _ = merged := Except.ok.inj merges
    exact absurd types (by decide)

end Lateral.DialectSplit
