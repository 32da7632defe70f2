import Lateral.Proofs.DialectSplit.Basic

/-!
# When a correlate can be split

`exists_split` gives a split of a correlate that is valid but for the operands of
its scan (`Plan.withoutOperands`), when it can be split (`Splittable`) and the
references of the operands are admitted (`Admitted`). Those of the foreign calls
have to lie within the left row; all others may also lie behind it, as far as the
fields of the foreign calls reach.
-/

namespace Lateral

/-- A schema is made of its names and its types. -/
theorem Schema.eq_of_names_of_types {schema other : Schema} (names : schema.names = other.names)
    (types : schema.types = other.types) : schema = other := by
  induction schema generalizing other with
  | nil => exact (List.map_eq_nil_iff.mp names.symm).symm
  | cons field rest inductionHypothesis =>
      cases other with
      | nil => cases names
      | cons otherField otherRest =>
          simp only [Schema.names, Schema.types, List.map_cons, List.cons.injEq] at names types
          have sameField : field = otherField := by
            cases field
            cases otherField
            simp_all
          rw [sameField, inductionHypothesis names.2 types.2]

theorem Projection.types_fieldsFrom (start : Nat) (expressions : List Expr)
    (names : List String) :
    (Projection.fieldsFrom start expressions names).types = expressions.map Expr.type := by
  induction expressions generalizing start names with
  | nil => rfl
  | cons expression rest inductionHypothesis =>
      have tail := fun others => inductionHypothesis (start + 1) others
      cases names <;> simpa [Projection.fieldsFrom, Schema.types] using tail _

/-- The fields of a projection have the types of its expressions. -/
theorem Projection.types_schema (projection : Projection) :
    projection.schema.types = projection.expressions.map Expr.type :=
  types_fieldsFrom 0 projection.expressions projection.names

/-- The fields of a correlate have the types of the fields of its inputs. -/
theorem Correlation.types_schema (correlation : Correlation) (left right : Schema) :
    (correlation.schema left right).types = left.types ++ right.types := by
  apply List.ext_getElem
  · simp
  · intro index inside below
    simp [Correlation.schema, Schema.types]

/-- References to the fields of a row have the types of the fields. -/
theorem Expr.map_type_fieldRefs (row : Schema) : (Expr.fieldRefs row).map Expr.type = row.types := by
  apply List.ext_getElem?
  intro index
  rw [List.getElem?_map, Expr.getElem?_fieldRefs, Schema.types, List.getElem?_map]
  cases row[index]? <;> rfl

namespace Plan

/-- A call by itself, without its operands. -/
def withoutOperandsCall : Expr → Expr
  | .call function _ type => .call function [] type
  | expression => expression

/-- A chain of projections over a scan with the operands of its call left out. -/
def withoutOperands : Plan → Plan
  | .scan source inputs => .scan { source with call := withoutOperandsCall source.call } inputs
  | .project projection input => .project projection input.withoutOperands
  | plan => plan

theorem scanBelow?_withoutOperands (plan : Plan) :
    plan.withoutOperands.scanBelow? = plan.scanBelow?.map fun found =>
      ({ found.1 with call := withoutOperandsCall found.1.call }, found.2) := by
  induction plan with
  | project projection input inductionHypothesis => exact inductionHypothesis
  | _ => rfl

theorem stack_withoutOperands (plan : Plan) : plan.withoutOperands.stack = plan.stack := by
  induction plan with
  | project projection input inductionHypothesis => simp [withoutOperands, stack, inductionHypothesis]
  | _ => rfl

@[simp] theorem schema_withoutOperands (plan : Plan) :
    plan.withoutOperands.schema = plan.schema := by
  cases plan <;> rfl

/-- What is valid with the operands is valid without them, where the scan calls something. -/
theorem Valid.withoutOperands {caseRule : CaseRule} {row : Option Schema} {plan : Plan}
    {source : Scan} {inputs : List Plan} (valid : plan.Valid caseRule row)
    (found : plan.scanBelow? = some (source, inputs)) (isCall : source.call.isCall = true) :
    plan.withoutOperands.Valid caseRule row := by
  have chain := endsIn_of_scanBelow? found
  clear found
  induction chain with
  | scan =>
      refine valid_scan_iff.mpr ⟨?_, (valid_scan_iff.mp valid).2⟩
      cases call : source.call with
      | call function operands type => simp [withoutOperandsCall]
      | _ => simp [call, Expr.isCall] at isCall
  | project projection below inductionHypothesis =>
      obtain ⟨fits, inputValid⟩ := valid_project_iff.mp valid
      refine valid_project_iff.mpr ⟨?_, inductionHypothesis inputValid⟩
      simpa using fits

end Plan

namespace RightSide

open Plan

/-- A right input that ends in a scan is a right side. -/
theorem exists_ofPlan? {right : Plan} {source : Scan} {scanInputs : List Plan}
    (found : right.scanBelow? = some (source, scanInputs)) :
    ∃ side, ofPlan? right = some side ∧ side.scan = source ∧ side.inputs = scanInputs := by
  rw [← map_ofPlan?] at found
  obtain ⟨side, ofRight, isFound⟩ := Option.map_eq_some_iff.mp found
  exact ⟨side, ofRight, congrArg Prod.fst isFound, congrArg Prod.snd isFound⟩

/-- A right input that is valid without the operands of its scan can get another call, and is valid
with it against each row that is wide enough for the call. -/
theorem exists_withCall {caseRule : CaseRule} {row : Option Schema} {right : Plan}
    {side : RightSide} (ofRight : ofPlan? right = some side)
    (valid : right.withoutOperands.Valid caseRule row) {wide : Schema}
    (wider : (row.getD []).length ≤ wide.length) {call : Expr}
    (covered : ∀ index ∈ call.references, index < wide.length) :
    ∃ newRight, side.withCall call = .ok newRight ∧ newRight.Valid caseRule (some wide) := by
  have found := scanBelow?_of_ofPlan? ofRight
  have foundBare := scanBelow?_withoutOperands right
  rw [found, Option.map_some] at foundBare
  have inputsValid := (valid_scan_iff.mp (valid.scanBelow foundBare)).2
  have scanValid : (Plan.scan { side.scan with call } side.inputs).Valid caseRule (some wide) :=
    valid_scan_iff.mpr ⟨covered, fun input member => (inputsValid input member).widen wider⟩
  cases right with
  | values schema rows => cases ofRight
  | correlate correlation leftInput rightInput => cases ofRight
  | scan source scanInputs =>
      obtain rfl : RightSide.plain source scanInputs = side := by simpa [ofPlan?] using ofRight
      exact ⟨_, rfl, scanValid⟩
  | project projection below =>
      obtain ⟨belowFound, isFound, rfl⟩ := Option.map_eq_some_iff.mp ofRight
      have belowFoundBare := scanBelow?_withoutOperands below
      rw [isFound, Option.map_some] at belowFoundBare
      obtain ⟨merged, bareMerges, mergedCovered⟩ := exists_merged_of_valid valid belowFoundBare
      have merges : projection.merged below = .ok merged := by
        rwa [merged_congr (stack_withoutOperands below)] at bareMerges
      refine ⟨.project merged (.scan { belowFound.1 with call } belowFound.2), ?_, ?_⟩
      · simp [withCall, merges, Except.map]
      · have fits := (valid_project_iff.mp valid).1
        have named : merged.names.length = merged.expressions.length := by
          rw [Projection.names_of_merged merges, Projection.length_of_merged merges, fits.named]
        refine valid_project_iff.mpr ⟨⟨named, mergedCovered, ?_⟩, scanValid⟩
        have distinct := fits.distinct
        rw [Projection.names_schema fits.named] at distinct
        rw [Projection.names_schema named, Projection.names_of_merged merges, distinct]

end RightSide

namespace DialectSplit

open Plan

/-- What a correlate needs, besides being valid, to be split: the case rule of the settings, left
fields with distinct names, and right fields that merging gives no other type. -/
structure Splittable (settings : Settings) (correlation : Correlation) (left : Schema)
    (right : Plan) : Prop where
  sameCase : correlation.caseRule = settings.caseRule
  distinct : settings.caseRule.uniquify left.names = left.names
  sameTypes : ∀ projection below merged, right = .project projection below →
    projection.merged below = .ok merged → merged.schema.types = projection.schema.types

/-- The references of operands that a split admits. -/
structure Admitted (left : Schema) (function : Function) (operands : List Expr) : Prop where
  foreign : ∀ call ∈ foreignCalls function operands, ∀ index ∈ call.references,
    index < left.length
  exposed : ∀ index ∈ Expr.exposedAll (Expr.isCallOf function.dialect.other) operands,
    index < left.length + (foreignCalls function operands).length

/-- Operands that stay within the left row are admitted. -/
theorem Admitted.of_covered {left : Schema} {function : Function} {operands : List Expr}
    (covered : ∀ index ∈ operands.flatMap Expr.references, index < left.length) :
    Admitted left function operands where
  foreign call member index inside :=
    covered index ((Expr.mem_flatMap_references_iff _ index _).mpr (.inr ⟨call, member, inside⟩))
  exposed index member :=
    Nat.lt_add_right _ (Expr.lt_of_mem_exposedAll covered index member)

/-- The freed operands refer to the exposed references and to the fields of the foreign calls. -/
theorem mem_references_keptOperands_iff {left : Plan} {function : Function} {operands : List Expr}
    {index : Nat} :
    index ∈ (keptOperands left function operands).flatMap Expr.references ↔
      index ∈ Expr.exposedAll (Expr.isCallOf function.dialect.other) operands ∨
        ∃ position < (foreignCalls function operands).length,
          index = left.schema.length + position := by
  have references := Extraction.mem_references_extractAll_iff
    (.behind left.schema.length function.dialect.other) index [] operands
  simpa [Extraction.behind, keptOperands, splitOperands, foreignCalls] using references

/-- The widened row has the types of the row and of the extracted calls. -/
theorem types_widening {caseRule : CaseRule} {row : Schema} {extracted : List Expr}
    {widened : Projection} (widens : widening caseRule row extracted = .ok widened) :
    widened.schema.types = row.types ++ extracted.map Expr.type := by
  rw [(widening_eq_ok_iff.mp widens).2, Projection.types_schema, List.map_append,
    Expr.map_type_fieldRefs]

/-- The narrowing projection gives the types of the fields that it keeps. -/
theorem types_narrowing (row : Schema) (width count : Nat) (expected : Schema) :
    (narrowing row width count expected).schema.types =
      row.types.take width ++ row.types.drop (width + count) := by
  rw [Projection.types_schema, ← Expr.map_type_fieldRefs]
  simp [narrowing]

/-- The narrowing projection gives the expected row when it gives its types. -/
theorem schema_narrowing {row expected : Schema} {width count : Nat}
    (types : (narrowing row width count expected).schema.types = expected.types) :
    (narrowing row width count expected).schema = expected := by
  have named : (narrowing row width count expected).names.length =
      (narrowing row width count expected).expressions.length := by
    have counts := congrArg List.length types
    simpa [narrowing] using counts.symm
  apply Schema.eq_of_names_of_types
  · rw [Projection.names_schema named, narrowing]
  · exact types

/-- With another call the right side has fields of the same types. -/
theorem Splittable.types_withCall {settings : Settings} {correlation : Correlation}
    {left : Schema} {right newRight : Plan} {side : RightSide} {call : Expr}
    (splittable : Splittable settings correlation left right)
    (ofRight : RightSide.ofPlan? right = some side) (freed : side.withCall call = .ok newRight) :
    newRight.schema.types = right.schema.types := by
  rcases RightSide.shape_of_withCall ofRight freed with
    ⟨rfl, rfl⟩ | ⟨projection, below, merged, rfl, -, merges, rfl⟩
  · rfl
  · exact splittable.sameTypes projection below merged rfl merges

/-- The types of a row that has `count` fields more behind its left part, and those of the row
without them. -/
theorem take_append_drop_types {left extra right : List DataType} {width count : Nat}
    (leftWidth : left.length = width) (extraWidth : extra.length = count) :
    (left ++ extra ++ right).take width ++ (left ++ extra ++ right).drop (width + count) =
      left ++ right := by
  subst leftWidth extraWidth
  have front : (left ++ extra ++ right).take left.length = left := by
    rw [List.append_assoc, List.take_left]
  have back : (left ++ extra ++ right).drop (left.length + extra.length) = right := by
    rw [← List.length_append, List.drop_left]
  rw [front, back]

/-- Narrowed again, a row widened on the left has the types of the left row and of the right one. -/
theorem types_narrowing_widening {caseRule : CaseRule} {left : Schema} {extracted : List Expr}
    {widened : Projection} (widens : widening caseRule left extracted = .ok widened)
    (correlation : Correlation) (right expected : Schema) :
    (narrowing (correlation.schema widened.schema right) left.length extracted.length
      expected).schema.types = left.types ++ right.types := by
  rw [types_narrowing, Correlation.types_schema, types_widening widens]
  exact take_append_drop_types (by simp) (by simp)

/-- A correlate that is valid without the operands of its scan has a split when it can be split and
the operands are admitted. -/
theorem exists_split {settings : Settings} {correlation : Correlation} {left right : Plan}
    {source : Scan} {inputs : List Plan} {function : Function} {operands : List Expr}
    {type : DataType} {row : Option Schema}
    (found : right.scanBelow? = some (source, inputs))
    (isCall : source.call = .call function operands type)
    (valid : (Plan.correlate correlation left right.withoutOperands).Valid settings.caseRule row)
    (splittable : Splittable settings correlation left.schema right)
    (admitted : Admitted left.schema function operands) :
    ∃ split : Split settings correlation left right,
      split.function = function ∧ split.operands = operands := by
  obtain ⟨side, ofRight, rfl, rfl⟩ := RightSide.exists_ofPlan? found
  obtain ⟨-, -, rightValid⟩ := valid_correlate_iff.mp valid
  obtain ⟨widened, widens⟩ : ∃ widened,
      widening settings.caseRule left.schema (foreignCalls function operands) = .ok widened :=
    ⟨_, widening_eq_ok_iff.mpr ⟨splittable.distinct, rfl⟩⟩
  have widenedWidth : widened.schema.length =
      left.schema.length + (foreignCalls function operands).length := by
    simpa using congrArg List.length (types_widening widens)
  have covered : ∀ index ∈ (Expr.call function (keptOperands left function operands)
      type).references, index < widened.schema.length := by
    intro index member
    rw [Expr.references_call, mem_references_keptOperands_iff] at member
    rw [widenedWidth]
    rcases member with exposed | ⟨position, below, rfl⟩
    · exact admitted.exposed index exposed
    · exact Nat.add_lt_add_left below _
  have wider : ((some left.schema).getD []).length ≤ widened.schema.length := by
    rw [widenedWidth]
    exact Nat.le_add_right ..
  obtain ⟨newRight, freed, newRightValid⟩ :=
    RightSide.exists_withCall ofRight rightValid wider covered
  have sameRow : (narrowing (correlation.schema widened.schema newRight.schema) left.schema.length
      (foreignCalls function operands).length (correlation.schema left.schema right.schema)).schema =
        correlation.schema left.schema right.schema := by
    apply schema_narrowing
    rw [types_narrowing_widening widens, Correlation.types_schema,
      splittable.types_withCall ofRight freed]
  exact ⟨⟨side, function, operands, type, newRight, widened, ofRight, isCall, splittable.sameCase,
    freed, widens, newRightValid, sameRow⟩, rfl, rfl⟩

/-- A valid correlate over the call of a scan has a split when it can be split. -/
theorem exists_split_of_valid {settings : Settings} {correlation : Correlation}
    {left right : Plan} {source : Scan} {inputs : List Plan} {row : Option Schema}
    (valid : (Plan.correlate correlation left right).Valid settings.caseRule row)
    (found : right.scanBelow? = some (source, inputs)) (isCall : source.call.isCall = true)
    (splittable : Splittable settings correlation left.schema right) :
    Nonempty (Split settings correlation left right) := by
  obtain ⟨fits, leftValid, rightValid⟩ := valid_correlate_iff.mp valid
  have covered := (valid_scan_iff.mp (rightValid.scanBelow found)).1
  have bareValid : (Plan.correlate correlation left right.withoutOperands).Valid
      settings.caseRule row :=
    valid_correlate_iff.mpr
      ⟨by simpa using fits, leftValid, rightValid.withoutOperands found isCall⟩
  cases called : source.call with
  | call function operands type =>
      have admitted : Admitted left.schema function operands :=
        .of_covered (by simpa [called] using covered)
      obtain ⟨split, -, -⟩ := exists_split found called bareValid splittable admitted
      exact ⟨split⟩
  | _ => simp [called, Expr.isCall] at isCall

end DialectSplit

end Lateral
