import Lateral.Function.Table
import Lateral.Plan.Merge
import Lateral.Plan.Validate
import Lateral.Proofs.Plan.Context

/-!
# Valid plans

What the validator accepts, operator by operator (`valid_project_iff` and its
siblings). Of the correlation row a valid plan needs nothing but the fields that it
refers to outside of the right sides of its own correlates (`Valid.valid_iff`), so it
stays valid when the row gets wider (`Valid.widen`). It also stays valid when one of
its nodes is replaced by a plan of the same schema that is valid where the node is
(`Context.valid_fill`). Whatever the validator finds fault with violates an invariant
of plans (`kind_of_validate_error`).
-/

namespace Lateral

/-- Names, references and distinct field names of a projection over a row. -/
structure Projection.Fits (caseRule : CaseRule) (row : Schema) (projection : Projection) :
    Prop where
  named : projection.names.length = projection.expressions.length
  covered : ∀ expression ∈ projection.expressions, ∀ index ∈ expression.references,
    index < row.length
  distinct : caseRule.uniquify projection.schema.names = projection.schema.names

/-- Required columns and distinct field names of a correlate over two rows. -/
structure Correlation.Fits (caseRule : CaseRule) (left right : Schema)
    (correlation : Correlation) : Prop where
  required : ∀ index ∈ correlation.required.indices, index < left.length
  distinct : caseRule.uniquify (correlation.schema left right).names =
    (correlation.schema left right).names

namespace Plan

variable {caseRule : CaseRule} {row : Option Schema}

/-- The validator accepts the plan against a correlation row. -/
def Valid (caseRule : CaseRule) (row : Option Schema) (plan : Plan) : Prop :=
  plan.validate caseRule row = .ok ()

theorem rowWidthFault?_eq_none_iff {schema : Schema} {rows : List Row} :
    rowWidthFault? schema rows = none ↔ ∀ row ∈ rows, row.length = schema.length := by
  simp [rowWidthFault?]

theorem danglingFault?_eq_none_iff {schema : Schema} {expression : Expr} :
    danglingFault? schema expression = none ↔
      ∀ index ∈ expression.references, index < schema.length := by
  simp [danglingFault?]

theorem requiredFault?_eq_none_iff {columns : ColumnSet} {schema : Schema} :
    requiredFault? columns schema = none ↔ ∀ index ∈ columns.indices, index < schema.length := by
  simp [requiredFault?]

theorem nameCountFault?_eq_none_iff {projection : Projection} :
    nameCountFault? projection = none ↔
      projection.names.length = projection.expressions.length := by
  simp [nameCountFault?]

/-- Names put beside other names agree with all of them exactly when the others begin with
them. -/
theorem find?_zip_ne_eq_none_iff {names others : List String}
    (enough : names.length ≤ others.length) :
    (names.zip others).find? (fun pair => pair.1 != pair.2) = none ↔
      others.take names.length = names := by
  induction names generalizing others with
  | nil => simp
  | cons name rest inductionHypothesis =>
      cases others with
      | nil => simp at enough
      | cons other others =>
          have tails := inductionHypothesis (Nat.le_of_succ_le_succ enough)
          by_cases same : name = other
          · rw [List.zip_cons_cons, List.find?_cons_of_neg (by simpa using same), tails, same]
            simp
          · simp [same, Ne.symm same]

theorem duplicateFault?_eq_none_iff {schema : Schema} :
    duplicateFault? caseRule schema = none ↔
      caseRule.uniquify schema.names = schema.names := by
  rw [duplicateFault?, Option.map_eq_none_iff, find?_zip_ne_eq_none_iff (by simp),
    List.take_of_length_le (by simp)]

theorem validateRoot_eq_ok_iff {plan : Plan} :
    validateRoot caseRule row plan = .ok () ↔ rootFault? caseRule row plan = none := by
  unfold validateRoot
  cases rootFault? caseRule row plan <;> simp

/-- A check behind another accepts when both do. -/
theorem check_bind_eq_ok_iff {first second : Except Error Unit} :
    (do first; second) = .ok () ↔ first = .ok () ∧ second = .ok () := by
  cases first with
  | error error => simp [bind, Except.bind]
  | ok result => simp [bind, Except.bind]

/-- A check behind another rejects for the reason of one of the two. -/
theorem eq_error_of_check_bind {first second : Except Error Unit} {error : Error}
    (rejected : (do first; second) = .error error) :
    first = .error error ∨ second = .error error := by
  cases first with
  | error other => exact .inl rejected
  | ok result => exact .inr rejected

/-- A fault of a root is a violated invariant. -/
theorem kind_of_validateRoot_error {plan : Plan} {error : Error}
    (rejected : validateRoot caseRule row plan = .error error) :
    error.kind = .planInvariantViolation := by
  unfold validateRoot at rejected
  split at rejected
  · cases rejected
  · obtain rfl := Except.error.inj rejected
    rfl

theorem valid_values_iff {schema : Schema} {rows : List Row} :
    (Plan.values schema rows).Valid caseRule row ↔ ∀ row ∈ rows, row.length = schema.length := by
  rw [Valid, validate, validateRoot_eq_ok_iff]
  exact rowWidthFault?_eq_none_iff

theorem valid_project_iff {projection : Projection} {input : Plan} :
    (Plan.project projection input).Valid caseRule row ↔
      projection.Fits caseRule input.schema ∧ input.Valid caseRule row := by
  rw [Valid, validate, check_bind_eq_ok_iff, validateRoot_eq_ok_iff]
  simp only [rootFault?, Option.or_eq_none_iff, nameCountFault?_eq_none_iff,
    List.findSome?_eq_none_iff, danglingFault?_eq_none_iff, duplicateFault?_eq_none_iff]
  exact and_congr_left fun _ => ⟨fun ⟨named, covered, distinct⟩ => ⟨named, covered, distinct⟩,
    fun fits => ⟨fits.named, fits.covered, fits.distinct⟩⟩

theorem valid_correlate_iff {correlation : Correlation} {left right : Plan} :
    (Plan.correlate correlation left right).Valid caseRule row ↔
      correlation.Fits caseRule left.schema right.schema ∧ left.Valid caseRule row ∧
        right.Valid caseRule (some left.schema) := by
  rw [Valid, validate, check_bind_eq_ok_iff, check_bind_eq_ok_iff, validateRoot_eq_ok_iff]
  simp only [rootFault?, Option.or_eq_none_iff, requiredFault?_eq_none_iff,
    duplicateFault?_eq_none_iff]
  exact and_congr_left fun _ => ⟨fun ⟨required, distinct⟩ => ⟨required, distinct⟩,
    fun fits => ⟨fits.required, fits.distinct⟩⟩

theorem validateAll_eq_ok_iff {plans : List Plan} :
    validateAll caseRule row plans = .ok () ↔ ∀ plan ∈ plans, plan.Valid caseRule row := by
  induction plans with
  | nil => simp [validateAll]
  | cons plan rest inductionHypothesis =>
      rw [validateAll, check_bind_eq_ok_iff, inductionHypothesis, List.forall_mem_cons]
      rfl

theorem valid_scan_iff {source : Scan} {inputs : List Plan} :
    (Plan.scan source inputs).Valid caseRule row ↔
      (∀ index ∈ source.call.references, index < (row.getD []).length) ∧
        ∀ input ∈ inputs, input.Valid caseRule row := by
  rw [Valid, validate, check_bind_eq_ok_iff, validateRoot_eq_ok_iff, validateAll_eq_ok_iff]
  simp only [rootFault?, danglingFault?_eq_none_iff]

/-- What the validator finds fault with in a list of plans, it finds in one of them. -/
theorem exists_of_validateAll_error {plans : List Plan} {error : Error}
    (rejected : validateAll caseRule row plans = .error error) :
    ∃ plan ∈ plans, plan.validate caseRule row = .error error := by
  induction plans with
  | nil => cases rejected
  | cons plan rest inductionHypothesis =>
      rw [validateAll] at rejected
      rcases eq_error_of_check_bind rejected with first | later
      · exact ⟨plan, List.mem_cons_self, first⟩
      · obtain ⟨other, member, found⟩ := inductionHypothesis later
        exact ⟨other, List.mem_cons_of_mem plan member, found⟩

/-- Whatever the validator finds fault with violates an invariant of plans. -/
theorem kind_of_validate_error {plan : Plan} {error : Error}
    (rejected : plan.validate caseRule row = .error error) :
    error.kind = .planInvariantViolation := by
  induction plan generalizing row with
  | values schema rows => exact kind_of_validateRoot_error rejected
  | project projection input inductionHypothesis =>
      rw [validate] at rejected
      rcases eq_error_of_check_bind rejected with root | below
      · exact kind_of_validateRoot_error root
      · exact inductionHypothesis below
  | correlate correlation left right leftHypothesis rightHypothesis =>
      rw [validate] at rejected
      rcases eq_error_of_check_bind rejected with root | below
      · exact kind_of_validateRoot_error root
      · rcases eq_error_of_check_bind below with inLeft | inRight
        · exact leftHypothesis inLeft
        · exact rightHypothesis inRight
  | scan source inputs inductionHypothesis =>
      rw [validate] at rejected
      rcases eq_error_of_check_bind rejected with root | below
      · exact kind_of_validateRoot_error root
      · obtain ⟨input, member, inInput⟩ := exists_of_validateAll_error below
        exact inductionHypothesis input member inInput

mutual

/-- The references of a plan that read the correlation row it is validated against. The right side
of a correlate reads the row of the left side in its place. -/
def outerReferences : Plan → List Nat
  | .values .. => []
  | .project _ input => outerReferences input
  | .correlate _ left _ => outerReferences left
  | .scan source inputs => source.call.references ++ outerReferencesAll inputs

/-- The references of a list of plans to the correlation row, one plan behind the other. -/
def outerReferencesAll : List Plan → List Nat
  | [] => []
  | plan :: rest => outerReferences plan ++ outerReferencesAll rest

end

theorem outerReferencesAll_eq_flatMap (plans : List Plan) :
    outerReferencesAll plans = plans.flatMap outerReferences := by
  induction plans with
  | nil => rfl
  | cons plan rest inductionHypothesis => simp [outerReferencesAll, inductionHypothesis]

/-- A plan that is valid against a correlation row is valid against exactly those others that have
all the fields it refers to, where no row at all has none. -/
theorem Valid.valid_iff {plan : Plan} (valid : plan.Valid caseRule row) (other : Option Schema) :
    plan.Valid caseRule other ↔
      ∀ index ∈ plan.outerReferences, index < (other.getD []).length := by
  induction plan with
  | values schema rows =>
      simpa [outerReferences, valid_values_iff] using valid_values_iff.mp valid
  | project projection input inductionHypothesis =>
      obtain ⟨fits, inputValid⟩ := valid_project_iff.mp valid
      rw [valid_project_iff, outerReferences, inductionHypothesis inputValid]
      exact and_iff_right fits
  | correlate correlation left right leftHypothesis rightHypothesis =>
      obtain ⟨fits, leftValid, rightValid⟩ := valid_correlate_iff.mp valid
      rw [valid_correlate_iff, outerReferences, leftHypothesis leftValid]
      exact ⟨fun accepted => accepted.2.1, fun covered => ⟨fits, covered, rightValid⟩⟩
  | scan source inputs inductionHypothesis =>
      obtain ⟨-, inputsValid⟩ := valid_scan_iff.mp valid
      rw [valid_scan_iff, outerReferences, outerReferencesAll_eq_flatMap, List.forall_mem_append,
        List.forall_mem_flatMap]
      exact and_congr_right fun _ => forall₂_congr fun input member =>
        inductionHypothesis input member (inputsValid input member)

/-- A plan that is valid against a correlation row is valid against each one that is at least as
wide, where no row at all is as wide as the empty one. -/
theorem Valid.widen {plan : Plan} {other : Option Schema} (valid : plan.Valid caseRule row)
    (wider : (row.getD []).length ≤ (other.getD []).length) : plan.Valid caseRule other := by
  have covered := (valid.valid_iff row).mp valid
  exact (valid.valid_iff other).mpr fun index member =>
    Nat.lt_of_lt_of_le (covered index member) wider

/-- The scan that a valid plan ends in is valid against the same correlation row. -/
theorem Valid.scanBelow {plan : Plan} {source : Scan} {inputs : List Plan}
    (valid : plan.Valid caseRule row) (found : plan.scanBelow? = some (source, inputs)) :
    (Plan.scan source inputs).Valid caseRule row := by
  have chain := endsIn_of_scanBelow? found
  clear found
  induction chain with
  | scan => exact valid
  | project projection below inductionHypothesis =>
      exact inductionHypothesis (valid_project_iff.mp valid).2

/-- Each node of a valid plan is valid against some correlation row. -/
theorem Valid.of_mem_nodes {plan node : Plan} (valid : plan.Valid caseRule row)
    (member : node ∈ plan.nodes) : ∃ row, node.Valid caseRule row := by
  induction plan generalizing row with
  | values schema rows =>
      obtain rfl := List.mem_singleton.mp member
      exact ⟨row, valid⟩
  | project projection input inductionHypothesis =>
      rcases List.mem_cons.mp member with rfl | member
      · exact ⟨row, valid⟩
      · exact inductionHypothesis (valid_project_iff.mp valid).2 member
  | correlate correlation left right leftHypothesis rightHypothesis =>
      obtain ⟨-, leftValid, rightValid⟩ := valid_correlate_iff.mp valid
      rcases List.mem_cons.mp member with rfl | member
      · exact ⟨row, valid⟩
      · rcases List.mem_append.mp member with member | member
        · exact leftHypothesis leftValid member
        · exact rightHypothesis rightValid member
  | scan source inputs inductionHypothesis =>
      rcases List.mem_cons.mp member with rfl | member
      · exact ⟨row, valid⟩
      · rw [nodesAll_eq_flatMap] at member
        obtain ⟨input, inputMember, member⟩ := List.mem_flatMap.mp member
        exact inductionHypothesis input inputMember
          ((valid_scan_iff.mp valid).2 input inputMember) member

/-- A valid plan stays valid when a node is replaced by a plan of the same schema that is valid
wherever the node is. -/
theorem Context.valid_fill (context : Context) {node replacement : Plan}
    (sameSchema : replacement.schema = node.schema)
    (keeps : ∀ row, node.Valid caseRule row → replacement.Valid caseRule row)
    (valid : (context.fill node).Valid caseRule row) :
    (context.fill replacement).Valid caseRule row := by
  induction context generalizing row with
  | hole => exact keeps row valid
  | project projection inner inductionHypothesis =>
      obtain ⟨fits, inputValid⟩ := valid_project_iff.mp valid
      have inputSchema := inner.schema_fill sameSchema
      exact valid_project_iff.mpr ⟨inputSchema ▸ fits, inductionHypothesis inputValid⟩
  | inLeft correlation inner right inductionHypothesis =>
      obtain ⟨fits, leftValid, rightValid⟩ := valid_correlate_iff.mp valid
      rw [fill, valid_correlate_iff, inner.schema_fill sameSchema]
      exact ⟨fits, inductionHypothesis leftValid, rightValid⟩
  | inRight correlation left inner inductionHypothesis =>
      obtain ⟨fits, leftValid, rightValid⟩ := valid_correlate_iff.mp valid
      rw [fill, valid_correlate_iff, inner.schema_fill sameSchema]
      exact ⟨fits, leftValid, inductionHypothesis rightValid⟩
  | scan source before inner after inductionHypothesis =>
      obtain ⟨covered, inputsValid⟩ := valid_scan_iff.mp valid
      refine valid_scan_iff.mpr ⟨covered, ?_⟩
      simp only [List.mem_append, List.mem_cons] at inputsValid ⊢
      rintro input (member | rfl | member)
      · exact inputsValid input (.inl member)
      · exact inductionHypothesis (inputsValid _ (.inr (.inl rfl)))
      · exact inputsValid input (.inr (.inr member))

/-- A plan that is accepted without a correlation row is accepted against every row, and one that
is accepted against a row is accepted against every row with at least as many fields, whatever their
names and types. Among the rows that it is accepted against are exactly those with a field for each
reference outside of the right sides of its own correlates. -/
theorem validate_wider_row (caseRule : CaseRule) (plan : Plan) :
    (plan.validate caseRule none = .ok () →
      ∀ row : Schema, plan.validate caseRule (some row) = .ok ()) ∧
    (∀ row wider : Schema, row.length ≤ wider.length →
      plan.validate caseRule (some row) = .ok () →
        plan.validate caseRule (some wider) = .ok ()) ∧
    ∀ row other : Option Schema, plan.validate caseRule row = .ok () →
      (plan.validate caseRule other = .ok () ↔
        ∀ index ∈ plan.outerReferences, index < (other.getD []).length) := by
  refine ⟨fun valid row => ?_, fun row wider wide valid => ?_, fun row other valid => ?_⟩
  · exact Valid.widen valid (Nat.zero_le row.length)
  · exact Valid.widen valid wide
  · exact Valid.valid_iff valid other

/-- The scan of `RANGE` up to an operand. -/
def rangeTo (operand : Expr) (inputs : List Plan) : Plan :=
  .scan ⟨.apply (.table (.range "RANGE")) [operand], .int, [⟨"range", .int⟩], []⟩ inputs

/-- A correlate whose left side, a scan over a scan, refers to the correlation row, and whose right
side refers to the row of the left side. -/
def nestedRanges : Plan :=
  .correlate ⟨0, .ofList [0], .inner, .sensitive⟩
    (rangeTo (.ref 0 .int) [rangeTo (.ref 1 .int) []]) (rangeTo (.ref 0 .int) [])

/-- The correlate is accepted against two fields and therefore against three of other names and
types, but not against one. Without references a scan is accepted in every place. -/
theorem validate_wider_row_nestedRanges :
    nestedRanges.validate .sensitive (some [⟨"a", .int⟩, ⟨"b", .int⟩]) = .ok () ∧
    nestedRanges.validate .sensitive
      (some [⟨"x", .null⟩, ⟨"x", .string⟩, ⟨"y", .double⟩]) = .ok () ∧
    nestedRanges.validate .sensitive (some [⟨"a", .int⟩]) ≠ .ok () ∧
    (rangeTo (.literal (.int 2)) []).validate .insensitive none = .ok () ∧
    (rangeTo (.literal (.int 2)) []).validate .insensitive (some [⟨"a", .int⟩]) = .ok () := by
  obtain ⟨-, widens, exactly⟩ := validate_wider_row .sensitive nestedRanges
  have valid : nestedRanges.validate .sensitive (some [⟨"a", .int⟩, ⟨"b", .int⟩]) = .ok () := rfl
  have alone : (rangeTo (.literal (.int 2)) []).validate .insensitive none = .ok () := rfl
  refine ⟨valid, widens _ _ (by decide) valid, ?_, alone, ?_⟩
  · rw [ne_eq, exactly _ _ valid]
    decide
  · exact (validate_wider_row .insensitive _).1 alone _

end Plan

end Lateral
