import Lateral.Function.Scalar
import Lateral.Proofs.DialectSplit.RightSide
import Lateral.Proofs.Expr.Extraction
import Lateral.Proofs.Naming

/-!
# What a split consists of

`Split` holds the parts of a successful split of a correlate with what has been
checked of them. `transform_eq_some_iff` says that the rule gives a plan exactly
when there is a split, and that the plan is put together from its parts. A split
that fails violates an invariant of plans (`transform_ends`).
-/

namespace Lateral

theorem Projection.names_fieldsFrom (start : Nat) {expressions : List Expr} {names : List String}
    (named : names.length = expressions.length) :
    (Projection.fieldsFrom start expressions names).names = names := by
  induction expressions generalizing start names with
  | nil => exact (List.length_eq_zero_iff.mp named).symm
  | cons expression rest inductionHypothesis =>
      cases names with
      | nil => simp at named
      | cons name names =>
          have tail := inductionHypothesis (start + 1) (Nat.succ_inj.mp named)
          simpa [Projection.fieldsFrom, Schema.names] using tail

/-- A projection with a name for each expression has these names. -/
theorem Projection.names_schema {projection : Projection}
    (named : projection.names.length = projection.expressions.length) :
    projection.schema.names = projection.names :=
  names_fieldsFrom 0 named

/-- The names of a correlate are those of its inputs made distinct. -/
theorem Correlation.names_schema (correlation : Correlation) (left right : Schema) :
    (correlation.schema left right).names =
      correlation.caseRule.uniquify (left.names ++ right.names) := by
  apply List.ext_getElem
  · simp
  · intro index inside below
    simp [Correlation.schema, Schema.names]

namespace DialectSplit

open Plan

/-- The operands without their foreign calls. -/
def keptOperands (left : Plan) (function : Function) (operands : List Expr) : List Expr :=
  (splitOperands left.schema.length function operands).1

/-- The foreign calls of the operands. -/
def foreignCalls (function : Function) (operands : List Expr) : List Expr :=
  Expr.outermostAll (Expr.isCallOf function.dialect.other) operands

theorem splitOperands_eq (left : Plan) (function : Function) (operands : List Expr) :
    splitOperands left.schema.length function operands =
      (keptOperands left function operands, foreignCalls function operands) := by
  rw [keptOperands, Prod.ext_iff]
  exact ⟨rfl, by simp [splitOperands, foreignCalls, Extraction.behind]⟩

/-- Names for the widened row are found exactly when the names of the row are distinct. -/
theorem widenedNames_eq_ok_iff {caseRule : CaseRule} {row : Schema} {count : Nat}
    {names : List String} :
    widenedNames caseRule row count = .ok names ↔
      caseRule.uniquify row.names = row.names ∧
        names = caseRule.uniquify (row.names ++ extractedNames count) := by
  have enough : row.names.length ≤
      (caseRule.uniquify (row.names ++ extractedNames count)).length := by simp
  have front := CaseRule.take_uniquify_append caseRule row.names (extractedNames count)
  unfold widenedNames
  simp only
  split
  · next name renamed found =>
      have notKept : caseRule.uniquify row.names ≠ row.names := by
        rw [← front]
        intro kept
        rw [(find?_zip_ne_eq_none_iff enough).mpr kept] at found
        cases found
      simp [refusal, notKept]
  · next found =>
      have kept := (find?_zip_ne_eq_none_iff enough).mp found
      rw [front] at kept
      simp [kept, eq_comm]

/-- The widening projection passes the row on and computes the extracted calls behind it. -/
theorem widening_eq_ok_iff {caseRule : CaseRule} {row : Schema} {extracted : List Expr}
    {widened : Projection} :
    widening caseRule row extracted = .ok widened ↔
      caseRule.uniquify row.names = row.names ∧
        widened = ⟨Expr.fieldRefs row ++ extracted,
          caseRule.uniquify (row.names ++ extractedNames extracted.length)⟩ := by
  constructor
  · intro widens
    cases named : widenedNames caseRule row extracted.length with
    | error error => simp [widening, named, Except.map] at widens
    | ok names =>
        obtain ⟨distinct, rfl⟩ := widenedNames_eq_ok_iff.mp named
        rw [widening, named] at widens
        exact ⟨distinct, (Except.ok.inj widens).symm⟩
  · rintro ⟨distinct, rfl⟩
    rw [widening, widenedNames_eq_ok_iff.mpr ⟨distinct, rfl⟩]
    rfl

/-- A left row with names that are not distinct can not be widened. -/
theorem kind_of_widening_error {caseRule : CaseRule} {row : Schema} {extracted : List Expr}
    {error : Error} (failed : widening caseRule row extracted = .error error) :
    error.kind = .planInvariantViolation := by
  cases named : widenedNames caseRule row extracted.length with
  | ok names => simp [widening, named, Except.map] at failed
  | error other =>
      obtain rfl : other = error := by simpa [widening, named, Except.map] using failed
      unfold widenedNames at named
      simp only at named
      split at named
      · obtain rfl := Except.error.inj named
        rfl
      · cases named

/-- The parts of a successful split of a correlate over two inputs. -/
structure Split (settings : Settings) (correlation : Correlation) (left right : Plan) where
  side : RightSide
  function : Function
  operands : List Expr
  type : DataType
  newRight : Plan
  widened : Projection
  ofRight : RightSide.ofPlan? right = some side
  isCall : side.scan.call = .call function operands type
  sameCase : correlation.caseRule = settings.caseRule
  freed : side.withCall (.call function (keptOperands left function operands) type) = .ok newRight
  widens : widening settings.caseRule left.schema (foreignCalls function operands) = .ok widened
  newRightValid : newRight.Valid settings.caseRule (some widened.schema)
  sameRow : (narrowing (correlation.schema widened.schema newRight.schema) left.schema.length
    (foreignCalls function operands).length (correlation.schema left.schema right.schema)).schema =
      correlation.schema left.schema right.schema

namespace Split

variable {settings : Settings} {correlation : Correlation} {left right : Plan}

/-- The projection that leaves the added fields out again. -/
def narrowed (split : Split settings correlation left right) : Projection :=
  narrowing (correlation.schema split.widened.schema split.newRight.schema) left.schema.length
    (foreignCalls split.function split.operands).length
    (correlation.schema left.schema right.schema)

/-- The correlate over the widened left input. -/
def newCorrelate (split : Split settings correlation left right) : Plan :=
  .correlate correlation (.project split.widened left) split.newRight

/-- The plan that takes the place of the correlate. -/
def replacement (split : Split settings correlation left right) : Plan :=
  .project split.narrowed split.newCorrelate

end Split

/-- The parts are put together when names can be found, the new right side is valid, and the row
stays the same. -/
theorem assemble_eq_ok_iff {settings : Settings} {correlation : Correlation}
    {left newRight replacement : Plan} {extracted : List Expr} {expected : Schema} :
    assemble settings correlation left extracted newRight expected = .ok replacement ↔
      ∃ widened, widening settings.caseRule left.schema extracted = .ok widened ∧
        newRight.Valid settings.caseRule (some widened.schema) ∧
        (narrowing (correlation.schema widened.schema newRight.schema) left.schema.length
          extracted.length expected).schema = expected ∧
        replacement = .project
          (narrowing (correlation.schema widened.schema newRight.schema) left.schema.length
            extracted.length expected)
          (.correlate correlation (.project widened left) newRight) := by
  unfold assemble Plan.Valid
  cases widens : widening settings.caseRule left.schema extracted with
  | error error => simp [bind, Except.bind]
  | ok widened =>
      cases checked : newRight.validate settings.caseRule (some widened.schema) with
      | error error => simp [bind, Except.bind, checked]
      | ok result =>
          simp only [bind, Except.bind, checked, Plan.schema, refusal, Except.ok.injEq,
            exists_eq_left', true_and]
          split_ifs with sameRow
          · simp [sameRow, eq_comm]
          · simp [sameRow]

/-- Parts that can not be put together violate an invariant of plans. -/
theorem kind_of_assemble_error {settings : Settings} {correlation : Correlation}
    {left newRight : Plan} {extracted : List Expr} {expected : Schema} {error : Error}
    (failed : assemble settings correlation left extracted newRight expected = .error error) :
    error.kind = .planInvariantViolation := by
  unfold assemble at failed
  cases widens : widening settings.caseRule left.schema extracted with
  | error other =>
      obtain rfl : other = error := by simpa [widens, bind, Except.bind] using failed
      exact kind_of_widening_error widens
  | ok widened =>
      cases checked : newRight.validate settings.caseRule (some widened.schema) with
      | error other =>
          obtain rfl : other = error := by simpa [widens, checked, bind, Except.bind] using failed
          exact kind_of_validate_error checked
      | ok result =>
          simp only [widens, checked, bind, Except.bind] at failed
          split at failed
          · cases failed
          · obtain rfl := Except.error.inj failed
            rfl

theorem splitCall_eq_some_iff {settings : Settings} {correlation : Correlation}
    {left right replacement : Plan} {side : RightSide} {function : Function}
    {operands : List Expr} {type : DataType} :
    (splitCall settings correlation left right side function operands type).outcome =
        .ok (some replacement) ↔
      correlation.caseRule = settings.caseRule ∧ ∃ newRight,
        side.withCall (.call function (keptOperands left function operands) type) = .ok newRight ∧
          assemble settings correlation left (foreignCalls function operands) newRight
            (correlation.schema left.schema right.schema) = .ok replacement := by
  unfold splitCall
  rw [splitOperands_eq]
  split
  · next sameCase =>
      simp only
      cases side.withCall (.call function (keptOperands left function operands) type) with
      | error error => simp
      | ok newRight =>
          cases assembled : assemble settings correlation left (foreignCalls function operands)
              newRight (correlation.schema left.schema right.schema) <;>
            simp [assembled, Except.map, sameCase]
  · next otherCase => simp [refusal, otherCase]

/-- A correlate is split, or the attempt violates an invariant of plans. -/
theorem splitCall_ends (settings : Settings) (correlation : Correlation) (left right : Plan)
    (side : RightSide) (function : Function) (operands : List Expr) (type : DataType) :
    (∃ replacement,
        (splitCall settings correlation left right side function operands type).outcome =
          .ok (some replacement)) ∨
      ∃ error,
        (splitCall settings correlation left right side function operands type).outcome =
          .error error ∧ error.kind = .planInvariantViolation := by
  unfold splitCall
  rw [splitOperands_eq]
  split
  · simp only
    cases freed : side.withCall (.call function (keptOperands left function operands) type) with
    | error error => exact .inr ⟨error, rfl, RightSide.kind_of_withCall_error freed⟩
    | ok newRight =>
        cases assembled : assemble settings correlation left (foreignCalls function operands)
            newRight (correlation.schema left.schema right.schema) with
        | error error =>
            exact .inr ⟨error, by simp [assembled, Except.map], kind_of_assemble_error assembled⟩
        | ok replacement => exact .inl ⟨replacement, by simp [assembled, Except.map]⟩
  · exact .inr ⟨_, rfl, rfl⟩

/-- The rule gives a plan, or it fails with a violated invariant of plans. -/
theorem transform_ends (settings : Settings) (node : Plan) :
    (∃ replacement, (transform settings node).outcome = .ok (some replacement)) ∨
      ∃ error, (transform settings node).outcome = .error error ∧
        error.kind = .planInvariantViolation := by
  unfold transform
  split
  · split
    · split
      · exact splitCall_ends ..
      · exact .inr ⟨_, rfl, rfl⟩
    · exact .inr ⟨_, rfl, rfl⟩
  · exact .inr ⟨_, rfl, rfl⟩

/-- The rule gives a plan for a node exactly when the node is a correlate that can be split. -/
theorem transform_eq_some_iff {settings : Settings} {node replacement : Plan} :
    (transform settings node).outcome = .ok (some replacement) ↔
      ∃ correlation left right, node = .correlate correlation left right ∧
        ∃ split : Split settings correlation left right, replacement = split.replacement := by
  constructor
  · intro transformed
    unfold transform at transformed
    split at transformed
    · next correlation left right =>
        split at transformed
        · next side ofRight =>
            split at transformed
            · next function operands type isCall =>
                obtain ⟨sameCase, newRight, freed, assembled⟩ :=
                  splitCall_eq_some_iff.mp transformed
                obtain ⟨widened, widens, newRightValid, sameRow, rfl⟩ :=
                  assemble_eq_ok_iff.mp assembled
                exact ⟨correlation, left, right, rfl, ⟨side, function, operands, type, newRight,
                  widened, ofRight, isCall, sameCase, freed, widens, newRightValid, sameRow⟩, rfl⟩
            · cases transformed
        · cases transformed
    · cases transformed
  · rintro ⟨correlation, left, right, rfl, split, rfl⟩
    simp only [transform, split.ofRight, split.isCall]
    refine splitCall_eq_some_iff.mpr ⟨split.sameCase, split.newRight, split.freed, ?_⟩
    exact assemble_eq_ok_iff.mpr
      ⟨split.widened, split.widens, split.newRightValid, split.sameRow, rfl⟩

/-- A python table function that gives its arguments back as one row. -/
def pair : TableFunction where
  identity := "PAIR"
  name := "PAIR"
  dialect := .python
  resultType := .int
  schema := [⟨"a", .int⟩, ⟨"b", .int⟩]
  generate arguments := .ok [arguments]

/-- The scan of `PAIR` with two operands. -/
def pairScan (first second : Expr) : Plan :=
  .scan ⟨.call (.table pair) [first, second] .int, .int, pair.schema, []⟩ []

/-- A correlate of the row `x` with `PAIR(ABS($0), $index)`. -/
def pairPlan (x : Int32) (index : Nat) : Plan :=
  .correlate ⟨0, .empty, .inner, .sensitive⟩ (.values [⟨"x", .int⟩] [[.int x]])
    (pairScan (.absOf (.ref 0 .int)) (.ref index .int))

/-- What the split makes of it: `ABS($0)` has become the left field `$1`. -/
def splitPairPlan (x : Int32) (index : Nat) : Plan :=
  .project ⟨[.ref 0 .int, .ref 2 .int, .ref 3 .int], ["x", "a", "b"]⟩ <|
    .correlate ⟨0, .empty, .inner, .sensitive⟩
      (.project ⟨[.ref 0 .int, .absOf (.ref 0 .int)], ["x", "f0"]⟩
        (.values [⟨"x", .int⟩] [[.int x]]))
      (pairScan (.ref 1 .int) (.ref index .int))

example (x : Int32) :
    (transform .standard (pairPlan x 0)).outcome = .ok (some (splitPairPlan x 0)) :=
  rfl

end DialectSplit

end Lateral
