import Lateral.Function.Table
import Lateral.Proofs.Expr.Strictness
import Lateral.Proofs.Plan.Merging
import Lateral.Proofs.Plan.Progress

/-!
# Fields that nothing reads

A chain of projections computes every field of every projection in it. The projection
that it is merged to computes only what its own fields read, directly or through other
fields. `run_iff_run_merged` says that this is the whole difference between the two: the
chain gives rows exactly when the merged projection gives the same rows and no field fails
that nothing reads (`FailsUnread`). Since evaluation is strict, a field that something
reads fails in the merged projection as well.
-/

namespace Lateral

/-- The fields of its input that a projection reads for its own fields at the given places. -/
def Projection.reads (projection : Projection) (places : List Nat) : List Nat :=
  places.flatMap (Expr.referencesAt projection.expressions)

/-- A field that is read for a field at one of the places is referred to in its expression. -/
theorem Projection.mem_reads_iff {projection : Projection} {places : List Nat} {index : Nat} :
    index ∈ projection.reads places ↔
      ∃ place ∈ places, ∃ expression, projection.expressions[place]? = some expression ∧
        index ∈ expression.references := by
  simp only [reads, List.mem_flatMap, Expr.referencesAt]
  refine exists_congr fun place => and_congr_right fun _ => ?_
  cases projection.expressions[place]? <;> simp

namespace Plan

/-- Running a plan of which the fields at the given places are read fails at a field that nothing
reads: on one of the rows that it gets, a projection at the root of the plan fails at a field that
is not read, or this happens further down in the chain of projections, where the fields are read
that this projection reads for those that are read of it. -/
inductive FailsUnread (outer : Option Row) : (read : List Nat) → Plan → Prop where
  | here {read : List Nat} {projection : Projection} {input : Plan} {rows : List Row} {row : Row}
      {place : Nat} {expression : Expr} {error : Error}
      (inputRan : run outer input = .ok rows) (member : row ∈ rows)
      (found : projection.expressions[place]? = some expression) (unread : place ∉ read)
      (fails : Expr.eval row expression = .error error) :
      FailsUnread outer read (.project projection input)
  | deeper {read : List Nat} {projection : Projection} {input : Plan}
      (fails : FailsUnread outer (projection.reads read) input) :
      FailsUnread outer read (.project projection input)

variable {outer : Option Row}

/-- Where rows are projected, each expression has a value on each of them. -/
theorem exists_eval_of_projectRows {expressions : List Expr} {rows outputs : List Row}
    (projected : projectRows expressions rows = .ok outputs) {row : Row} (member : row ∈ rows)
    {place : Nat} {expression : Expr} (found : expressions[place]? = some expression) :
    ∃ value, Expr.eval row expression = .ok value := by
  obtain ⟨output, -, evaluated⟩ :=
    Expr.exists_mem_of_forall₂ (projectRows_eq_ok_iff.mp projected) member
  obtain ⟨value, -, isValue⟩ := Expr.eval_getElem?_of_evalAll evaluated found
  exact ⟨value, isValue⟩

/-- A plan that runs fails at no field. -/
theorem not_failsUnread_of_run {read : List Nat} {plan : Plan} {rows : List Row}
    (ran : run outer plan = .ok rows) : ¬ FailsUnread outer read plan := by
  intro fails
  induction fails generalizing rows with
  | here inputRan member found unread fails =>
      obtain ⟨inputRows, inputRanToo, projected⟩ := run_project_eq_ok_iff.mp ran
      obtain rfl := Except.ok.inj (inputRan.symm.trans inputRanToo)
      obtain ⟨value, evaluated⟩ := exists_eval_of_projectRows projected member found
      rw [evaluated] at fails
      cases fails
  | deeper fails inductionHypothesis =>
      obtain ⟨inputRows, inputRan, -⟩ := run_project_eq_ok_iff.mp ran
      exact inductionHypothesis inputRan

/-- A projection runs on the rows of its input when the fields that are read have values on them
and no other field fails. -/
theorem exists_run_of_input {read : List Nat} {projection : Projection} {input : Plan}
    {rows : List Row} (inputRan : run outer input = .ok rows)
    (haveValues : ∀ row ∈ rows, ∀ place ∈ read, ∀ expression,
      projection.expressions[place]? = some expression →
        ∃ value, Expr.eval row expression = .ok value)
    (noneFails : ¬ FailsUnread outer read (.project projection input)) :
    ∃ outputs, run outer (.project projection input) = .ok outputs := by
  cases projected : projectRows projection.expressions rows with
  | ok outputs => exact ⟨outputs, run_project_eq_ok_iff.mpr ⟨rows, inputRan, projected⟩⟩
  | error error =>
      obtain ⟨row, member, rowFailed⟩ := exists_of_projectRows_error projected
      obtain ⟨place, expression, found, fails⟩ := Expr.exists_getElem?_of_evalAll_error rowFailed
      by_cases isRead : place ∈ read
      · obtain ⟨value, evaluated⟩ := haveValues row member place isRead expression found
        rw [evaluated] at fails
        cases fails
      · exact absurd (.here inputRan member found isRead fails) noneFails

/-- A chain of projections runs when its scan does, the merged projection has values in the fields
that are read, and no other field fails on the way. -/
theorem exists_run_of_merged {source : Scan} {inputs : List Plan} {input : Plan}
    {projection merged : Projection} {read : List Nat} {produced : List Row}
    (chain : EndsIn source inputs input) (merges : projection.merged input = .ok merged)
    (scanRan : runScan source (outer.getD []) = .ok produced)
    (haveValues : ∀ row ∈ produced, ∀ place ∈ read, ∀ expression,
      merged.expressions[place]? = some expression → ∃ value, Expr.eval row expression = .ok value)
    (noneFails : ¬ FailsUnread outer read (.project projection input)) :
    ∃ rows, run outer (.project projection input) = .ok rows := by
  induction chain generalizing projection merged read with
  | scan =>
      obtain rfl : projection = merged := by simpa [Projection.merged] using merges
      exact exists_run_of_input scanRan haveValues noneFails
  | @project lower input below inductionHypothesis =>
      obtain ⟨bottom, expressions, bottomMerges, substituted, rfl⟩ :=
        Projection.merged_project_eq_ok_iff.mp merges
      have places := Expr.substituteAll_eq_ok_iff.mp substituted
      -- evaluation is strict, so the fields that are read below have values as well
      have lowerHaveValues : ∀ row ∈ produced, ∀ index ∈ projection.reads read, ∀ field,
          bottom.expressions[index]? = some field →
            ∃ value, Expr.eval row field = .ok value := by
        intro row member index isRead field isField
        obtain ⟨place, placeRead, expression, found, reference⟩ :=
          Projection.mem_reads_iff.mp isRead
        obtain ⟨result, isResult, inExpression⟩ := Expr.exists_getElem?_of_forall₂ places found
        obtain ⟨value, evaluated⟩ := haveValues row member place placeRead result isResult
        exact Expr.exists_eval_of_substitute inExpression evaluated reference isField
      obtain ⟨middle, inputRan⟩ := inductionHypothesis bottomMerges lowerHaveValues
        fun fails => noneFails (.deeper fails)
      obtain ⟨others, othersRan, projected⟩ := run_merged below.scanBelow?_eq bottomMerges inputRan
      obtain rfl : produced = others := Except.ok.inj (scanRan.symm.trans othersRan)
      refine exists_run_of_input inputRan (fun row member place isRead expression found => ?_)
        noneFails
      obtain ⟨scanRow, scanMember, evaluated⟩ :=
        Expr.exists_mem_of_forall₂ (projectRows_eq_ok_iff.mp projected).flip member
      obtain ⟨result, isResult, inExpression⟩ := Expr.exists_getElem?_of_forall₂ places found
      obtain ⟨value, resultEvaluated⟩ := haveValues scanRow scanMember place isRead result isResult
      have sameOutcome := Expr.eval_substitute evaluated expression inExpression
      exact ⟨value, sameOutcome.symm.trans resultEvaluated⟩

/-- A valid projection over a chain of projections that ends in a scan can be merged with the chain
into one projection over the scan, with its names and as many expressions, which is prepared as the
chain is. Whatever the correlation row, the chain gives rows exactly when the merged projection
gives the same rows and none of the fields below fails that nothing reads. So both have the same
rows or both fail, unless the chain fails at such a field. -/
theorem run_iff_run_merged {caseRule : CaseRule} {row : Option Schema} {projection : Projection}
    {input : Plan} {source : Scan} {inputs : List Plan}
    (valid : (Plan.project projection input).Valid caseRule row)
    (found : (Plan.project projection input).scanBelow? = some (source, inputs)) :
    ∃ merged, projection.merged input = .ok merged ∧
      input.belowProjections = .scan source inputs ∧
      merged.names = projection.names ∧
      merged.expressions.length = projection.expressions.length ∧
      (Plan.project merged input.belowProjections).prepare =
        (Plan.project projection input).prepare ∧
      ∀ outer rows, run outer (.project projection input) = .ok rows ↔
        run outer (.project merged input.belowProjections) = .ok rows ∧
          ¬ FailsUnread outer (List.range projection.expressions.length)
            (.project projection input) := by
  obtain ⟨merged, merges, -⟩ := exists_merged_of_valid valid found
  have chain : EndsIn source inputs input := endsIn_of_scanBelow? found
  have mergedRuns : ∀ outer rows, run outer (.project projection input) = .ok rows →
      run outer (.project merged (.scan source inputs)) = .ok rows := fun outer rows ran =>
    run_project_eq_ok_iff.mpr (run_merged chain.scanBelow?_eq merges ran)
  rw [chain.belowProjections_eq]
  refine ⟨merged, merges, rfl, Projection.names_of_merged merges,
    Projection.length_of_merged merges, (prepare_of_scanBelow? found).symm, fun outer rows => ?_⟩
  constructor
  · intro ran
    exact ⟨mergedRuns outer rows ran, not_failsUnread_of_run ran⟩
  · rintro ⟨mergedRan, noneFails⟩
    obtain ⟨produced, scanRan, projected⟩ := run_project_eq_ok_iff.mp mergedRan
    obtain ⟨others, ran⟩ := exists_run_of_merged chain merges scanRan
      (fun row member place _ expression found => exists_eval_of_projectRows projected member found)
      noneFails
    obtain rfl : rows = others :=
      Except.ok.inj (mergedRan.symm.trans (mergedRuns outer others ran))
    exact ran

/-- The scan of `RANGE(2)`. -/
def rangeScan : Scan :=
  ⟨.call (.table (.range "RANGE")) [.const (.int 2) .int] .int, .int, [⟨"range", .int⟩], []⟩

/-- The fields `$0` and `TO_UPPER($0)` of `RANGE(2)`. -/
def shoutedRange : Plan :=
  .project ⟨[.ref 0 .int, .upperOf (.ref 0 .int)], ["n", "t"]⟩
    (.scan rangeScan [])

/-- The projection on the first field. -/
def firstField : Projection :=
  ⟨[.ref 0 .int], ["n"]⟩

/-- The first field of `shoutedRange` is merged to the first field of `RANGE(2)`, which has rows. The
chain has none, since it fails at `TO_UPPER($0)`, which nothing reads. -/
theorem run_iff_run_merged_shoutedRange :
    run none (.project firstField (.scan rangeScan [])) = .ok [[.int 0], [.int 1]] ∧
      FailsUnread none [0] (.project firstField shoutedRange) := by
  have valid : (Plan.project firstField shoutedRange).Valid .sensitive none := rfl
  have found : (Plan.project firstField shoutedRange).scanBelow? = some (rangeScan, []) := rfl
  obtain ⟨merged, merges, -, -, -, -, sameRows⟩ := run_iff_run_merged valid found
  obtain rfl : firstField = merged := Except.ok.inj merges
  have mergedRan : run none (.project firstField (.scan rangeScan [])) =
      .ok [[.int 0], [.int 1]] := rfl
  refine ⟨mergedRan, ?_⟩
  by_contra noneFails
  have ran := (sameRows none [[.int 0], [.int 1]]).mpr ⟨mergedRan, noneFails⟩
  cases ran

/-- A valid chain over a scan that fails where the projection that it is merged to has rows. -/
theorem run_merged_hides_failure :
    (Plan.project firstField shoutedRange).Valid .sensitive none ∧
      (Plan.project firstField shoutedRange).scanBelow? = some (rangeScan, []) ∧
        firstField.merged shoutedRange = .ok firstField ∧
          run none (.project firstField shoutedRange) =
            .error (.call "TO_UPPER" (.unmet .stringArgument)) ∧
              run none (.project firstField shoutedRange.belowProjections) =
                .ok [[.int 0], [.int 1]] :=
  ⟨rfl, rfl, rfl, rfl, rfl⟩

end Plan

end Lateral
