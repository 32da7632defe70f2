import Lateral.Proofs.Expr.Strictness

/-!
# Fields that evaluation looks up

Evaluation with a record of its look-ups (`trace`), which ends as plain evaluation does
(`outcome_trace`). Each run looks up the references of the expression from left to right,
all of them unless it fails on the way (`follows_trace`), and two rows that look alike at
the places of one run have the same run (`trace_congr`). So the references of an
expression are what its evaluation can read of a row (`eval_reads_references`).
-/

namespace Lateral.Expr

/-- A run on a row: the indices that were looked up, in order, and how the run ended. -/
structure Trace (α : Type) where
  lookups : List Nat
  outcome : Except Error α

namespace Trace

variable {α β : Type}

/-- A run that ends without looking at the row. -/
def done (outcome : Except Error α) : Trace α where
  lookups := []
  outcome := outcome

/-- Looks up one field of a row. A missing field is looked up as well. -/
def lookup (row : Row) (index : Nat) : Trace Value where
  lookups := [index]
  outcome :=
    match row[index]? with
    | some value => .ok value
    | none => .error (.shortRow index row.length)

/-- Goes on with the result of a run. A failed run stops. -/
def andThen (run : Trace α) (next : α → Trace β) : Trace β :=
  match run.outcome with
  | .ok result => ⟨run.lookups ++ (next result).lookups, (next result).outcome⟩
  | .error error => ⟨run.lookups, .error error⟩

variable {run other : Trace α} {next otherNext : α → Trace β}

theorem andThen_of_ok {result : α} (ended : run.outcome = .ok result) :
    run.andThen next = ⟨run.lookups ++ (next result).lookups, (next result).outcome⟩ := by
  simp only [andThen, ended]

theorem andThen_of_error {error : Error} (ended : run.outcome = .error error) :
    run.andThen next = ⟨run.lookups, .error error⟩ := by
  simp only [andThen, ended]

/-- A run with another one behind it ends as the two do one after the other. -/
theorem outcome_andThen :
    (run.andThen next).outcome = run.outcome.bind fun result => (next result).outcome := by
  cases ended : run.outcome with
  | error error => rw [andThen_of_error ended, Except.bind]
  | ok result => rw [andThen_of_ok ended, Except.bind]

/-- The run looks up the given indices in order: all of them when it has a result, and a beginning
of them when it fails. -/
structure Follows (run : Trace α) (indices : List Nat) : Prop where
  begins : run.lookups <+: indices
  complete : ∀ result, run.outcome = .ok result → run.lookups = indices

theorem follows_done (outcome : Except Error α) : (done outcome).Follows [] :=
  ⟨List.prefix_rfl, fun _ _ => rfl⟩

theorem follows_lookup (row : Row) (index : Nat) : (lookup row index).Follows [index] :=
  ⟨List.prefix_rfl, fun _ _ => rfl⟩

/-- One run behind another looks up what the second one looks up behind what the first one does. -/
theorem Follows.andThen {front back : List Nat} (first : run.Follows front)
    (later : ∀ result, run.outcome = .ok result → (next result).Follows back) :
    (run.andThen next).Follows (front ++ back) := by
  cases ended : run.outcome with
  | error error =>
      rw [andThen_of_error ended]
      exact ⟨first.begins.trans (List.prefix_append front back), nofun⟩
  | ok result =>
      have rest := later result ended
      rw [andThen_of_ok ended, first.complete result ended]
      refine ⟨(List.prefix_append_right_inj front).mpr rest.begins, fun final finalEnded => ?_⟩
      exact congrArg (front ++ ·) (rest.complete final finalEnded)

/-- Two runs are equal when their first parts are and, for each result, their second parts are. For
either part it may be taken for granted what holds at all look-ups of the run. -/
theorem andThen_congr {alike : Nat → Prop}
    (everywhere : ∀ index ∈ (run.andThen next).lookups, alike index)
    (first : (∀ index ∈ run.lookups, alike index) → run = other)
    (later : ∀ result, (∀ index ∈ (next result).lookups, alike index) →
      next result = otherNext result) :
    run.andThen next = other.andThen otherNext := by
  cases ended : run.outcome with
  | error error =>
      rw [andThen_of_error ended] at everywhere
      obtain rfl := first everywhere
      rw [andThen_of_error ended, andThen_of_error ended]
  | ok result =>
      rw [andThen_of_ok ended] at everywhere
      obtain ⟨inFirst, inLater⟩ := List.forall_mem_append.mp everywhere
      obtain rfl := first inFirst
      rw [andThen_of_ok ended, andThen_of_ok ended, later result inLater]

end Trace

open Trace (done lookup)

mutual

/-- Evaluation on a row with a record of its look-ups. -/
def trace (row : Row) : Expr → Trace Value
  | .ref index _ => lookup row index
  | .const value _ => done (.ok value)
  | .call (.table function) _ _ => done (.error (.call function.name .notScalar))
  | .call (.scalar function) operands _ =>
    (traceAll row operands).andThen fun arguments => done (function.invoke arguments)

/-- Evaluation of a list of expressions with a record of its look-ups. -/
def traceAll (row : Row) : List Expr → Trace (List Value)
  | [] => done (.ok [])
  | expression :: rest =>
    (trace row expression).andThen fun value =>
      (traceAll row rest).andThen fun values => done (.ok (value :: values))

end

mutual

/-- To keep a record changes nothing about the end of an evaluation. -/
theorem outcome_trace (row : Row) : (expression : Expr) →
    (trace row expression).outcome = eval row expression
  | .ref .. => rfl
  | .const .. => rfl
  | .call (.table _) .. => rfl
  | .call (.scalar function) operands type => by
      have sameArguments := outcome_traceAll row operands
      rw [trace, Trace.outcome_andThen, sameArguments, eval]
      cases evalAll row operands <;> rfl

/-- The same for a list of expressions. -/
theorem outcome_traceAll (row : Row) : (expressions : List Expr) →
    (traceAll row expressions).outcome = evalAll row expressions
  | [] => rfl
  | expression :: rest => by
      have sameFirst := outcome_trace row expression
      have sameRest := outcome_traceAll row rest
      simp only [traceAll, Trace.outcome_andThen, sameFirst, sameRest, evalAll]
      cases eval row expression with
      | error error => rfl
      | ok value => cases evalAll row rest <;> rfl

end

mutual

/-- Evaluation looks up the references of an expression from left to right. -/
theorem follows_trace (row : Row) : (expression : Expr) →
    (trace row expression).Follows expression.references
  | .ref index _ => Trace.follows_lookup row index
  | .const .. => Trace.follows_done _
  | .call (.table _) .. =>
      -- The operands of such a call are referred to, but the call fails before they are evaluated.
      ⟨List.nil_prefix, nofun⟩
  | .call (.scalar function) operands type => by
      have operandsFirst := (follows_traceAll row operands).andThen
        fun arguments _ => Trace.follows_done (function.invoke arguments)
      simpa [trace] using operandsFirst

/-- The same for a list of expressions. -/
theorem follows_traceAll (row : Row) : (expressions : List Expr) →
    (traceAll row expressions).Follows (expressions.flatMap references)
  | [] => Trace.follows_done _
  | expression :: rest => by
      have inOrder := (follows_trace row expression).andThen fun value _ =>
        (follows_traceAll row rest).andThen fun values _ =>
          Trace.follows_done (.ok (value :: values))
      simpa [traceAll] using inOrder

end

mutual

/-- A row that looks like another one wherever a run looks has the same run. -/
theorem trace_congr {row other : Row} : (expression : Expr) →
    (∀ index ∈ (trace row expression).lookups, lookup row index = lookup other index) →
      trace row expression = trace other expression
  | .ref index _, alike => alike index List.mem_cons_self
  | .const .., _ => rfl
  | .call (.table _) .., _ => rfl
  | .call (.scalar _) operands _, alike =>
      Trace.andThen_congr alike (traceAll_congr operands) fun _ _ => rfl

/-- The same for a list of expressions. -/
theorem traceAll_congr {row other : Row} : (expressions : List Expr) →
    (∀ index ∈ (traceAll row expressions).lookups, lookup row index = lookup other index) →
      traceAll row expressions = traceAll other expressions
  | [], _ => rfl
  | expression :: rest, alike =>
      Trace.andThen_congr alike (trace_congr expression) fun _ alikeInRest =>
        Trace.andThen_congr alikeInRest (traceAll_congr rest) fun _ _ => rfl

end

/-- Fields that both rows have and that agree look alike. -/
theorem lookup_congr {row other : Row} {index : Nat} (inside : index < row.length)
    (agree : row[index]? = other[index]?) : lookup row index = lookup other index := by
  have here : row[index]? = some row[index] := List.getElem?_eq_getElem inside
  simp only [lookup, ← agree, here]

/-- The references of an expression are what its evaluation can read of a row.

On two rows that have a field for each reference and agree at the references, the same fields are
looked up and evaluation ends in the same way, be it with a value or with an error of the same kind
and message. In particular, fields behind a row change nothing. On every row the look-ups are a
beginning of the references, and all of them when there is a value; so there is none on a row
without a field for each reference. -/
theorem eval_reads_references (expression : Expr) :
    (∀ row other : Row,
      (∀ index ∈ expression.references, index < row.length ∧ index < other.length) →
      (∀ index ∈ expression.references, row[index]? = other[index]?) →
        eval row expression = eval other expression ∧
          (trace row expression).lookups = (trace other expression).lookups) ∧
    (∀ row extra : Row, (∀ index ∈ expression.references, index < row.length) →
      eval (row ++ extra) expression = eval row expression) ∧
    ∀ row : Row,
      (trace row expression).outcome = eval row expression ∧
      (trace row expression).lookups <+: expression.references ∧
      (∀ value, eval row expression = .ok value →
        (trace row expression).lookups = expression.references) ∧
      ∀ index ∈ expression.references, row.length ≤ index →
        ∃ error, eval row expression = .error error := by
  refine ⟨fun row other inside agree => ?_, fun row extra inside => ?_, fun row => ?_⟩
  · have sameRun : trace row expression = trace other expression := by
      refine trace_congr expression fun index lookedUp => ?_
      have reference := (follows_trace row expression).begins.subset lookedUp
      exact lookup_congr (inside index reference).1 (agree index reference)
    rw [← outcome_trace, ← outcome_trace, sameRun]
    exact ⟨rfl, rfl⟩
  · exact eval_append_right extra inside
  · have follows := follows_trace row expression
    refine ⟨outcome_trace row expression, follows.begins, fun value evaluated => ?_,
      fun index reference behind => ?_⟩
    · exact follows.complete value ((outcome_trace row expression).trans evaluated)
    · cases ended : eval row expression with
      | error error => exact ⟨error, rfl⟩
      | ok value => exact absurd (lt_of_eval ended index reference) (Nat.not_lt.mpr behind)

/-- The call `CONCAT($2, ABS($0), $3)`, which leaves out `$1`. -/
def gappedCall : Expr :=
  concatOf [.ref 2 .string, absOf (.ref 0 .int), .ref 3 .int]

/-- On rows of four and of five fields that differ at `$1`, the call gives the same text where `$0`
is an integer, and fails in the same way where it is none. A further field changes nothing. The run
with a value looks up all of `$2`, `$0` and `$3`, and on a row without `$3` there is no value. -/
theorem eval_reads_references_gappedCall :
    (∀ index ∈ gappedCall.references,
      index < [Value.int (-7), .null, .string "a", .int 1].length ∧
        index < [Value.int (-7), .int 5, .string "a", .int 1, .null].length) ∧
    eval [.int (-7), .null, .string "a", .int 1] gappedCall = .ok (.string "a71") ∧
    eval [.int (-7), .int 5, .string "a", .int 1, .null] gappedCall = .ok (.string "a71") ∧
    eval [.string "x", .int 5, .string "a", .int 1, .null] gappedCall =
      .error (.call "ABS" (.unmet .intArgument)) ∧
    eval ([.int (-7), .null, .string "a", .int 1] ++ [.int 9]) gappedCall = .ok (.string "a71") ∧
    (trace [.int (-7), .null, .string "a", .int 1] gappedCall).lookups = [2, 0, 3] ∧
    ∃ error, eval [.int (-7), .null, .string "a"] gappedCall = .error error := by
  have references : gappedCall.references = [2, 0, 3] := rfl
  have value : eval [.int (-7), .null, .string "a", .int 1] gappedCall = .ok (.string "a71") := rfl
  have failure : eval [.string "x", .null, .string "a", .int 1] gappedCall =
      .error (.call "ABS" (.unmet .intArgument)) := rfl
  obtain ⟨agreeing, widened, runs⟩ := eval_reads_references gappedCall
  rw [references] at agreeing widened runs ⊢
  obtain ⟨-, -, complete, -⟩ := runs [.int (-7), .null, .string "a", .int 1]
  obtain ⟨-, -, -, needed⟩ := runs [.int (-7), .null, .string "a"]
  refine ⟨by decide, value, ?_, ?_, ?_, complete _ value, needed 3 (by decide) (by decide)⟩
  · exact (agreeing _ _ (by decide) (by decide)).1.symm.trans value
  · exact (agreeing _ _ (by decide) (by decide)).1.symm.trans failure
  · exact (widened _ _ (by decide)).trans value

/-- A run that fails looks up nothing behind its failure. -/
example : (trace [.string "x", .null, .string "a", .int 1] gappedCall).lookups = [2, 0] := rfl

end Lateral.Expr
