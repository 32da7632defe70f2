import Mathlib.Logic.Relation
import Lateral.Function.Scalar
import Lateral.Proofs.Expr.Composition
import Lateral.Proofs.Plan.Merging

/-!
# The order of merging

A chain of projections can be merged two neighbours at a time (`Plan.Merges`) as well as from its
lower end. One step keeps what the chain is merged to (`Plan.Merges.mergesTo`), so it does not
matter where merging starts or goes on, and as long as two projections stand one on the
other merging can go on (`Plan.MergesTo.exists_onto`). Behind this stands the composition of
substitutions (`Plan.substitution_laws`).
-/

namespace Lateral

namespace Projection

/-- The projection that computes on the input of `lower` what `upper` computes on `lower`. -/
def onto (upper lower : Projection) : Except Error Projection :=
  (Expr.substituteAll lower.expressions upper.expressions).map fun expressions =>
    ⟨expressions, upper.names⟩

theorem onto_eq_ok_iff {upper lower both : Projection} :
    upper.onto lower = .ok both ↔
      Expr.substituteAll lower.expressions upper.expressions = .ok both.expressions ∧
        both.names = upper.names := by
  obtain ⟨expressions, names⟩ := both
  cases substituted : Expr.substituteAll lower.expressions upper.expressions <;>
    simp [onto, substituted, Except.map, eq_comm]

/-- A chain is merged from its lower end. -/
theorem merged_project (projection lower : Projection) (input : Plan) :
    projection.merged (.project lower input) = (lower.merged input).bind projection.onto := by
  rw [merged]
  cases lower.merged input with
  | error error => rfl
  | ok bottom =>
      cases substituted : Expr.substituteAll bottom.expressions projection.expressions <;>
        simp [onto, substituted, Except.bind, Except.map]

/-- Of three projections the upper two may come first, when the lower two can be merged. -/
theorem onto_bind {upper middle lower below : Projection}
    (composes : middle.onto lower = .ok below) :
    (upper.onto middle).bind (·.onto lower) = upper.onto below := by
  have law := Expr.substituteAll_bind (onto_eq_ok_iff.mp composes).1 upper.expressions
  rw [onto, onto, ← law]
  cases Expr.substituteAll middle.expressions upper.expressions <;> rfl

/-- A projection merged into the one below comes to the same as that one merged first. -/
theorem merged_of_onto {upper lower both bottom : Projection} {input : Plan}
    (merges : lower.merged input = .ok bottom) (isBoth : upper.onto lower = .ok both) :
    both.merged input = upper.onto bottom := by
  cases input with
  | project last input =>
      rw [merged_project] at merges ⊢
      cases belowMerges : last.merged input with
      | error error => simp [belowMerges, Except.bind] at merges
      | ok below =>
          rw [belowMerges] at merges
          rw [← onto_bind merges, isBoth]
          rfl
  | _ =>
      obtain rfl : lower = bottom := Except.ok.inj merges
      exact isBoth.symm

end Projection

namespace Plan

/-- A projection at the root is merged with the one right below it, or one further down is. -/
inductive Merges : Plan → Plan → Prop where
  | root {upper lower both : Projection} (input : Plan) (isBoth : upper.onto lower = .ok both) :
      Merges (.project upper (.project lower input)) (.project both input)
  | inside (projection : Projection) {input other : Plan} (step : Merges input other) :
      Merges (.project projection input) (.project projection other)

/-- The chain of projections at the root is merged to the given one. -/
inductive MergesTo (merged : Projection) : Plan → Prop where
  | chain {projection : Projection} {input : Plan} (merges : projection.merged input = .ok merged) :
      MergesTo merged (.project projection input)

theorem mergesTo_project_iff {merged projection : Projection} {input : Plan} :
    MergesTo merged (.project projection input) ↔ projection.merged input = .ok merged :=
  ⟨fun | .chain merges => merges, .chain⟩

/-- A chain of two or more is merged when it is merged without its topmost projection. -/
theorem mergesTo_project_project_iff {merged upper lower : Projection} {input : Plan} :
    MergesTo merged (.project upper (.project lower input)) ↔
      ∃ bottom, MergesTo bottom (.project lower input) ∧ upper.onto bottom = .ok merged := by
  simp only [mergesTo_project_iff, Projection.merged_project]
  cases lower.merged input <;> simp [Except.bind]

/-- A projection over a chain is merged with what the chain is merged to. -/
theorem MergesTo.project {bottom merged upper : Projection} {input : Plan}
    (chain : MergesTo bottom input) (isMerged : upper.onto bottom = .ok merged) :
    MergesTo merged (.project upper input) := by
  cases chain with
  | chain merges =>
      exact mergesTo_project_project_iff.mpr ⟨bottom, .chain merges, isMerged⟩

/-- A step is made at a projection only. -/
theorem Merges.exists_eq_project {plan other : Plan} (step : Merges plan other) :
    ∃ projection input, plan = .project projection input := by
  cases step <;> exact ⟨_, _, rfl⟩

/-- Merging two neighbours keeps what a chain is merged to. -/
theorem Merges.mergesTo {plan other : Plan} (step : Merges plan other) {merged : Projection}
    (chain : MergesTo merged plan) : MergesTo merged other := by
  induction step generalizing merged with
  | root input isBoth =>
      obtain ⟨bottom, lowerMerges, isMerged⟩ := mergesTo_project_project_iff.mp chain
      rw [mergesTo_project_iff] at lowerMerges ⊢
      rw [Projection.merged_of_onto lowerMerges isBoth, isMerged]
  | inside projection step inductionHypothesis =>
      obtain ⟨lower, below, rfl⟩ := step.exists_eq_project
      obtain ⟨bottom, inputMerges, isMerged⟩ := mergesTo_project_project_iff.mp chain
      exact (inductionHypothesis inputMerges).project isMerged

/-- However neighbours are merged, a chain keeps what it is merged to. -/
theorem mergesTo_of_steps {plan other : Plan} (steps : Relation.ReflTransGen Merges plan other)
    {merged : Projection} (chain : MergesTo merged plan) : MergesTo merged other := by
  induction steps with
  | refl => exact chain
  | tail steps step inductionHypothesis => exact step.mergesTo inductionHypothesis

/-- The topmost two of a chain that is merged can be merged first. -/
theorem MergesTo.exists_onto {merged upper lower : Projection} {input : Plan}
    (chain : MergesTo merged (.project upper (.project lower input))) :
    ∃ both, upper.onto lower = .ok both := by
  obtain ⟨bottom, lowerMerges, isMerged⟩ := mergesTo_project_project_iff.mp chain
  have sameCount := Projection.length_of_merged (mergesTo_project_iff.mp lowerMerges)
  have covered : ∀ index ∈ upper.expressions.flatMap Expr.references,
      index < lower.expressions.length := by
    rw [← sameCount]
    exact Expr.lt_of_substituteAll _ (Projection.onto_eq_ok_iff.mp isMerged).1
  obtain ⟨expressions, substituted⟩ := Expr.exists_substituteAll _ covered
  exact ⟨⟨expressions, upper.names⟩, Projection.onto_eq_ok_iff.mpr ⟨substituted, rfl⟩⟩

/-- Merging keeps the input that a chain stands on. -/
theorem Merges.belowProjections_eq {plan other : Plan} (step : Merges plan other) :
    other.belowProjections = plan.belowProjections := by
  induction step with
  | root input isBoth => rfl
  | inside projection step inductionHypothesis => exact inductionHypothesis

theorem belowProjections_eq_of_steps {plan other : Plan}
    (steps : Relation.ReflTransGen Merges plan other) :
    other.belowProjections = plan.belowProjections := by
  induction steps with
  | refl => rfl
  | tail steps step inductionHypothesis => exact step.belowProjections_eq.trans inductionHypothesis

/-- A chain is either the single projection that it is merged to, or two neighbours of it can be
merged. -/
theorem MergesTo.eq_or_exists_merges {merged : Projection} {plan : Plan}
    (chain : MergesTo merged plan) :
    plan = .project merged plan.belowProjections ∨ ∃ next, Merges plan next := by
  cases chain with
  | @chain projection input merges =>
      cases input with
      | project lower input =>
          obtain ⟨both, isBoth⟩ := (MergesTo.chain merges).exists_onto
          exact .inr ⟨_, .root input isBoth⟩
      | _ =>
          obtain rfl : projection = merged := Except.ok.inj merges
          exact .inl rfl

/-- Something can be put in for the references of an expression exactly when they lie within the
fields, and the result refers to what those fields refer to, in the order of the references. Fields
that were themselves substituted in can be put in at once or one after the other, with the same
result or the same failure. And so a chain of projections that can be merged from its lower end
can be merged two neighbours at a time, wherever one starts and goes on, and it ends as the same
projection over the same input. -/
theorem substitution_laws :
    (∀ (fields : List Expr) (expression : Expr),
      ((∃ result, Expr.substitute fields expression = .ok result) ↔
        ∀ index ∈ expression.references, index < fields.length) ∧
      ∀ result, Expr.substitute fields expression = .ok result →
        result.references = expression.references.flatMap (Expr.referencesAt fields)) ∧
    (∀ fields below composed : List Expr, Expr.substituteAll below fields = .ok composed →
      ∀ expression, (Expr.substitute fields expression).bind (Expr.substitute below) =
        Expr.substitute composed expression) ∧
    ∀ (merged : Projection) (plan : Plan), MergesTo merged plan →
      ∀ other, Relation.ReflTransGen Merges plan other → MergesTo merged other ∧
        (other = .project merged plan.belowProjections ∨ ∃ next, Merges other next) := by
  refine ⟨fun fields expression => ⟨Expr.exists_substitute_iff, fun result substituted =>
      Expr.references_substitute expression substituted⟩,
    fun fields below composed composes => Expr.substitute_bind composes, ?_⟩
  intro merged plan chain other steps
  have otherChain := mergesTo_of_steps steps chain
  refine ⟨otherChain, ?_⟩
  rw [← belowProjections_eq_of_steps steps]
  exact otherChain.eq_or_exists_merges

/-- The projections `CONCAT($1, $0)`, `ABS($1), $0` and `7, $0`, one on the other. -/
def threeProjections : Plan :=
  .project ⟨[.concatOf [.ref 1 .int, .ref 0 .int]], ["text"]⟩ <|
    .project ⟨[.absOf (.ref 1 .int), .ref 0 .int], ["size", "seven"]⟩ <|
      .project ⟨[.literal (.int 7), .ref 0 .int], ["seven", "x"]⟩ <|
        .values [⟨"x", .int⟩] [[.int (-2)]]

/-- The same chain after its upper two projections are merged. -/
def twoProjections : Plan :=
  .project ⟨[.concatOf [.ref 0 .int, .absOf (.ref 1 .int)]], ["text"]⟩ <|
    .project ⟨[.literal (.int 7), .ref 0 .int], ["seven", "x"]⟩ <|
      .values [⟨"x", .int⟩] [[.int (-2)]]

/-- Both ends of a chain of three are good places to start merging at, and the fields of the three
can be put in from both ends. Two fields cover `CONCAT($1, $0)` and one does not. -/
theorem substitution_laws_threeProjections :
    MergesTo ⟨[.concatOf [.literal (.int 7), .absOf (.ref 0 .int)]], ["text"]⟩ threeProjections ∧
    MergesTo ⟨[.concatOf [.literal (.int 7), .absOf (.ref 0 .int)]], ["text"]⟩ twoProjections ∧
    (Expr.substitute [.absOf (.ref 1 .int), .ref 0 .int]
        (.concatOf [.ref 1 .int, .ref 0 .int])).bind
        (Expr.substitute [.literal (.int 7), .ref 0 .int]) =
      .ok (.concatOf [.literal (.int 7), .absOf (.ref 0 .int)]) ∧
    ¬ ∃ result, Expr.substitute [.ref 0 .int] (.concatOf [.ref 1 .int, .ref 0 .int]) =
      .ok result := by
  obtain ⟨covered, composes, keeps⟩ := substitution_laws
  have chain : MergesTo ⟨[.concatOf [.literal (.int 7), .absOf (.ref 0 .int)]], ["text"]⟩
      threeProjections := .chain rfl
  have step : Merges threeProjections twoProjections := .root _ rfl
  refine ⟨chain, (keeps _ _ chain _ (.single step)).1, ?_, ?_⟩
  · have fieldsCompose : Expr.substituteAll [.literal (.int 7), .ref 0 .int]
        [.absOf (.ref 1 .int), .ref 0 .int] = .ok [.absOf (.ref 0 .int), .literal (.int 7)] := rfl
    exact composes _ _ _ fieldsCompose _
  · rw [(covered _ _).1]
    simp [Expr.concatOf]

end Plan

end Lateral
