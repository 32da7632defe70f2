import Lateral.Proofs.Optimizer.Trials

/-!
# One pass from below

`Rule.rewriteUp` rewrites a plan with one rule in a single pass: first all inputs of a
node, those of a scan included, then the node over the new inputs
(`rewriteUp_eq_withChildren`). The pass is compositional: what it makes of a plan
depends on what it makes of a part of the plan, and not on the part itself
(`rewriteUp_fill`).
-/

namespace Lateral.Rule

/-- The node itself, or what the rule puts in its place. -/
def rewrite (rule : Rule) (settings : Settings) (node : Plan) : Except Error Plan :=
  (rule.verdict settings node).map fun found => found.getD node

mutual

/-- What the rule makes of a plan from below: of all inputs first, and then of the node over the new
inputs. The first failure ends the pass. -/
def rewriteUp (rule : Rule) (settings : Settings) : Plan → Except Error Plan
  | .values schema rows => rule.rewrite settings (.values schema rows)
  | .project projection input =>
    match rewriteUp rule settings input with
    | .ok input => rule.rewrite settings (.project projection input)
    | .error error => .error error
  | .correlate correlation left right =>
    match rewriteUp rule settings left with
    | .ok left =>
      match rewriteUp rule settings right with
      | .ok right => rule.rewrite settings (.correlate correlation left right)
      | .error error => .error error
    | .error error => .error error
  | .scan source inputs =>
    match rewriteUpAll rule settings inputs with
    | .ok inputs => rule.rewrite settings (.scan source inputs)
    | .error error => .error error

/-- What the rule makes of a list of plans from below. -/
def rewriteUpAll (rule : Rule) (settings : Settings) : List Plan → Except Error (List Plan)
  | [] => .ok []
  | plan :: rest =>
    match rewriteUp rule settings plan with
    | .ok plan =>
      match rewriteUpAll rule settings rest with
      | .ok rest => .ok (plan :: rest)
      | .error error => .error error
    | .error error => .error error

end

variable {rule : Rule} {settings : Settings}

theorem rewriteUpAll_cons_eq_ok_iff {plan : Plan} {rest results : List Plan} :
    rule.rewriteUpAll settings (plan :: rest) = .ok results ↔
      ∃ result others, rule.rewriteUp settings plan = .ok result ∧
        rule.rewriteUpAll settings rest = .ok others ∧ results = result :: others := by
  cases first : rule.rewriteUp settings plan <;> cases later : rule.rewriteUpAll settings rest <;>
    simp [rewriteUpAll, first, later, eq_comm]

/-- The pass leaves plans alone each of which it leaves alone. -/
theorem rewriteUpAll_eq_self {plans : List Plan}
    (same : ∀ plan ∈ plans, rule.rewriteUp settings plan = .ok plan) :
    rule.rewriteUpAll settings plans = .ok plans := by
  induction plans with
  | nil => rfl
  | cons plan rest inductionHypothesis =>
      obtain ⟨first, later⟩ := List.forall_mem_cons.mp same
      exact rewriteUpAll_cons_eq_ok_iff.mpr ⟨plan, rest, first, inductionHypothesis later, rfl⟩

/-- The pass rewrites the inputs and then the node over what has become of them. -/
theorem rewriteUp_eq_withChildren (plan : Plan) :
    rule.rewriteUp settings plan =
      match rule.rewriteUpAll settings plan.children with
      | .ok inputs => rule.rewrite settings (plan.withChildren inputs)
      | .error error => .error error := by
  cases plan with
  | values schema rows => rfl
  | project projection input =>
      cases first : rule.rewriteUp settings input <;>
        simp [rewriteUp, rewriteUpAll, Plan.children, Plan.withChildren, first]
  | correlate correlation left right =>
      cases first : rule.rewriteUp settings left <;>
        cases later : rule.rewriteUp settings right <;>
          simp [rewriteUp, rewriteUpAll, Plan.children, Plan.withChildren, first, later]
  | scan source inputs =>
      cases all : rule.rewriteUpAll settings inputs <;>
        simp [rewriteUp, Plan.children, Plan.withChildren, all]

theorem rewriteUp_project_eq_ok_iff {projection : Projection} {input result : Plan} :
    rule.rewriteUp settings (.project projection input) = .ok result ↔
      ∃ newInput, rule.rewriteUp settings input = .ok newInput ∧
        rule.rewrite settings (.project projection newInput) = .ok result := by
  cases first : rule.rewriteUp settings input <;> simp [rewriteUp, first]

theorem rewriteUp_correlate_eq_ok_iff {correlation : Correlation} {left right result : Plan} :
    rule.rewriteUp settings (.correlate correlation left right) = .ok result ↔
      ∃ newLeft newRight, rule.rewriteUp settings left = .ok newLeft ∧
        rule.rewriteUp settings right = .ok newRight ∧
          rule.rewrite settings (.correlate correlation newLeft newRight) = .ok result := by
  cases first : rule.rewriteUp settings left <;> cases later : rule.rewriteUp settings right <;>
    simp [rewriteUp, first, later]

theorem rewriteUp_scan_eq_ok_iff {source : Scan} {inputs : List Plan} {result : Plan} :
    rule.rewriteUp settings (.scan source inputs) = .ok result ↔
      ∃ newInputs, rule.rewriteUpAll settings inputs = .ok newInputs ∧
        rule.rewrite settings (.scan source newInputs) = .ok result := by
  cases all : rule.rewriteUpAll settings inputs <;> simp [rewriteUp, all]

section Part

variable {part other : Plan}
  (imp : ∀ result, rule.rewriteUp settings part = .ok result →
    rule.rewriteUp settings other = .ok result)
include imp

/-- A part of a list may be exchanged for one of which the pass makes the same. -/
theorem rewriteUpAll_append_cons {before after results : List Plan}
    (rewritten : rule.rewriteUpAll settings (before ++ part :: after) = .ok results) :
    rule.rewriteUpAll settings (before ++ other :: after) = .ok results := by
  induction before generalizing results with
  | nil =>
      obtain ⟨result, others, first, later, rfl⟩ := rewriteUpAll_cons_eq_ok_iff.mp rewritten
      exact rewriteUpAll_cons_eq_ok_iff.mpr ⟨result, others, imp result first, later, rfl⟩
  | cons plan rest inductionHypothesis =>
      obtain ⟨result, others, first, later, rfl⟩ := rewriteUpAll_cons_eq_ok_iff.mp rewritten
      exact rewriteUpAll_cons_eq_ok_iff.mpr
        ⟨result, others, first, inductionHypothesis later, rfl⟩

/-- A part of a plan may be exchanged for one of which the pass makes the same. -/
theorem rewriteUp_fill (context : Plan.Context) {result : Plan}
    (rewritten : rule.rewriteUp settings (context.fill part) = .ok result) :
    rule.rewriteUp settings (context.fill other) = .ok result := by
  induction context generalizing result with
  | hole => exact imp result rewritten
  | project projection inner inductionHypothesis =>
      obtain ⟨newInput, inInput, atRoot⟩ := rewriteUp_project_eq_ok_iff.mp rewritten
      exact rewriteUp_project_eq_ok_iff.mpr ⟨newInput, inductionHypothesis inInput, atRoot⟩
  | inLeft correlation inner right inductionHypothesis =>
      obtain ⟨newLeft, newRight, inLeft, inRight, atRoot⟩ :=
        rewriteUp_correlate_eq_ok_iff.mp rewritten
      exact rewriteUp_correlate_eq_ok_iff.mpr
        ⟨newLeft, newRight, inductionHypothesis inLeft, inRight, atRoot⟩
  | inRight correlation left inner inductionHypothesis =>
      obtain ⟨newLeft, newRight, inLeft, inRight, atRoot⟩ :=
        rewriteUp_correlate_eq_ok_iff.mp rewritten
      exact rewriteUp_correlate_eq_ok_iff.mpr
        ⟨newLeft, newRight, inLeft, inductionHypothesis inRight, atRoot⟩
  | scan source before inner after inductionHypothesis =>
      obtain ⟨newInputs, inInputs, atRoot⟩ := rewriteUp_scan_eq_ok_iff.mp rewritten
      exact rewriteUp_scan_eq_ok_iff.mpr ⟨newInputs,
        rewriteUpAll_append_cons (fun _ => inductionHypothesis) inInputs, atRoot⟩

end Part

end Lateral.Rule
