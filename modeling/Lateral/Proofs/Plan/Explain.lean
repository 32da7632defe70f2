import Mathlib
import Lateral.Plan.Explain
import Lateral.Proofs.Plan.Structure
import Lateral.Proofs.Text.Lines

/-!
# What an explanation tells of a plan

An explanation shows the outline of a plan: the tree of the texts of its nodes (`Plan.outline`).
It has one line for each node, in the order in which nodes are visited, and where no text breaks a
line the outline can be read off the lines (`Plan.explain_faithful`). A line gives away how far in
it stands, as no text begins with a blank (`Plan.head?_text`), and the depths of the lines
give away what stands below what (`Outline.eq_of_entriesAll_append`).
-/

namespace Lateral

/-- A tree of texts. -/
inductive Outline where
  | node (text : String) (inputs : List Outline)

/-- A text and the number of nodes above it. -/
structure Entry where
  depth : Nat
  text : String

namespace Entry

/-- The line that shows the text, without its end. -/
def line (entry : Entry) : String :=
  "".pushn ' ' (2 * entry.depth) ++ entry.text

theorem line_toList (entry : Entry) :
    entry.line.toList = List.replicate (2 * entry.depth) ' ' ++ entry.text.toList := by
  rw [line, String.toList_append, Text.toList_pushn]
  rfl

/-- The blanks of a line before a text that begins with no blank. -/
theorem takeWhile_line {entry : Entry} (noBlank : entry.text.toList.head? ≠ some ' ') :
    entry.line.toList.takeWhile (· == ' ') = List.replicate (2 * entry.depth) ' ' := by
  rw [line_toList, List.takeWhile_append_of_pos (by simp)]
  cases shape : entry.text.toList with
  | nil => simp
  | cons first rest => simp_all

/-- Lines of texts that begin with no blank tell the texts and their depths. -/
theorem eq_of_line_eq {entry other : Entry} (noBlank : entry.text.toList.head? ≠ some ' ')
    (otherNoBlank : other.text.toList.head? ≠ some ' ') (same : entry.line = other.line) :
    entry = other := by
  have sameBlanks := takeWhile_line noBlank
  rw [same, takeWhile_line otherNoBlank] at sameBlanks
  have sameDepth : other.depth = entry.depth := by
    simpa using congrArg List.length sameBlanks
  have sameText : entry.text = other.text := by
    have sameLine := congrArg String.toList same
    rw [line_toList, line_toList, sameDepth] at sameLine
    exact String.toList_inj.mp (List.append_cancel_left sameLine)
  cases entry
  cases other
  simp_all

/-- Lines of texts that begin with no blank tell a list of entries. -/
theorem eq_of_map_line_eq {entries others : List Entry}
    (noBlank : ∀ entry ∈ entries, entry.text.toList.head? ≠ some ' ')
    (otherNoBlank : ∀ other ∈ others, other.text.toList.head? ≠ some ' ')
    (same : entries.map line = others.map line) : entries = others := by
  rw [← List.forall₂_eq_eq_eq] at same ⊢
  rw [List.forall₂_map_left_iff, List.forall₂_map_right_iff] at same
  rw [List.forall₂_iff_zip] at same ⊢
  refine ⟨same.1, fun {entry other} corresponding => ?_⟩
  obtain ⟨member, otherMember⟩ := List.of_mem_zip corresponding
  exact eq_of_line_eq (noBlank entry member) (otherNoBlank other otherMember)
    (same.2 corresponding)

/-- The lines of a list of entries, each with its end. -/
def lines : List Entry → String
  | [] => ""
  | entry :: rest => entry.line ++ "\n" ++ lines rest

theorem lines_eq_unlines (entries : List Entry) :
    lines entries = Text.unlines (entries.map line) := by
  induction entries with
  | nil => rfl
  | cons entry rest inductionHypothesis => simp [lines, inductionHypothesis, ← String.toList_inj]

@[simp] theorem lines_append (front back : List Entry) :
    lines (front ++ back) = lines front ++ lines back := by
  simp [lines_eq_unlines]

/-- A line is broken where its text is. -/
theorem mem_line_iff {entry : Entry} : '\n' ∈ entry.line.toList ↔ '\n' ∈ entry.text.toList := by
  simp [line_toList]

/-- Lines can be told apart where no text breaks a line. -/
theorem split_lines {entries : List Entry}
    (whole : ∀ entry ∈ entries, '\n' ∉ entry.text.toList) :
    Text.split "\n" (lines entries) = entries.map line ++ [""] := by
  rw [lines_eq_unlines, Text.split_unlines (by simpa [mem_line_iff] using whole)]

end Entry

namespace Outline

/-- Induction over a list of outlines with a hypothesis for the inputs of each. -/
@[elab_as_elim]
theorem inductAll {motive : List Outline → Prop} (nil : motive [])
    (cons : ∀ text inputs rest, motive inputs → motive rest →
      motive (.node text inputs :: rest)) : ∀ outlines, motive outlines
  | [] => nil
  | .node text inputs :: rest =>
    cons text inputs rest (inductAll nil cons inputs) (inductAll nil cons rest)

mutual

/-- The texts of an outline whose root stands at a depth, each before its inputs. -/
def entries (depth : Nat) : Outline → List Entry
  | .node text inputs => ⟨depth, text⟩ :: entriesAll (depth + 1) inputs

/-- The texts of a list of outlines, one outline behind the other. -/
def entriesAll (depth : Nat) : List Outline → List Entry
  | [] => []
  | outline :: rest => entries depth outline ++ entriesAll depth rest

end

theorem entriesAll_eq_flatMap (depth : Nat) (outlines : List Outline) :
    entriesAll depth outlines = outlines.flatMap (entries depth) := by
  induction outlines with
  | nil => rfl
  | cons outline rest inductionHypothesis => simp [entriesAll, inductionHypothesis]

/-- The entries stop at a depth where they end or go on with one that stands less far in. -/
def StopAt (depth : Nat) (entries : List Entry) : Prop :=
  ∀ entry ∈ entries.head?, entry.depth < depth

/-- Outlines stop at the depth behind their own. -/
theorem StopAt.entriesAll_append {depth : Nat} {rest : List Entry} (stop : StopAt depth rest)
    (outlines : List Outline) : StopAt (depth + 1) (entriesAll depth outlines ++ rest) := by
  cases outlines with
  | nil => exact fun entry first => Nat.lt_succ_of_lt (stop entry first)
  | cons outline outlines =>
      obtain ⟨text, inputs⟩ := outline
      simp [StopAt, entriesAll, entries]

/-- Outlines at a depth can be told from the entries behind them. -/
theorem eq_of_entriesAll_append {depth : Nat} {outlines others : List Outline}
    {rest otherRest : List Entry} (stop : StopAt depth rest) (otherStop : StopAt depth otherRest)
    (same : entriesAll depth outlines ++ rest = entriesAll depth others ++ otherRest) :
    outlines = others ∧ rest = otherRest := by
  induction outlines using inductAll generalizing depth others rest otherRest with
  | nil =>
      cases others with
      | nil => exact ⟨rfl, same⟩
      | cons other others =>
          obtain ⟨text, inputs⟩ := other
          obtain rfl : rest = _ := same
          exact absurd (stop ⟨depth, text⟩ rfl) (lt_irrefl depth)
  | cons text inputs outlines inductionInputs inductionRest =>
      cases others with
      | nil =>
          obtain rfl : otherRest = _ := same.symm
          exact absurd (otherStop ⟨depth, text⟩ rfl) (lt_irrefl depth)
      | cons other others =>
          obtain ⟨otherText, otherInputs⟩ := other
          simp only [entriesAll, entries, List.cons_append, List.append_assoc, List.cons.injEq,
            Entry.mk.injEq, true_and] at same
          obtain ⟨rfl, sameBelow⟩ := same
          -- what follows the inputs stands no further in than the root above them
          have stopBelow : StopAt (depth + 1) (entriesAll depth outlines ++ rest) :=
            stop.entriesAll_append outlines
          have otherStopBelow : StopAt (depth + 1) (entriesAll depth others ++ otherRest) :=
            otherStop.entriesAll_append others
          obtain ⟨rfl, sameBehind⟩ := inductionInputs stopBelow otherStopBelow sameBelow
          obtain ⟨rfl, sameRest⟩ := inductionRest stop otherStop sameBehind
          exact ⟨rfl, sameRest⟩

/-- The entries of an outline tell the outline. -/
theorem entries_injective (depth : Nat) : Function.Injective (entries depth) := by
  intro outline other same
  have nothing : StopAt depth [] := by simp [StopAt]
  have sameAll : entriesAll depth [outline] ++ [] = entriesAll depth [other] ++ [] := by
    simpa [entriesAll] using same
  simpa using (eq_of_entriesAll_append nothing nothing sameAll).1

end Outline

namespace Plan

mutual

/-- The texts of the nodes of a plan, as the nodes stand in it. -/
def outline : Plan → Outline
  | .values schema rows => .node (Plan.values schema rows).text []
  | .project projection input => .node projection.text [input.outline]
  | .correlate correlation left right => .node correlation.text [left.outline, right.outline]
  | .scan source inputs => .node source.text (outlineAll inputs)

/-- The outlines of a list of plans. -/
def outlineAll : List Plan → List Outline
  | [] => []
  | plan :: rest => plan.outline :: outlineAll rest

end

theorem outlineAll_eq_map (plans : List Plan) : outlineAll plans = plans.map outline := by
  induction plans with
  | nil => rfl
  | cons plan rest inductionHypothesis => simp [outlineAll, inductionHypothesis]

/-- The outline of a plan is the text of its root over the outlines of its inputs. -/
theorem outline_eq (plan : Plan) : plan.outline = .node plan.text (plan.children.map outline) := by
  cases plan with
  | scan source inputs => exact congrArg _ (outlineAll_eq_map inputs)
  | _ => rfl

/-- An explanation is the line of the root and the explanations of its inputs. -/
theorem explainAt_eq (depth : Nat) (plan : Plan) :
    plan.explainAt depth = line depth plan ++ explainAllAt (depth + 1) plan.children := by
  cases plan <;> simp [explainAt, explainAllAt, children, String.append_assoc]

/-- The entries of a plan are the texts of its nodes. -/
theorem map_text_entries (depth : Nat) (plan : Plan) :
    (plan.outline.entries depth).map Entry.text = plan.nodes.map text := by
  induction plan using inductInputs generalizing depth with
  | root plan inductionHypothesis =>
      rw [outline_eq, nodes_eq, Outline.entries, Outline.entriesAll_eq_flatMap, List.flatMap_map,
        List.map_cons, List.map_cons, List.map_flatMap, List.map_flatMap]
      exact congrArg (plan.text :: ·) <|
        List.flatMap_congr fun input member => inductionHypothesis input member (depth + 1)

/-- The explanations of plans are the lines of their entries if those of each plan are. -/
theorem explainAllAt_eq_lines {depth : Nat} {plans : List Plan}
    (each : ∀ plan ∈ plans, plan.explainAt depth = Entry.lines (plan.outline.entries depth)) :
    explainAllAt depth plans = Entry.lines (Outline.entriesAll depth (plans.map outline)) := by
  induction plans with
  | nil => rfl
  | cons plan rest inductionHypothesis =>
      obtain ⟨first, others⟩ := List.forall_mem_cons.mp each
      rw [explainAllAt, first, inductionHypothesis others, List.map_cons, Outline.entriesAll,
        Entry.lines_append]

/-- An explanation is the lines of the entries of the plan. -/
theorem explainAt_eq_lines (depth : Nat) (plan : Plan) :
    plan.explainAt depth = Entry.lines (plan.outline.entries depth) := by
  induction plan using inductInputs generalizing depth with
  | root plan inductionHypothesis =>
      rw [explainAt_eq, outline_eq, Outline.entries, Entry.lines,
        explainAllAt_eq_lines fun input member => inductionHypothesis input member (depth + 1)]
      rfl

/-- No text of a node begins with a blank. -/
theorem head?_text (plan : Plan) : plan.text.toList.head? ≠ some ' ' := by
  cases plan with
  | values schema rows =>
      unfold text
      simp [String.toList_append]
  | project projection input =>
      change projection.text.toList.head? ≠ some ' '
      unfold Projection.text
      simp [String.toList_append]
  | correlate correlation left right =>
      change correlation.text.toList.head? ≠ some ' '
      unfold Correlation.text
      simp [String.toList_append]
  | scan source inputs =>
      change source.text.toList.head? ≠ some ' '
      unfold Scan.text
      simp [String.toList_append]

/-- What every text of a node is, the text of every entry is. -/
theorem forall_entries (property : String → Prop) {plan : Plan}
    (each : ∀ node ∈ plan.nodes, property node.text) (depth : Nat) :
    ∀ entry ∈ plan.outline.entries depth, property entry.text := by
  rw [← List.forall_mem_map (f := text), ← map_text_entries depth, List.forall_mem_map] at each
  exact each

/-- No text of a node breaks a line. -/
def Whole (plan : Plan) : Prop :=
  ∀ node ∈ plan.nodes, '\n' ∉ node.text.toList

/-- The lines of an explanation. -/
theorem split_explain {plan : Plan} (whole : plan.Whole) :
    Text.split "\n" plan.explain = (plan.outline.entries 0).map Entry.line ++ [""] := by
  rw [explain, explainAt_eq_lines, Entry.split_lines (forall_entries ('\n' ∉ ·.toList) whole 0)]

/-- The explanation of a plan tells its outline. -/
theorem outline_eq_of_explain_eq {plan other : Plan} (whole : plan.Whole)
    (otherWhole : other.Whole) (same : plan.explain = other.explain) :
    plan.outline = other.outline := by
  have sameLines : (plan.outline.entries 0).map Entry.line =
      (other.outline.entries 0).map Entry.line := by
    rw [← List.append_left_inj [""], ← split_explain whole, ← split_explain otherWhole, same]
  have noBlank (plan : Plan) :
      ∀ entry ∈ plan.outline.entries 0, entry.text.toList.head? ≠ some ' ' :=
    forall_entries (·.toList.head? ≠ some ' ') (fun node _ => node.head?_text) 0
  exact Outline.entries_injective 0
    (Entry.eq_of_map_line_eq (noBlank plan) (noBlank other) sameLines)

/-- Where no text breaks a line, an explanation has a line for each node, in the order of the
nodes, and explanations are equal just where the outlines are. -/
theorem explain_faithful :
    (∀ plan : Plan, plan.Whole →
      Text.split "\n" plan.explain = (plan.outline.entries 0).map Entry.line ++ [""] ∧
        (plan.outline.entries 0).map Entry.text = plan.nodes.map text) ∧
    ∀ plan other : Plan, plan.Whole → other.Whole →
      (plan.explain = other.explain ↔ plan.outline = other.outline) := by
  refine ⟨fun plan whole => ⟨split_explain whole, map_text_entries 0 plan⟩,
    fun plan other whole otherWhole => ⟨outline_eq_of_explain_eq whole otherWhole, fun same => ?_⟩⟩
  rw [explain, explain, explainAt_eq_lines, explainAt_eq_lines, same]

/-- A projection of the field of a single row. -/
def ofRow (row : Row) : Plan :=
  .project ⟨[.ref 0 .int], ["y"]⟩ (.values [⟨"x", .int⟩] [row])

/-- The two laws at plans that differ in a value only, which no text shows. -/
theorem explain_faithful_ofRow :
    (ofRow [.int 1]).Whole ∧ (ofRow [.int 2]).Whole ∧
      Text.split "\n" (ofRow [.int 1]).explain =
        ["Projection(exprs=[$0], names=[y])", "  Values(rows=1, row=[x:int])", ""] ∧
      (ofRow [.int 1]).explain = (ofRow [.int 2]).explain := by
  obtain ⟨hasLines, tells⟩ := explain_faithful
  have whole : (ofRow [.int 1]).Whole := by
    unfold Whole
    decide +kernel
  have otherWhole : (ofRow [.int 2]).Whole := by
    unfold Whole
    decide +kernel
  refine ⟨whole, otherWhole, ?_, (tells _ _ whole otherWhole).mpr rfl⟩
  rw [(hasLines _ whole).1]
  rfl

/-- A scan of one field over inputs. -/
def scanOf (name : String) (inputs : List Plan) : Plan :=
  .scan ⟨.literal (.int 1), .int, [⟨name, .int⟩], []⟩ inputs

/-- A name that breaks the line can pass for an input. -/
example :
    (scanOf "x:int])\n  Values(rows=0, row=[y" []).explain =
      (scanOf "x" [.values [⟨"y", .int⟩] []]).explain := by
  decide +kernel

end Plan

end Lateral
