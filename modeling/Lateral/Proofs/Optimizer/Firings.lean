import Mathlib.Data.String.Basic
import Lateral.Optimizer.Basic

/-!
# Counters of firings

The counters of an optimizer stand in ascending order of their names
(`Firings.Ascending`). Recording a firing keeps that order and adds one to the counter
of its name and to no other (`count_record`), so after any number of firings a
counter has grown by the number of those under its name, modulo the size of a counter
(`count_recordAll`).
-/

namespace Lateral.Firings

/-- The names stand in ascending order. -/
def Ascending (firings : Firings) : Prop :=
  firings.counts.Pairwise fun entry other => entry.1 < other.1

/-- The firings with one more for each of the names, one behind the other. -/
def recordAll (firings : Firings) (names : List String) : Firings :=
  names.foldl record firings

@[simp] theorem recordAll_nil (firings : Firings) : firings.recordAll [] = firings :=
  rfl

@[simp] theorem recordAll_cons (firings : Firings) (name : String) (names : List String) :
    firings.recordAll (name :: names) = (firings.record name).recordAll names :=
  rfl

@[simp] theorem recordAll_append (firings : Firings) (names others : List String) :
    firings.recordAll (names ++ others) = (firings.recordAll names).recordAll others :=
  List.foldl_append

theorem ascending_none : Ascending .none :=
  List.Pairwise.nil

/-- The first entry of a list decides for its name, and the others for all other names. -/
theorem lookup_cons_eq_ite (other name : String) (number : UInt32)
    (rest : List (String × UInt32)) :
    List.lookup other ((name, number) :: rest) =
      if other = name then some number else List.lookup other rest := by
  by_cases same : other = name
  · simp [same]
  · have different : (other == name) = false := by simpa using same
    simp [List.lookup_cons, different, same]

/-- A name below all names of a list has no counter there. -/
theorem lookup_eq_none_of_lt {name : String} {counts : List (String × UInt32)}
    (below : ∀ entry ∈ counts, name < entry.1) : counts.lookup name = Option.none := by
  induction counts with
  | nil => rfl
  | cons entry rest inductionHypothesis =>
      obtain ⟨first, later⟩ := List.forall_mem_cons.mp below
      rw [lookup_cons_eq_ite, if_neg first.ne]
      exact inductionHypothesis later

/-- The counter of the name grows by one, and all others stay. -/
theorem lookup_increment (name other : String) {counts : List (String × UInt32)}
    (ascending : counts.Pairwise fun entry next => entry.1 < next.1) :
    ((increment name counts).lookup other).getD 0 =
      (counts.lookup other).getD 0 + if other = name then 1 else 0 := by
  induction counts with
  | nil =>
      rw [increment, lookup_cons_eq_ite]
      split <;> simp
  | cons entry rest inductionHypothesis =>
      obtain ⟨key, number⟩ := entry
      obtain ⟨below, restAscending⟩ := List.pairwise_cons.mp ascending
      unfold increment
      split
      · next isKey =>
          subst isKey
          rw [lookup_cons_eq_ite, lookup_cons_eq_ite]
          split <;> simp
      · next notKey =>
          split
          · next before =>
              have missing : List.lookup name ((key, number) :: rest) = Option.none :=
                lookup_eq_none_of_lt (List.forall_mem_cons.mpr
                  ⟨before, fun entry member => before.trans (below entry member)⟩)
              rw [lookup_cons_eq_ite]
              split
              · next same => simp [same, missing]
              · simp
          · have inRest := inductionHypothesis restAscending
            rw [lookup_cons_eq_ite, lookup_cons_eq_ite]
            split
            · next same => simp [same, Ne.symm notKey]
            · exact inRest

/-- The names after an increment are those before and the one that is counted. -/
theorem name_of_mem_increment {name : String} {counts : List (String × UInt32)}
    {entry : String × UInt32} (member : entry ∈ increment name counts) :
    entry.1 = name ∨ ∃ old ∈ counts, old.1 = entry.1 := by
  induction counts with
  | nil => simp_all [increment]
  | cons first rest inductionHypothesis => grind [increment]

/-- Recording keeps the order of the names. -/
theorem Ascending.record {firings : Firings} (ascending : firings.Ascending) (name : String) :
    (firings.record name).Ascending := by
  obtain ⟨counts⟩ := firings
  unfold Ascending Firings.record at *
  simp only at *
  induction counts with
  | nil => exact List.pairwise_singleton ..
  | cons entry rest inductionHypothesis =>
      obtain ⟨below, restAscending⟩ := List.pairwise_cons.mp ascending
      unfold increment
      split
      · exact List.pairwise_cons.mpr ⟨below, restAscending⟩
      · next notEntry =>
          split
          · next before =>
              refine List.pairwise_cons.mpr ⟨List.forall_mem_cons.mpr ⟨before, ?_⟩, ascending⟩
              exact fun later member => before.trans (below later member)
          · next notBefore =>
              have behind : entry.1 < name := lt_of_le_of_ne (not_lt.mp notBefore) (Ne.symm notEntry)
              refine List.pairwise_cons.mpr ⟨fun later member => ?_, inductionHypothesis restAscending⟩
              rcases name_of_mem_increment member with isName | ⟨old, oldMember, sameName⟩
              · exact isName ▸ behind
              · exact sameName ▸ below old oldMember

theorem Ascending.recordAll {firings : Firings} (ascending : firings.Ascending)
    (names : List String) : (firings.recordAll names).Ascending := by
  induction names generalizing firings with
  | nil => exact ascending
  | cons name rest inductionHypothesis => exact inductionHypothesis (ascending.record name)

/-- One firing counts once, under its own name. -/
theorem count_record {firings : Firings} (ascending : firings.Ascending) (name other : String) :
    (firings.record name).count other = firings.count other + if other = name then 1 else 0 :=
  lookup_increment name other ascending

/-- Each counter grows by the number of firings under its name, modulo its size. -/
theorem count_recordAll {firings : Firings} (ascending : firings.Ascending) (names : List String)
    (other : String) :
    (firings.recordAll names).count other =
      firings.count other + UInt32.ofNat (names.count other) := by
  induction names generalizing firings with
  | nil => simp
  | cons name rest inductionHypothesis =>
      rw [recordAll_cons, inductionHypothesis (ascending.record name), count_record ascending,
        List.count_cons]
      by_cases same : other = name
      · subst same
        simp [UInt32.add_assoc, UInt32.add_comm 1]
      · simp [same, Ne.symm same]

end Lateral.Firings
