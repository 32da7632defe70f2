import Mathlib.Data.List.Nodup
import Lateral.Naming

/-!
# Distinct names

`nodup_uniquify` says that the names made by `CaseRule.uniquify` have pairwise
different keys, `uniquify_eq_self_iff` that a list of names is left alone exactly
when its keys are different already. Names are made distinct from the left, so
what stands behind a list has no influence on it (`take_uniquify_append`).
-/

namespace Lateral.CaseRule

variable {rule : CaseRule} {used : List String}

/-- A name is free exactly when its key is not among the used ones. -/
theorem isFree_iff {name : String} : rule.isFree used name = true ↔ rule.key name ∉ used := by
  simp [isFree]

/-- Digits have no small form of their own. -/
theorem map_toLower_toDigits (number : Nat) :
    (Nat.toDigits 10 number).map Char.toLower = Nat.toDigits 10 number := by
  refine (List.map_congr_left fun digit member => ?_).trans (List.map_id _)
  have isDigit := Nat.isDigit_of_mem_toDigits (by decide) (by decide) member
  simp only [Char.isDigit, Bool.and_eq_true, decide_eq_true_eq] at isDigit
  have notCapital : ¬('A'.val ≤ digit.val ∧ digit.val ≤ 'Z'.val) := fun capital =>
    absurd (UInt32.le_trans capital.1 isDigit.2) (by decide)
  exact dif_neg notCapital

/-- The key of a numbered name ends in the digits of the number. -/
theorem toList_key_numbered (rule : CaseRule) (name : String) (number : Nat) :
    (rule.key (numbered name number)).toList =
      (rule.key name).toList ++ Nat.toDigits 10 number := by
  cases rule with
  | sensitive => simp [key, numbered, Nat.toString_eq_repr]
  | insensitive => simp [key, numbered, Nat.toString_eq_repr, map_toLower_toDigits]

/-- Names numbered differently have different keys. -/
theorem key_numbered_injective (rule : CaseRule) (name : String) :
    Function.Injective fun number => rule.key (numbered name number) := by
  intro left right sameKey
  have characters := congrArg String.toList sameKey
  simp only [toList_key_numbered, List.append_cancel_left_eq] at characters
  have numbers := congrArg (fun digits => Nat.ofDigitChars 10 digits 0) characters
  simpa using numbers

/-- Among as many numbered names as there are used keys, and one more, there is a free one. -/
theorem exists_free_numbered (rule : CaseRule) (used : List String) (name : String) :
    ∃ number < used.length + 1, rule.isFree used (numbered name number) = true := by
  by_contra noneFree
  push Not at noneFree
  have allUsed : (List.range (used.length + 1)).map (fun number => rule.key (numbered name number))
      ⊆ used := by
    intro key member
    obtain ⟨number, inRange, rfl⟩ := List.mem_map.mp member
    have taken := noneFree number (List.mem_range.mp inRange)
    simpa [isFree] using taken
  have distinct := (List.nodup_range (n := used.length + 1)).map (key_numbered_injective rule name)
  have tooMany := distinct.length_le_of_subset allUsed
  rw [List.length_map, List.length_range] at tooMany
  omega

/-- A fresh name is free. -/
theorem isFree_freshName (rule : CaseRule) (used : List String) (name : String) :
    rule.isFree used (rule.freshName used name) = true := by
  unfold freshName
  split
  · assumption
  · obtain ⟨number, bound, free⟩ := exists_free_numbered rule used name
    cases found : ((List.range (used.length + 1)).map (numbered name)).find? (rule.isFree used) with
    | some candidate => exact List.find?_some found
    | none =>
        have noneFree := List.find?_eq_none.mp found (numbered name number)
          (List.mem_map_of_mem (List.mem_range.mpr bound))
        exact absurd free noneFree

/-- A name that is free already is its own fresh name. -/
theorem freshName_of_notMem {name : String} (free : rule.key name ∉ used) :
    rule.freshName used name = name := by
  simp [freshName, isFree_iff.mpr free]

/-- The keys of the names made distinct differ from each other and from the used keys. -/
theorem nodup_uniquifyBehind (rule : CaseRule) (used names : List String) :
    ((rule.uniquifyBehind used names).map rule.key).Nodup ∧
      ∀ name ∈ rule.uniquifyBehind used names, rule.key name ∉ used := by
  induction names generalizing used with
  | nil => simp [uniquifyBehind]
  | cons name rest inductionHypothesis =>
      have free := isFree_iff.mp (isFree_freshName rule used name)
      obtain ⟨distinct, unused⟩ :=
        inductionHypothesis (rule.key (rule.freshName used name) :: used)
      simp only [uniquifyBehind, List.map_cons, List.nodup_cons, List.mem_map, List.mem_cons,
        forall_eq_or_imp]
      refine ⟨⟨?_, distinct⟩, free, fun other member => ?_⟩
      · rintro ⟨other, member, sameKey⟩
        exact unused other member (by simp [sameKey])
      · exact fun taken => unused other member (List.mem_cons_of_mem _ taken)

/-- Names with keys that differ from each other and from the used ones are kept. -/
theorem uniquifyBehind_eq_self {names : List String} (distinct : (names.map rule.key).Nodup)
    (unused : ∀ name ∈ names, rule.key name ∉ used) : rule.uniquifyBehind used names = names := by
  induction names generalizing used with
  | nil => rfl
  | cons name rest inductionHypothesis =>
      have parts := List.nodup_cons.mp distinct
      simp only [uniquifyBehind, freshName_of_notMem (unused name List.mem_cons_self)]
      rw [inductionHypothesis parts.2 fun other member taken => ?_]
      rcases List.mem_cons.mp taken with sameKey | taken
      · exact parts.1 (sameKey ▸ List.mem_map_of_mem member)
      · exact unused other (List.mem_cons_of_mem _ member) taken

/-- The keys of the names made distinct are pairwise different. -/
theorem nodup_uniquify (rule : CaseRule) (names : List String) :
    ((rule.uniquify names).map rule.key).Nodup :=
  (nodup_uniquifyBehind rule [] names).1

/-- A list of names is left alone exactly when its keys are pairwise different. -/
theorem uniquify_eq_self_iff {names : List String} :
    rule.uniquify names = names ↔ (names.map rule.key).Nodup := by
  constructor
  · intro kept
    exact kept ▸ nodup_uniquify rule names
  · intro distinct
    exact uniquifyBehind_eq_self distinct (by simp)

/-- Names are pairwise different when their keys are. -/
theorem pairwise_sameName_iff {names : List String} :
    names.Pairwise (fun name other => rule.sameName name other = false) ↔
      (names.map rule.key).Nodup := by
  rw [List.Nodup, List.pairwise_map]
  simp only [← Bool.not_eq_true, sameName_iff, ne_eq]

/-- The names made distinct are pairwise different. -/
theorem pairwise_uniquify (rule : CaseRule) (names : List String) :
    (rule.uniquify names).Pairwise fun name other => rule.sameName name other = false :=
  pairwise_sameName_iff.mpr (nodup_uniquify rule names)

/-- A list of names is left alone exactly when no two of them are the same name. -/
theorem uniquify_eq_self_iff_pairwise {names : List String} :
    rule.uniquify names = names ↔
      names.Pairwise fun name other => rule.sameName name other = false :=
  uniquify_eq_self_iff.trans pairwise_sameName_iff.symm

/-- Names made distinct are distinct. -/
@[simp] theorem uniquify_uniquify (rule : CaseRule) (names : List String) :
    rule.uniquify (rule.uniquify names) = rule.uniquify names :=
  uniquify_eq_self_iff.mpr (nodup_uniquify rule names)

/-- What stands behind a list of names has no influence on it. -/
theorem take_uniquifyBehind_append (rule : CaseRule) (used front back : List String) :
    (rule.uniquifyBehind used (front ++ back)).take front.length =
      rule.uniquifyBehind used front := by
  induction front generalizing used with
  | nil => simp [uniquifyBehind]
  | cons name rest inductionHypothesis => simp [uniquifyBehind, inductionHypothesis]

/-- The front of a list of names is made distinct by itself. -/
theorem take_uniquify_append (rule : CaseRule) (front back : List String) :
    (rule.uniquify (front ++ back)).take front.length = rule.uniquify front :=
  take_uniquifyBehind_append rule [] front back

end Lateral.CaseRule
