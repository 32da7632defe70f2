import Mathlib.Order.Bounds.Defs
import Lateral.Plan.Basic
import Lateral.Proofs.Naming

/-!
# Kept and numbered names

What becomes of each name of a list that is made distinct. A name is kept when it is the
same name as none before it, and gets the least number that helps otherwise
(`CaseRule.uniquify_settles`); the search for the number ends because there are only so many
names before. The names before are those of the result, numbers included, so a name that
stands once in the list is not always kept: `CaseRule.uniquify_keeps_iff` says when it is.

A name is any sequence of characters, of which only the ASCII letters have two cases. A
name that is given as bytes is the one whose characters have the bytes as their codes.
-/

namespace Lateral.CaseRule

variable {rule : CaseRule}

/-- The name is the same name as none of the others. -/
def NewTo (rule : CaseRule) (others : List String) (name : String) : Prop :=
  ∀ other ∈ others, rule.sameName other name = false

/-- What becomes of a name behind earlier ones: if it is new to them it is kept, otherwise it gets
the least number that makes it new, and that is at most the number of the earlier names. -/
structure Settles (rule : CaseRule) (earlier : List String) (name result : String) : Prop where
  kept : rule.NewTo earlier name → result = name
  numbered : ¬ rule.NewTo earlier name → ∃ number ≤ earlier.length,
    result = numbered name number ∧
      IsLeast {number | rule.NewTo earlier (CaseRule.numbered name number)} number

/-- A name is free when it is new to the names with the used keys. -/
theorem isFree_iff_newTo {used others : List String} (keys : used.Perm (others.map rule.key))
    {name : String} : rule.isFree used name = true ↔ rule.NewTo others name := by
  simp only [isFree_iff, keys.mem_iff, NewTo, List.mem_map, not_exists, not_and,
    ← Bool.not_eq_true, sameName_iff]

/-- A name that is not free gets the least number that makes it free, and that is at most the number
of the used keys. -/
theorem exists_freshName_eq_numbered {used : List String} {name : String}
    (taken : ¬ rule.isFree used name = true) :
    ∃ number ≤ used.length, rule.freshName used name = numbered name number ∧
      IsLeast {number | rule.isFree used (numbered name number) = true} number := by
  rw [freshName, if_neg taken, List.find?_map]
  cases search : (List.range (used.length + 1)).find? (rule.isFree used ∘ numbered name) with
  | none =>
      obtain ⟨number, bound, free⟩ := exists_free_numbered rule used name
      exact absurd free (List.find?_eq_none.mp search number (List.mem_range.mpr bound))
  | some number =>
      obtain ⟨free, inRange, smaller⟩ := List.find?_range_eq_some.mp search
      refine ⟨number, Nat.le_of_lt_succ (List.mem_range.mp inRange), rfl, free, ?_⟩
      intro other otherFree
      by_contra below
      have notFree := smaller other (Nat.lt_of_not_le below)
      have isFree : rule.isFree used (numbered name other) = true := otherFree
      simp [isFree] at notFree

/-- A fresh name is what becomes of the name behind the names with the used keys. -/
theorem settles_freshName {used earlier : List String} (keys : used.Perm (earlier.map rule.key))
    (name : String) : rule.Settles earlier name (rule.freshName used name) where
  kept new := by
    rw [freshName, if_pos ((isFree_iff_newTo keys).mpr new)]
  numbered notNew := by
    have taken := mt (isFree_iff_newTo keys).mp notNew
    have sameCount : used.length = earlier.length := by
      rw [keys.length_eq, List.length_map]
    simpa only [sameCount, isFree_iff_newTo keys] using exists_freshName_eq_numbered taken

/-- The result at a place is the fresh name behind the keys of the results before it. -/
theorem getElem?_uniquifyBehind (rule : CaseRule) (used names : List String) (place : Nat) :
    (rule.uniquifyBehind used names)[place]? = names[place]?.map (rule.freshName
      ((((rule.uniquifyBehind used names).take place).map rule.key).reverse ++ used)) := by
  induction names generalizing used place with
  | nil => simp [uniquifyBehind]
  | cons name rest inductionHypothesis =>
      cases place with
      | zero => simp [uniquifyBehind]
      | succ place => simp [uniquifyBehind, inductionHypothesis]

/-- The result at a place is what becomes of the name there behind the results before it. -/
theorem exists_settles (rule : CaseRule) {names : List String} {place : Nat} {name : String}
    (found : names[place]? = some name) :
    ∃ result, (rule.uniquify names)[place]? = some result ∧
      rule.Settles ((rule.uniquify names).take place) name result := by
  refine ⟨_, ?_, settles_freshName (List.reverse_perm _) name⟩
  rw [uniquify, getElem?_uniquifyBehind, found, Option.map_some, List.append_nil]

/-- Each result is what becomes of the name at its place behind the results before it. -/
theorem exists_settles_of_result {names : List String} {place : Nat} {result : String}
    (found : (rule.uniquify names)[place]? = some result) :
    ∃ name, names[place]? = some name ∧
      rule.Settles ((rule.uniquify names).take place) name result := by
  obtain ⟨inside, -⟩ := List.getElem?_eq_some_iff.mp found
  rw [length_uniquify] at inside
  obtain ⟨other, isOther, settles⟩ := exists_settles rule (List.getElem?_eq_getElem inside)
  obtain rfl : result = other := Option.some.inj (found.symm.trans isOther)
  exact ⟨names[place], List.getElem?_eq_getElem inside, settles⟩

/-- A name is new to the front of a list when it is the same name as none of the entries there. -/
theorem newTo_take_iff {others : List String} {place : Nat} {name : String} :
    rule.NewTo (others.take place) name ↔
      ∀ earlier < place, ∀ other, others[earlier]? = some other →
        rule.sameName other name = false := by
  simp only [NewTo, List.mem_iff_getElem?, List.getElem?_take]
  grind

/-- A name is kept exactly when it is new to the results before it. -/
theorem getElem?_uniquify_eq_self_iff {names : List String} {place : Nat} {name : String}
    (found : names[place]? = some name) :
    (rule.uniquify names)[place]? = some name ↔
      rule.NewTo ((rule.uniquify names).take place) name := by
  constructor
  · intro kept
    have distinct := pairwise_uniquify rule names
    obtain ⟨inside, rfl⟩ := List.getElem?_eq_some_iff.mp kept
    rw [newTo_take_iff]
    intro earlier before other isOther
    obtain ⟨earlierInside, rfl⟩ := List.getElem?_eq_some_iff.mp isOther
    exact List.pairwise_iff_getElem.mp distinct earlier place earlierInside inside before
  · intro new
    obtain ⟨result, isResult, settles⟩ := exists_settles rule found
    rw [isResult, settles.kept new]

/-- Making names distinct gives as many names, pairwise different ones. A name that is new to the
results before it is kept, and any other one gets the least number that makes it new, for which
no more numbers have to be tried than there are results before it, and one more. So a list is left
alone exactly when its names are pairwise different, and making it distinct once more changes
nothing. -/
theorem uniquify_settles (rule : CaseRule) (names : List String) :
    (rule.uniquify names).length = names.length ∧
      (rule.uniquify names).Pairwise (fun name other => rule.sameName name other = false) ∧
      (∀ place name, names[place]? = some name →
        ∃ result, (rule.uniquify names)[place]? = some result ∧
          rule.Settles ((rule.uniquify names).take place) name result) ∧
      (rule.uniquify names = names ↔
        names.Pairwise fun name other => rule.sameName name other = false) ∧
      rule.uniquify (rule.uniquify names) = rule.uniquify names := by
  refine ⟨length_uniquify rule names, pairwise_uniquify rule names, ?_,
    uniquify_eq_self_iff_pairwise, uniquify_uniquify rule names⟩
  intro place name found
  exact exists_settles rule found

example : insensitive.uniquify ["a", "A", "a0", "b"] = ["a", "A0", "a00", "b"] := by
  cbv

/-- A name that is the same name as no other one of the list is kept exactly when no name before it
has got a number that makes it the same name. -/
theorem uniquify_keeps_iff {names : List String} {place : Nat} {name : String}
    (found : names[place]? = some name)
    (alone : ∀ elsewhere other, elsewhere ≠ place → names[elsewhere]? = some other →
      rule.sameName other name = false) :
    (rule.uniquify names)[place]? = some name ↔
      ∀ earlier < place, ∀ other number, names[earlier]? = some other →
        (rule.uniquify names)[earlier]? = some (numbered other number) →
          rule.sameName (numbered other number) name = false := by
  rw [getElem?_uniquify_eq_self_iff found, newTo_take_iff]
  constructor
  · intro new earlier before other number _ isNumbered
    exact new earlier before _ isNumbered
  · intro noneTaken earlier before result isResult
    obtain ⟨other, isOther, settles⟩ := exists_settles_of_result isResult
    by_cases otherNew : rule.NewTo ((rule.uniquify names).take earlier) other
    · rw [settles.kept otherNew]
      exact alone earlier other (Nat.ne_of_lt before) isOther
    · obtain ⟨number, -, rfl, -⟩ := settles.numbered otherNew
      exact noneTaken earlier before other number isOther isResult

/-- Behind `a` twice, `b` is kept, but `a0` is not: the second `a` is `a0` already. -/
theorem uniquify_keeps_iff_behind_twice :
    (sensitive.uniquify ["a", "a", "b"])[2]? = some "b" ∧
      (sensitive.uniquify ["a", "a", "a0"])[2]? ≠ some "a0" := by
  have isA : ∀ {last other earlier}, earlier ≠ 2 → ["a", "a", last][earlier]? = some other →
      other = "a" := by
    rintro last other (_ | _ | _ | earlier) away isOther
    · exact (Option.some.inj isOther).symm
    · exact (Option.some.inj isOther).symm
    · exact absurd rfl away
    · simp at isOther
  have alone : ∀ last ≠ "a", ∀ elsewhere other, elsewhere ≠ 2 →
      ["a", "a", last][elsewhere]? = some other → sensitive.sameName other last = false := by
    intro last different elsewhere other away isOther
    rw [isA away isOther]
    simpa [sameName] using Ne.symm different
  constructor
  · refine (uniquify_keeps_iff rfl (alone "b" (by decide))).mpr ?_
    intro earlier before other number isOther _
    rw [isA (Nat.ne_of_lt before) isOther]
    have different : (numbered "a" number).toList ≠ "b".toList := by simp [numbered]
    simpa [sameName, ← String.toList_inj] using different
  · intro kept
    have noneTaken := (uniquify_keeps_iff rfl (alone "a0" (by decide))).mp kept
    have notSame := noneTaken 1 (by decide) "a" 0 rfl rfl
    exact absurd notSame (by decide)

/-- A name that stands once in a list and is not kept. So a right field of a correlate that clashes
with no other field is renamed, where a clash before it takes its name. -/
theorem uniquify_renames_unique :
    (∀ other ∈ ["a", "a"], sensitive.sameName other "a0" = false) ∧
      sensitive.uniquify ["a", "a", "a0"] = ["a", "a0", "a00"] ∧
        (⟨0, .empty, .inner, .sensitive⟩ : Correlation).schema
            [⟨"a", .int⟩] [⟨"a", .string⟩, ⟨"a0", .double⟩] =
          [⟨"a", .int⟩, ⟨"a0", .string⟩, ⟨"a00", .double⟩] := by
  decide

end Lateral.CaseRule
