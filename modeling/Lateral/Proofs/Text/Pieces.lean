import Mathlib.Data.List.Infix
import Lateral.Text.Pieces

/-!
# Cutting a text

`Cuts` says what it is to cut a list of symbols at a delimiter from the left: up to the
first occurrence there is a piece, behind it the rest is cut, and a list without an
occurrence is one piece. The pieces of such a cut give the list back and hold no
delimiter. `cuts_pieces` says that `Text.pieces` cuts; so joining undoes splitting
(`join_split`), and splitting at a single character undoes joining (`split_join`).
-/

namespace Lateral.Text

/-- The delimiter behind `front` is the first one there. -/
def EndsFirst {α : Type} (delimiter front : List α) : Prop :=
  ∀ before behind, front ++ delimiter = before ++ delimiter ++ behind → behind = []

/-- The pieces of a list that is cut at each occurrence of a delimiter, from the left. -/
inductive Cuts {α : Type} (delimiter : List α) : List α → List (List α) → Prop where
  | last {text : List α} (absent : ¬ delimiter <:+: text) : Cuts delimiter text [text]
  | next {front rest : List α} {tokens : List (List α)} (first : EndsFirst delimiter front)
      (others : Cuts delimiter rest tokens) :
      Cuts delimiter (front ++ delimiter ++ rest) (front :: tokens)

section

variable {α : Type} {delimiter front text : List α} {symbol : α} {tokens : List (List α)}

/-- There is no delimiter in front of the first one. -/
theorem EndsFirst.absent (first : EndsFirst delimiter front) (filled : delimiter ≠ []) :
    ¬ delimiter <:+: front := by
  rintro ⟨before, behind, rfl⟩
  have nothing := first before (behind ++ delimiter) (by simp)
  exact filled (List.append_eq_nil_iff.mp nothing).2

/-- The first delimiter stays the first one behind another symbol, unless there is one at this
symbol. -/
theorem EndsFirst.cons (first : EndsFirst delimiter front)
    (notHere : ¬ delimiter <+: symbol :: (front ++ delimiter)) :
    EndsFirst delimiter (symbol :: front) := by
  intro before behind same
  cases before with
  | nil => exact absurd ⟨behind, same.symm⟩ notHere
  | cons other before => exact first before behind (List.cons.inj same).2

/-- The empty list ends at the first delimiter. -/
theorem EndsFirst.nil : EndsFirst delimiter [] := by
  intro before behind same
  have lengths := congrArg List.length same
  simp only [List.length_append, List.length_nil] at lengths
  exact List.eq_nil_of_length_eq_zero (by omega)

/-- A cut has a piece. -/
theorem Cuts.ne_nil (cuts : Cuts delimiter text tokens) : tokens ≠ [] := by
  cases cuts <;> simp

/-- The pieces of a cut with the delimiter between neighbours are the list. -/
theorem Cuts.intercalate_eq (cuts : Cuts delimiter text tokens) :
    delimiter.intercalate tokens = text := by
  induction cuts with
  | last absent => exact List.intercalate_singleton
  | next first others inductionHypothesis =>
      rw [List.intercalate_cons_of_ne_nil others.ne_nil, inductionHypothesis]

/-- No piece of a cut holds a delimiter. -/
theorem Cuts.absent (cuts : Cuts delimiter text tokens) (filled : delimiter ≠ []) :
    ∀ token ∈ tokens, ¬ delimiter <:+: token := by
  induction cuts with
  | last absent => simpa using absent
  | next first others inductionHypothesis =>
      simpa using ⟨first.absent filled, inductionHypothesis⟩

end

/-- A character that begins no delimiter comes in front of the first piece. -/
theorem Cuts.extendFirst {delimiter text : List Char} {character : Char}
    {tokens : List (List Char)} (cuts : Cuts delimiter text tokens)
    (notHere : ¬ delimiter <+: character :: text) :
    Cuts delimiter (character :: text) (extendFirst character tokens) := by
  cases cuts with
  | last absent =>
      refine .last fun occurs => ?_
      rcases List.infix_cons_iff.mp occurs with here | later
      · exact notHere here
      · exact absent later
  | next first others =>
      refine .next (first.cons fun here => notHere ?_) others
      exact here.trans (by simp)

/-- The pieces behind an occurrence that has been found already are a cut of what stands there. -/
theorem cuts_pieces {delimiter : List Char} (filled : delimiter ≠ []) (skip : Nat)
    (text : List Char) : Cuts delimiter (text.drop skip) (pieces delimiter skip text) := by
  fun_induction pieces delimiter skip text with
  | case1 skip =>
      rw [List.drop_nil]
      exact .last (by simpa using filled)
  | case2 skip character rest inductionHypothesis => exact inductionHypothesis
  | case3 character rest here inductionHypothesis =>
      obtain ⟨behind, isText⟩ := List.isPrefixOf_iff_prefix.mp here
      cases delimiter with
      | nil => exact absurd rfl filled
      | cons first others =>
          rw [List.cons_append] at isText
          obtain ⟨rfl, rfl⟩ := List.cons.inj isText
          rw [List.length_cons, Nat.add_sub_cancel, List.drop_left] at inductionHypothesis
          exact .next .nil inductionHypothesis
  | case4 character rest notHere inductionHypothesis =>
      exact inductionHypothesis.extendFirst (by simpa using notHere)

/-- Cutting at a single character is splitting at it. -/
theorem pieces_singleton (character : Char) (text : List Char) :
    pieces [character] 0 text = text.splitOn character := by
  induction text with
  | nil => rfl
  | cons other rest inductionHypothesis =>
      rw [List.splitOn_cons_eq_if_modifyHead, ← inductionHypothesis, pieces]
      by_cases same : other = character
      · simp [same, List.isPrefixOf]
      · cases shape : pieces [character] 0 rest with
        | nil => exact absurd shape (pieces_ne_nil _ _ _)
        | cons first others => simp [same, Ne.symm same, List.isPrefixOf, extendFirst]

/-- A text is cut into its pieces. -/
theorem cuts_split {delimiter : String} (filled : delimiter ≠ "") (text : String) :
    Cuts delimiter.toList text.toList ((split delimiter text).map String.toList) := by
  simpa [split] using cuts_pieces (by simpa using filled) 0 text.toList

/-- The pieces of a text with the delimiter between neighbours are the text. -/
theorem join_split {delimiter : String} (filled : delimiter ≠ "") (text : String) :
    join delimiter (split delimiter text) = text := by
  rw [← String.toList_inj, join, String.toList_intercalate]
  exact (cuts_split filled text).intercalate_eq

/-- Texts that are joined with a character between neighbours which none of them has are the
pieces of the joined text. -/
theorem split_join {delimiter : String} {parts : List String} (single : delimiter.length = 1)
    (filled : parts ≠ []) (absent : ∀ part ∈ parts, ¬ delimiter.toList <:+: part.toList) :
    split delimiter (join delimiter parts) = parts := by
  obtain ⟨character, isDelimiter⟩ :=
    List.length_eq_one_iff.mp (String.length_toList.trans single)
  simp only [isDelimiter, List.singleton_infix_iff] at absent
  rw [split, join, String.toList_intercalate, isDelimiter, pieces_singleton,
    List.splitOn_intercalate character (by simpa using absent) (by simpa using filled)]
  simp

end Lateral.Text
