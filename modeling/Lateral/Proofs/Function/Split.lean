import Lateral.Function.Table
import Lateral.Proofs.Text.Bytes

/-!
# The pieces of a text as rows

`SPLIT` gives one row for each piece of a text, in order, and gives all of them whatever the
text and the delimiter are, as long as there is a delimiter. Joining the pieces is the way back
in both directions (`generateBehind_split`).

What holds for characters holds for bytes in UTF-8 as well. Any other sequence of bytes is the
text whose characters have these bytes as their codes.
-/

namespace Lateral.TableFunction

/-- The rows of `SPLIT` come behind those that are there, one for each piece. -/
theorem generateBehind_split_eq (identity : String) (rows : List Row) {text delimiter : String}
    (filled : delimiter ≠ "") :
    (split identity).generateBehind rows [.string text, .string delimiter] =
      .ok (rows ++ (Text.split delimiter text).map fun token => [.string token]) := by
  simp [generateBehind, split, generateSplit, Value.isNull, filled, Except.map]

/-- Splitting a text at a delimiter ends with at least one piece. The pieces with the delimiter
between neighbours are the text, none of them holds the delimiter, and they are what lies between
its occurrences from the left, in characters as well as in bytes. The other way round, texts that
are joined with a single character between neighbours, which none of them has, are the pieces of
the joined text. -/
theorem generateBehind_split (identity : String) (rows : List Row) :
    (∀ text delimiter : String, delimiter ≠ "" → ∃ tokens : List String,
      (split identity).generateBehind rows [.string text, .string delimiter] =
        .ok (rows ++ tokens.map fun token => [.string token]) ∧
      tokens ≠ [] ∧ Text.join delimiter tokens = text ∧
      (∀ token ∈ tokens, ¬ delimiter.toList <:+: token.toList ∧
        ¬ Text.bytes delimiter <:+: Text.bytes token) ∧
      Text.Cuts delimiter.toList text.toList (tokens.map String.toList) ∧
      Text.Cuts (Text.bytes delimiter) (Text.bytes text) (tokens.map Text.bytes)) ∧
    ∀ (delimiter : String) (parts : List String), delimiter.length = 1 → parts ≠ [] →
      (∀ part ∈ parts, ¬ delimiter.toList <:+: part.toList) →
        (split identity).generateBehind rows
            [.string (Text.join delimiter parts), .string delimiter] =
          .ok (rows ++ parts.map fun part => [.string part]) := by
  constructor
  · intro text delimiter filled
    have cuts := Text.cuts_split filled text
    have absent : ∀ token ∈ Text.split delimiter text, ¬ delimiter.toList <:+: token.toList := by
      simpa using cuts.absent (by simpa using filled)
    refine ⟨Text.split delimiter text, generateBehind_split_eq identity rows filled,
      by simpa using cuts.ne_nil, Text.join_split filled text, fun token member => ?_, cuts,
      Text.cuts_bytes_split filled text⟩
    exact ⟨absent token member, Text.bytes_infix_iff.not.mpr (absent token member)⟩
  · intro delimiter parts single filled absent
    have someDelimiter : delimiter ≠ "" := by
      rintro rfl
      simp at single
    rw [generateBehind_split_eq identity rows someDelimiter,
      Text.split_join single filled absent]

example : Text.split "aa" "aaabaa" = ["", "ab", ""] := by cbv

/-- A delimiter that overlaps itself, and pieces that are empty at both ends. -/
theorem generateBehind_split_overlapping :
    (∃ tokens : List String,
      (split "SPLIT").generateBehind [[.int 7]] [.string "aaabaa", .string "aa"] =
        .ok ([.int 7] :: tokens.map fun token => [.string token]) ∧
      tokens ≠ [] ∧ Text.join "aa" tokens = "aaabaa") ∧
    (split "SPLIT").generateBehind [] [.string ",é,", .string ","] =
      .ok [[.string ""], [.string "é"], [.string ""]] := by
  constructor
  · obtain ⟨tokens, generated, filled, joined, -⟩ :=
      (generateBehind_split "SPLIT" [[.int 7]]).1 "aaabaa" "aa" (by decide)
    exact ⟨tokens, generated, filled, joined⟩
  · have joined : Text.join "," ["", "é", ""] = ",é," := by decide
    have absent : ∀ part ∈ ["", "é", ""], ¬ ",".toList <:+: part.toList := by decide
    rw [← joined]
    exact (generateBehind_split "SPLIT" []).2 "," ["", "é", ""] (by decide) (by decide) absent

end Lateral.TableFunction
