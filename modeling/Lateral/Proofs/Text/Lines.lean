import Lateral.Proofs.Text.Bytes

/-!
# Texts made of lines

Lines with an end behind each of them can be told apart as long as none of them holds an end
(`split_unlines`). The characters and the bytes of a text that is put together from others are
those of its parts.
-/

namespace Lateral.Text

theorem toList_pushn (text : String) (character : Char) (count : Nat) :
    (text.pushn character count).toList = text.toList ++ List.replicate count character := by
  induction count with
  | zero => simp [String.pushn, Nat.repeat]
  | succ count inductionHypothesis =>
      rw [List.replicate_succ', ← List.append_assoc, ← inductionHypothesis]
      simp [String.pushn, Nat.repeat]

@[simp] theorem bytes_append (front back : String) :
    bytes (front ++ back) = bytes front ++ bytes back := by
  simp [bytes_eq_encode]

/-- A text has as many bytes as it says. -/
@[simp] theorem length_bytes (text : String) : (bytes text).length = text.utf8ByteSize :=
  rfl

/-- A character of a single byte that is added a number of times adds this byte as often. -/
theorem bytes_pushn {character : Char} {byte : UInt8}
    (single : String.utf8EncodeChar character = [byte]) (text : String) (count : Nat) :
    bytes (text.pushn character count) = bytes text ++ List.replicate count byte := by
  rw [bytes_eq_encode, bytes_eq_encode, toList_pushn, encode_append]
  congr 1
  induction count with
  | zero => rfl
  | succ count inductionHypothesis =>
      rw [List.replicate_succ, List.replicate_succ, encode_cons, single, inductionHypothesis]
      rfl

theorem bytes_join (parts : List String) : bytes (String.join parts) = parts.flatMap bytes := by
  rw [bytes_eq_encode, String.toList_join, encode, List.flatMap_assoc]
  exact List.flatMap_congr fun part _ => (bytes_eq_encode part).symm

/-- Lines, each with its end. -/
def unlines (parts : List String) : String :=
  String.join (parts.map (· ++ "\n"))

@[simp] theorem toList_unlines (parts : List String) :
    (unlines parts).toList = parts.flatMap (·.toList ++ ['\n']) := by
  simp [unlines, List.flatMap_map]

@[simp] theorem unlines_append (front back : List String) :
    unlines (front ++ back) = unlines front ++ unlines back := by
  simp [← String.toList_inj]

/-- The ends of lines stand between the lines and behind the last one. -/
theorem join_eq_unlines (parts : List String) : join "\n" (parts ++ [""]) = unlines parts := by
  rw [← String.toList_inj, join, String.toList_intercalate, toList_unlines]
  induction parts with
  | nil => rfl
  | cons part rest inductionHypothesis =>
      rw [List.cons_append, List.map_cons, List.intercalate_cons_of_ne_nil (by simp),
        inductionHypothesis]
      rfl

/-- Lines without an end in them can be told apart. -/
theorem split_unlines {parts : List String} (whole : ∀ part ∈ parts, '\n' ∉ part.toList) :
    split "\n" (unlines parts) = parts ++ [""] := by
  have wholeLines : ∀ part ∈ parts ++ [""], ¬ "\n".toList <:+: part.toList := by
    rw [List.forall_mem_append]
    exact ⟨by simpa [List.singleton_infix_iff] using whole, by simp⟩
  rw [← join_eq_unlines, split_join rfl (by simp) wholeLines]

end Lateral.Text
