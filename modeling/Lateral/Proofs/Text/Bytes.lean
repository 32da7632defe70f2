import Lateral.Proofs.Text.Pieces

/-!
# Texts as bytes

The bytes of a text are those of its characters in UTF-8. One text occurs in another as
bytes exactly where it occurs as characters (`exists_of_encode_eq`), so to cut a text at the
characters of a delimiter is to cut its bytes at the bytes of the delimiter (`Cuts.encode`).
-/

namespace Lateral.Text

/-- The bytes of characters in UTF-8. -/
def encode (characters : List Char) : List UInt8 :=
  characters.flatMap String.utf8EncodeChar

/-- The bytes of a text in UTF-8. -/
def bytes (text : String) : List UInt8 :=
  text.toUTF8.data.toList

@[simp] theorem encode_nil : encode [] = [] :=
  rfl

@[simp] theorem encode_cons (character : Char) (rest : List Char) :
    encode (character :: rest) = String.utf8EncodeChar character ++ encode rest :=
  List.flatMap_cons

@[simp] theorem encode_append (front rest : List Char) :
    encode (front ++ rest) = encode front ++ encode rest :=
  List.flatMap_append

theorem bytes_eq_encode (text : String) : bytes text = encode text.toList := by
  rw [bytes, String.toUTF8_eq_toByteArray, ← String.utf8Encode_toList, List.utf8Encode,
    List.toList_data_toByteArray, encode]

@[simp] theorem encode_eq_nil_iff {characters : List Char} :
    encode characters = [] ↔ characters = [] := by
  cases characters <;> simp

/-- Bytes that begin with those of some characters are the bytes of characters that begin with
these. -/
theorem exists_of_encode_eq_append {text delimiter : List Char} {behind : List UInt8}
    (same : encode text = encode delimiter ++ behind) :
    ∃ rest, text = delimiter ++ rest ∧ encode rest = behind := by
  have sameArrays : delimiter.utf8Encode ++ behind.toByteArray = text.utf8Encode := by
    simpa [List.utf8Encode, encode] using (congrArg List.toByteArray same).symm
  obtain ⟨rest, rfl⟩ := List.isPrefix_of_utf8Encode_append_eq_utf8Encode _ sameArrays
  exact ⟨rest, rfl, List.append_cancel_left ((encode_append _ _).symm.trans same)⟩

/-- Only the first byte of a character can be a first byte. -/
theorem eq_nil_of_utf8EncodeChar_eq {character : Char} {before behind : List UInt8} {byte : UInt8}
    (isFirst : byte.IsUTF8FirstByte)
    (same : String.utf8EncodeChar character = before ++ byte :: behind) : before = [] := by
  have inside : before.length < (String.utf8EncodeChar character).length := by simp [same]
  have isByte : (String.utf8EncodeChar character)[before.length] = byte := by simp [same]
  rw [← isByte, UInt8.isUTF8FirstByte_getElem_utf8EncodeChar] at isFirst
  exact List.length_eq_zero_iff.mp isFirst

/-- A first byte stands where a character begins. -/
theorem exists_of_encode_eq_cons {text : List Char} {before behind : List UInt8} {byte : UInt8}
    (isFirst : byte.IsUTF8FirstByte) (same : encode text = before ++ byte :: behind) :
    ∃ front rest, text = front ++ rest ∧ encode front = before ∧ encode rest = byte :: behind := by
  induction text generalizing before with
  | nil => simp at same
  | cons character text inductionHypothesis =>
      rw [encode_cons] at same
      -- The byte stands in a later character or in this one, where it is the first.
      rcases List.append_eq_append_iff.mp same with
        ⟨between, isBefore, isText⟩ | ⟨between, isCharacter, isBehind⟩
      · obtain ⟨front, rest, rfl, isFront, isRest⟩ := inductionHypothesis isText
        exact ⟨character :: front, rest, rfl, by rw [encode_cons, isFront, isBefore], isRest⟩
      · cases between with
        | nil =>
            rw [List.append_nil] at isCharacter
            exact ⟨[character], text, rfl, by simp [isCharacter], isBehind.symm⟩
        | cons other between =>
            obtain ⟨rfl, -⟩ := List.cons.inj isBehind
            obtain rfl := eq_nil_of_utf8EncodeChar_eq isFirst isCharacter
            exact ⟨[], character :: text, rfl, rfl, same⟩

/-- The bytes of a text that is not empty begin with a first byte. -/
theorem exists_encode_eq_cons {text : List Char} (filled : text ≠ []) :
    ∃ byte rest, encode text = byte :: rest ∧ byte.IsUTF8FirstByte := by
  cases text with
  | nil => exact absurd rfl filled
  | cons character text =>
      cases shape : String.utf8EncodeChar character with
      | nil => exact absurd shape String.utf8EncodeChar_ne_nil
      | cons byte rest =>
          refine ⟨byte, rest ++ encode text, by simp [shape], ?_⟩
          have isFirst := @UInt8.isUTF8FirstByte_getElem_zero_utf8EncodeChar character
          simpa [shape] using isFirst

/-- Where the bytes of characters hold those of others, the characters hold the others. -/
theorem exists_of_encode_eq {text delimiter : List Char} {before behind : List UInt8}
    (filled : delimiter ≠ []) (same : encode text = before ++ encode delimiter ++ behind) :
    ∃ front rest, text = front ++ delimiter ++ rest ∧ encode front = before ∧
      encode rest = behind := by
  obtain ⟨byte, others, isDelimiter, isFirst⟩ := exists_encode_eq_cons filled
  obtain ⟨front, later, rfl, isFront, isLater⟩ :=
    exists_of_encode_eq_cons isFirst (by simpa [isDelimiter] using same)
  rw [← List.cons_append, ← isDelimiter] at isLater
  obtain ⟨rest, rfl, isBehind⟩ := exists_of_encode_eq_append isLater
  exact ⟨front, rest, (List.append_assoc _ _ _).symm, isFront, isBehind⟩

/-- Characters hold others exactly where their bytes hold those of the others. -/
theorem encode_infix_iff {delimiter text : List Char} :
    encode delimiter <:+: encode text ↔ delimiter <:+: text := by
  constructor
  · rintro ⟨before, behind, same⟩
    by_cases filled : delimiter = []
    · simp [filled]
    · obtain ⟨front, rest, rfl, -, -⟩ := exists_of_encode_eq filled same.symm
      exact ⟨front, rest, rfl⟩
  · rintro ⟨front, rest, rfl⟩
    exact ⟨encode front, encode rest, by simp⟩

/-- A text holds another exactly where its bytes hold those of the other. -/
theorem bytes_infix_iff {delimiter text : String} :
    bytes delimiter <:+: bytes text ↔ delimiter.toList <:+: text.toList := by
  rw [bytes_eq_encode, bytes_eq_encode, encode_infix_iff]

/-- The first delimiter among characters is the first one among their bytes. -/
theorem EndsFirst.encode {delimiter front : List Char} (first : EndsFirst delimiter front)
    (filled : delimiter ≠ []) : EndsFirst (Text.encode delimiter) (Text.encode front) := by
  intro before behind same
  rw [← encode_append] at same
  obtain ⟨others, rest, isText, -, rfl⟩ := exists_of_encode_eq filled same
  rw [first others rest isText, encode_nil]

/-- To cut a text at a delimiter is to cut its bytes at those of the delimiter. -/
theorem Cuts.encode {delimiter text : List Char} {tokens : List (List Char)}
    (cuts : Cuts delimiter text tokens) (filled : delimiter ≠ []) :
    Cuts (Text.encode delimiter) (Text.encode text) (tokens.map Text.encode) := by
  induction cuts with
  | last absent => exact .last (encode_infix_iff.not.mpr absent)
  | next first others inductionHypothesis =>
      rw [encode_append, encode_append]
      exact .next (first.encode filled) inductionHypothesis

/-- The bytes of a text are cut into those of its pieces. -/
theorem cuts_bytes_split {delimiter : String} (filled : delimiter ≠ "") (text : String) :
    Cuts (bytes delimiter) (bytes text) ((split delimiter text).map bytes) := by
  have tokens : (split delimiter text).map bytes =
      ((split delimiter text).map String.toList).map encode := by simp [bytes_eq_encode]
  rw [bytes_eq_encode, bytes_eq_encode, tokens]
  exact (cuts_split filled text).encode (by simpa using filled)

end Lateral.Text
