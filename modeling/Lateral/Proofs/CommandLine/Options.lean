import Mathlib.Data.Nat.Digits.Lemmas
import Lateral.CommandLine.Options
import Lateral.Proofs.Text.Bytes

/-!
# The grammar of command lines

A command line is a list of groups, each an option with its value if it has one
(`ArgumentGroup`). Groups can be told apart by how they begin, so a list of arguments is made of
groups in one way at most, and the longest beginning of a list that is made of groups is the part
that is read (`parse_eq_groups`): reading succeeds when this is the whole list, and what was read
has its effect in either case.
-/

namespace Lateral

namespace Text

/-- A text of decimal digits takes one byte for each of them. -/
theorem utf8ByteSize_of_digits {text : String}
    (digits : ∀ character ∈ text.toList, character.isDigit = true) :
    text.utf8ByteSize = text.length := by
  have oneByte : ∀ character ∈ text.toList, character.utf8Size = 1 := by
    intro character member
    have atMost : character.val ≤ '9'.val := by
      simpa using (Bool.and_eq_true_iff.mp (digits character member)).2
    exact Char.utf8Size_eq_one_iff.mpr (UInt32.le_trans atMost (by decide))
  calc text.utf8ByteSize
      = (text.toList.map Char.utf8Size).sum := by
        change (bytes text).length = _
        simp [bytes_eq_encode, encode, List.length_flatMap]
    _ = text.length := by
        rw [List.map_congr_left oneByte, List.map_const', List.sum_replicate, String.length_toList]
        simp

/-- Reading digits from the left gives the number that they write in base ten. -/
theorem numeralValue_eq_ofDigits (text : String) :
    numeralValue text =
      Nat.ofDigits 10 (text.toList.reverse.map fun digit => digit.toNat - '0'.toNat) := by
  rw [numeralValue, Nat.ofDigits_eq_foldr, List.map_reverse, List.foldr_reverse, List.foldl_map]
  simp only [Nat.cast_id, Nat.add_comm]

end Text

namespace Options

/-- A text of one to nine decimal digits. -/
@[ext]
structure Numeral where
  text : String
  digits : ∀ character ∈ text.toList, character.isDigit = true
  filled : 1 ≤ text.length
  short : text.length ≤ 9

namespace Numeral

/-- The number that the digits write in base ten, the most significant digit first. -/
def value (numeral : Numeral) : ℕ :=
  Nat.ofDigits 10 (numeral.text.toList.reverse.map fun digit => digit.toNat - '0'.toNat)

/-- Nine digits write a number below a billion. -/
theorem value_lt (numeral : Numeral) : numeral.value < 10 ^ 9 := by
  have small : ∀ digit ∈ numeral.text.toList.reverse.map fun digit => digit.toNat - '0'.toNat,
      digit < 10 := by
    intro digit member
    obtain ⟨character, isCharacter, rfl⟩ := List.mem_map.mp member
    have isDigit := numeral.digits character (List.mem_reverse.mp isCharacter)
    have atMost : character.toNat ≤ '9'.toNat := by
      simpa [UInt32.le_iff_toNat_le] using (Bool.and_eq_true_iff.mp isDigit).2
    have nine : '9'.toNat = '0'.toNat + 9 := rfl
    omega
  have below := Nat.ofDigits_lt_base_pow_length (by decide) small
  rw [List.length_map, List.length_reverse, String.length_toList] at below
  exact lt_of_lt_of_le below (Nat.pow_le_pow_right (by decide) numeral.short)

/-- The number in 32 bits, where it fits. -/
def count (numeral : Numeral) : UInt32 :=
  .ofNatLT numeral.value (numeral.value_lt.trans (by decide))

/-- Nothing is lost of the number in 32 bits. -/
@[simp] theorem toNat_count (numeral : Numeral) : numeral.count.toNat = numeral.value :=
  UInt32.toNat_ofNatLT

/-- A text is accepted as a count when it is of one to nine decimal digits. -/
theorem accepted_iff {argument : String} :
    (Text.isNumeral argument && argument.utf8ByteSize < 10) = true ↔
      ∃ numeral : Numeral, numeral.text = argument := by
  simp only [Text.isNumeral, Bool.and_eq_true, Bool.not_eq_true', List.all_eq_true,
    decide_eq_true_eq]
  constructor
  · rintro ⟨⟨filled, digits⟩, short⟩
    rw [Text.utf8ByteSize_of_digits digits] at short
    have nonempty : argument.length ≠ 0 := by simpa using filled
    exact ⟨⟨argument, digits, by omega, by omega⟩, rfl⟩
  · rintro ⟨numeral, rfl⟩
    have nonempty : numeral.text.length ≠ 0 := by have := numeral.filled; omega
    have short := numeral.short
    rw [Text.utf8ByteSize_of_digits numeral.digits]
    exact ⟨⟨by simpa using nonempty, numeral.digits⟩, by omega⟩

/-- The count that a numeral stands for is the number that it writes. -/
theorem count?_text (numeral : Numeral) : count? numeral.text = some numeral.count := by
  rw [count?, if_pos (accepted_iff.mpr ⟨numeral, rfl⟩), Text.numeralValue_eq_ofDigits]
  exact congrArg some (UInt32.ofNatLT_eq_ofNat _).symm

/-- No count is read from a text that is no numeral. -/
theorem count?_eq_none_iff {argument : String} :
    count? argument = none ↔ ¬ ∃ numeral : Numeral, numeral.text = argument := by
  rw [← accepted_iff, count?]
  split <;> simp_all

end Numeral

/-- An option with its value, if it has one. -/
inductive ArgumentGroup where
  | caseInsensitive
  | logFile (path : String)
  | maxIterations (numeral : Numeral)

namespace ArgumentGroup

/-- The arguments that a group is written as. -/
def arguments : ArgumentGroup → List String
  | .caseInsensitive => ["--case-insensitive"]
  | .logFile path => ["--log-file", path]
  | .maxIterations numeral => ["--max-iterations", numeral.text]

/-- What a group changes in the options. -/
def apply (options : Options) : ArgumentGroup → Options
  | .caseInsensitive => options.ignoringCase
  | .logFile path => { options with logFile := path }
  | .maxIterations numeral => options.withMaxFirings numeral.count

/-- The rule for names that a group sets. -/
def caseRule? : ArgumentGroup → Option CaseRule
  | .caseInsensitive => some .insensitive
  | _ => none

/-- The path that a group sets. -/
def path? : ArgumentGroup → Option String
  | .logFile path => some path
  | _ => none

/-- The number of rule firings that a group sets. -/
def maxFirings? : ArgumentGroup → Option ℕ
  | .maxIterations numeral => some numeral.value
  | _ => none

/-- A group is written as one argument at least. -/
theorem length_arguments_pos (group : ArgumentGroup) : 0 < group.arguments.length := by
  cases group <;> simp [arguments]

/-- Groups can be told apart by how they begin. -/
theorem eq_of_starts {one other : ArgumentGroup} {line : List String}
    (starts : one.arguments <+: line) (otherStarts : other.arguments <+: line) : one = other := by
  obtain ⟨rest, rfl⟩ := starts
  obtain ⟨others, same⟩ := otherStarts
  cases one <;> cases other <;> simp_all [arguments, Numeral.ext_iff]

end ArgumentGroup

/-- The arguments that groups are written as, one group behind the other. -/
def lineOf (groups : List ArgumentGroup) : List String :=
  groups.flatMap ArgumentGroup.arguments

/-- No group stands at the beginning of the arguments. -/
def Unreadable (line : List String) : Prop :=
  ∀ group : ArgumentGroup, ¬ group.arguments <+: line

/-- A group at the beginning is read and has its effect. -/
theorem parse_group (options : Options) (group : ArgumentGroup) (rest : List String) :
    parse options (group.arguments ++ rest) = parse (group.apply options) rest := by
  cases group with
  | caseInsensitive =>
      rw [ArgumentGroup.arguments, List.singleton_append, parse.eq_def]
      rfl
  | logFile path => rfl
  | maxIterations numeral =>
      simp [ArgumentGroup.arguments, ArgumentGroup.apply, parse, Numeral.count?_text]

/-- Groups at the beginning are read from the left. -/
theorem parse_lineOf_append (options : Options) (groups : List ArgumentGroup)
    (rest : List String) :
    parse options (lineOf groups ++ rest) =
      parse (groups.foldl ArgumentGroup.apply options) rest := by
  induction groups generalizing options with
  | nil => rfl
  | cons group groups inductionHypothesis =>
      rw [lineOf, List.flatMap_cons, List.append_assoc, parse_group]
      exact inductionHypothesis (group.apply options)

/-- Reading ends with an error where no group begins. -/
theorem parse_of_unreadable {line : List String} (unreadable : Unreadable line)
    (filled : line ≠ []) (options : Options) :
    ∃ fault, parse options line = (options, .failed (.option fault)) := by
  fun_cases parse options line with
  | case1 => exact absurd rfl filled
  | case2 rest => exact absurd ⟨rest, rfl⟩ (unreadable .caseInsensitive)
  | case3 => exact ⟨_, rfl⟩
  | case4 value rest => exact absurd ⟨rest, rfl⟩ (unreadable (.logFile value))
  | case5 => exact ⟨_, rfl⟩
  | case6 value rest count counted =>
      obtain ⟨numeral, rfl⟩ : ∃ numeral : Numeral, numeral.text = value := by
        by_contra noNumeral
        rw [Numeral.count?_eq_none_iff.mpr noNumeral] at counted
        cases counted
      exact absurd ⟨rest, rfl⟩ (unreadable (.maxIterations numeral))
  | case7 => exact ⟨_, rfl⟩
  | case8 => exact ⟨_, rfl⟩

/-- Every line begins with groups behind which no further group begins. -/
theorem exists_lineOf_append (line : List String) :
    ∃ groups rest, line = lineOf groups ++ rest ∧ Unreadable rest := by
  induction size : line.length using Nat.strong_induction_on generalizing line with
  | _ size' inductionHypothesis =>
      subst size
      by_cases unreadable : Unreadable line
      · exact ⟨[], line, rfl, unreadable⟩
      · obtain ⟨group, rest, rfl⟩ : ∃ group : ArgumentGroup, group.arguments <+: line := by
          simpa [Unreadable] using unreadable
        have shorter : rest.length < (group.arguments ++ rest).length := by
          have filled := group.length_arguments_pos
          rw [List.length_append]
          omega
        obtain ⟨groups, behind, rfl, ends⟩ := inductionHypothesis _ shorter rest rfl
        exact ⟨group :: groups, behind, by simp [lineOf], ends⟩

/-- Groups at the beginning of a line are the first ones of those that are read. -/
theorem starts_of_lineOf_starts {groups others : List ArgumentGroup} {rest : List String}
    (unreadable : Unreadable rest) (starts : lineOf others <+: lineOf groups ++ rest) :
    others <+: groups := by
  induction others generalizing groups with
  | nil => exact List.nil_prefix
  | cons other others inductionHypothesis =>
      have otherStarts : other.arguments <+: lineOf groups ++ rest :=
        (List.prefix_append _ _).trans starts
      cases groups with
      | nil => exact absurd otherStarts (unreadable other)
      | cons group groups =>
          have groupStarts : group.arguments <+: lineOf (group :: groups) ++ rest := by
            simp [lineOf]
          obtain rfl := ArgumentGroup.eq_of_starts otherStarts groupStarts
          simp only [lineOf, List.flatMap_cons, List.append_assoc,
            List.prefix_append_right_inj] at starts
          exact List.cons_prefix_cons.mpr ⟨rfl, inductionHypothesis starts⟩

/-- The groups that make up the longest beginning of a line that is made of groups. -/
structure LongestRead (line : List String) (groups : List ArgumentGroup) : Prop where
  starts : lineOf groups <+: line
  longest : ∀ others, lineOf others <+: line → (lineOf others).length ≤ (lineOf groups).length

/-- Groups behind which no further group begins are the longest that can be read. -/
theorem LongestRead.of_unreadable {groups : List ArgumentGroup} {rest : List String}
    (unreadable : Unreadable rest) : LongestRead (lineOf groups ++ rest) groups where
  starts := List.prefix_append _ _
  longest others starts := by
    obtain ⟨more, rfl⟩ := starts_of_lineOf_starts unreadable starts
    simp [lineOf]

/-- No group begins behind the longest beginning that is made of groups. -/
theorem LongestRead.exists_rest {line : List String} {groups : List ArgumentGroup}
    (longestRead : LongestRead line groups) :
    ∃ rest, line = lineOf groups ++ rest ∧ Unreadable rest := by
  obtain ⟨rest, rfl⟩ := longestRead.starts
  refine ⟨rest, rfl, fun group starts => ?_⟩
  have more : lineOf (groups ++ [group]) <+: lineOf groups ++ rest := by
    simpa [lineOf] using starts
  have bounded := longestRead.longest _ more
  have filled := group.length_arguments_pos
  simp only [lineOf, List.flatMap_append, List.flatMap_singleton, List.length_append] at bounded
  omega

/-- What groups make of options: of the groups that set the same thing the last one decides, and
a number is set as it is written. -/
structure Effect (groups : List ArgumentGroup) (options result : Options) : Prop where
  caseRule : result.settings.caseRule =
    (groups.filterMap ArgumentGroup.caseRule?).getLast?.getD options.settings.caseRule
  maxFirings : result.settings.maxFirings.toNat =
    (groups.filterMap ArgumentGroup.maxFirings?).getLast?.getD options.settings.maxFirings.toNat
  logFile : result.logFile = (groups.filterMap ArgumentGroup.path?).getLast?.getD options.logFile
  validates : result.settings.validates = options.settings.validates

/-- Of the groups that set the same thing the last one decides. -/
theorem read_foldl_apply {α : Type} (read : Options → α) (sets? : ArgumentGroup → Option α)
    (sets : ∀ options group, read (ArgumentGroup.apply options group) =
      (sets? group).getD (read options))
    (groups : List ArgumentGroup) (options : Options) :
    read (groups.foldl ArgumentGroup.apply options) =
      (groups.filterMap sets?).getLast?.getD (read options) := by
  induction groups generalizing options with
  | nil => rfl
  | cons group groups inductionHypothesis =>
      rw [List.foldl_cons, inductionHypothesis, sets]
      cases setsThis : sets? group with
      | none => rw [List.filterMap_cons_none setsThis, Option.getD_none]
      | some value =>
          rw [List.filterMap_cons_some setsThis, List.getLast?_cons, Option.getD_some,
            Option.getD_some]

/-- Groups that are applied from the left have their effect. -/
theorem effect_foldl_apply (groups : List ArgumentGroup) (options : Options) :
    Effect groups options (groups.foldl ArgumentGroup.apply options) where
  caseRule := read_foldl_apply (fun options => options.settings.caseRule) _
    (fun options group => by cases group <;> rfl) groups options
  maxFirings := by
    refine read_foldl_apply (fun options => options.settings.maxFirings.toNat) _
      (fun options group => ?_) groups options
    cases group with
    | maxIterations numeral => exact numeral.toNat_count
    | _ => rfl
  logFile := read_foldl_apply Options.logFile _
    (fun options group => by cases group <;> rfl) groups options
  validates := by
    simpa using read_foldl_apply (fun options => options.settings.validates) (fun _ => none)
      (fun options group => by cases group <;> rfl) groups options

/-- Groups are read to the end and have their effect. -/
theorem parse_lineOf (options : Options) (groups : List ArgumentGroup) :
    parse options (lineOf groups) = (groups.foldl ArgumentGroup.apply options, .ok) := by
  have read := parse_lineOf_append options groups []
  rwa [List.append_nil] at read

/-- A line that is not made of groups is read as far as it is, and then there is an error. -/
theorem parse_of_longestRead {line : List String} {groups : List ArgumentGroup}
    (longestRead : LongestRead line groups) (options : Options) :
    line = lineOf groups ∨ ∃ fault, parse options line =
      (groups.foldl ArgumentGroup.apply options, .failed (.option fault)) := by
  obtain ⟨rest, rfl, ends⟩ := longestRead.exists_rest
  by_cases filled : rest = []
  · exact .inl (by rw [filled, List.append_nil])
  · rw [parse_lineOf_append]
    exact .inr (parse_of_unreadable ends filled _)

/-- Reading arguments succeeds exactly when they are groups one behind the other, and gives the
options that the groups make, applied from the left. Otherwise it ends with an invalid argument,
and the options are what the groups make that are the longest beginning of the arguments. -/
theorem parse_eq_groups (options : Options) (line : List String) :
    ((parse options line).2 = .ok ↔ ∃ groups, line = lineOf groups) ∧
    (∀ groups, line = lineOf groups →
      parse options line = (groups.foldl ArgumentGroup.apply options, .ok)) ∧
    ((¬ ∃ groups, line = lineOf groups) →
      (parse options line).2.kind? = some .invalidArgument) ∧
    (∃ groups, LongestRead line groups) ∧
    (∀ groups, LongestRead line groups →
      (parse options line).1 = groups.foldl ArgumentGroup.apply options) ∧
    ∀ groups, Effect groups options (groups.foldl ArgumentGroup.apply options) := by
  obtain ⟨groups, longestRead⟩ : ∃ groups, LongestRead line groups := by
    obtain ⟨groups, rest, rfl, ends⟩ := exists_lineOf_append line
    exact ⟨groups, .of_unreadable ends⟩
  refine ⟨⟨fun succeeded => ?_, ?_⟩, ?_, fun noGroups => ?_, ⟨groups, longestRead⟩,
    fun groups longestRead => ?_, fun groups => effect_foldl_apply groups options⟩
  · rcases parse_of_longestRead longestRead options with isGroups | ⟨fault, failed⟩
    · exact ⟨groups, isGroups⟩
    · rw [failed] at succeeded
      cases succeeded
  · rintro ⟨groups, rfl⟩
    rw [parse_lineOf]
  · rintro groups rfl
    exact parse_lineOf options groups
  · rcases parse_of_longestRead longestRead options with isGroups | ⟨fault, failed⟩
    · exact absurd ⟨groups, isGroups⟩ noGroups
    · rw [failed]
      rfl
  · rcases parse_of_longestRead longestRead options with isGroups | ⟨fault, failed⟩
    · rw [isGroups, parse_lineOf]
    · rw [failed]

/-- Sixteen, with zeros in front. -/
def sixteen : Numeral :=
  ⟨"000000016", List.all_eq_true.mp (by decide), by decide, by decide⟩

/-- A path that looks like an option, a number, and a number that is too long. -/
def overlongLine : List String :=
  lineOf [.logFile "--case-insensitive", .maxIterations sixteen] ++
    ["--max-iterations", "1234567890", "--case-insensitive"]

/-- What stands before the number that is too long has its effect. -/
theorem parse_eq_groups_overlongLine :
    LongestRead overlongLine [.logFile "--case-insensitive", .maxIterations sixteen] ∧
    (¬ ∃ groups, overlongLine = lineOf groups) ∧
    (parse .standard overlongLine).1 = ⟨⟨.sensitive, 16, true⟩, "--case-insensitive"⟩ ∧
    (parse .standard overlongLine).2.kind? = some .invalidArgument := by
  have ends : Unreadable ["--max-iterations", "1234567890", "--case-insensitive"] := by
    rintro group ⟨rest, starts⟩
    cases group with
    | caseInsensitive => simp [ArgumentGroup.arguments] at starts
    | logFile path => simp [ArgumentGroup.arguments] at starts
    | maxIterations numeral =>
        have isLong : numeral.text = "1234567890" := by
          simp_all [ArgumentGroup.arguments]
        have short := numeral.short
        rw [isLong] at short
        exact absurd short (by decide)
  have longestRead : LongestRead overlongLine
      [.logFile "--case-insensitive", .maxIterations sixteen] := .of_unreadable ends
  obtain ⟨succeeds, -, fails, -, read, -⟩ := parse_eq_groups .standard overlongLine
  have noGroups : ¬ ∃ groups, overlongLine = lineOf groups := by
    rw [← succeeds]
    decide
  refine ⟨longestRead, noGroups, ?_, fails noGroups⟩
  rw [read _ longestRead]
  rfl

end Options

end Lateral
