import Mathlib
import Lateral.Function.Catalog

/-!
# What a catalog keeps

A catalog changes by registrations: of one function, which is refused when its name is
taken, or of the native functions, which are made anew. A function that is held stays where
it is under the first kind (`lookup?_register`), and the native functions take the place of
whatever holds their names. So a registered function is found for good unless it has the
name of a native one and these are registered after it (`find_registered_iff`).
-/

namespace Lateral

namespace Text

/-- Two texts have the same capital form exactly when they agree without regard to case. -/
theorem upper_eq_upper_iff {left right : String} :
    upper left = upper right ↔ sameIgnoringCase left right = true := by
  rw [sameIgnoringCase_iff, ← String.toList_inj, ← String.toList_inj]
  simp only [toList_upper, toList_lower]
  constructor
  · intro same
    have small := congrArg (List.map Char.toLower) same
    simpa [Function.comp_def] using small
  · intro same
    have capital := congrArg (List.map Char.toUpper) same
    simpa [Function.comp_def] using capital

end Text

/-- A change that is asked of a catalog. The native functions are made for it, with the identities
that they get then. -/
inductive Registration where
  | natives (identify : String → String)
  | function (function : Function)

namespace Catalog

/-- The catalog after a change. One that is refused leaves it as it is. -/
def apply (catalog : Catalog) : Registration → Catalog
  | .natives identify => catalog.registerNatives identify
  | .function function =>
    match catalog.register function with
    | .ok next => next
    | .error _ => catalog

/-- The catalog after changes, one behind the other. -/
def applyAll (catalog : Catalog) (registrations : List Registration) : Catalog :=
  registrations.foldl apply catalog

variable {catalog next : Catalog} {function : Function} {key name : String}
  {identify : String → String}

/-- What is found under a name is what is held under its capital form. -/
theorem find_eq_ok_iff :
    catalog.find name = .ok function ↔ catalog.lookup? (Text.upper name) = some function := by
  unfold find
  cases catalog.lookup? (Text.upper name) <;> simp

/-- A function that is refused has a name that is taken. -/
theorem exists_find_of_register_error {error : Error}
    (refused : catalog.register function = .error error) :
    ∃ held, catalog.find function.name = .ok held := by
  unfold register contains at refused
  split at refused
  · next taken =>
      obtain ⟨held, isHeld⟩ := Option.isSome_iff_exists.mp taken
      exact ⟨held, find_eq_ok_iff.mpr isHeld⟩
  · cases refused

/-- A function that is not refused takes a free name, and all other names keep what they hold. -/
theorem lookup?_register (registered : catalog.register function = .ok next) :
    catalog.lookup? (Text.upper function.name) = none ∧
      next.lookup? (Text.upper function.name) = some function ∧
        ∀ other, other ≠ Text.upper function.name → next.lookup? other = catalog.lookup? other := by
  unfold register contains at registered
  split at registered
  · cases registered
  · next free =>
      obtain rfl := Except.ok.inj registered
      refine ⟨by simpa using free, by simp, fun other different => ?_⟩
      rw [lookup?_insert, if_neg (by simpa using Ne.symm different)]

/-- Of functions that are put in place one behind the other, the last one with a name is found
under it, before what the catalog held. -/
theorem lookup?_foldl_insert (functions : List Function) (catalog : Catalog) (key : String) :
    (functions.foldl insert catalog).lookup? key =
      (functions.reverse.find? fun function => Text.upper function.name == key).or
        (catalog.lookup? key) := by
  induction functions generalizing catalog with
  | nil => rfl
  | cons function rest inductionHypothesis =>
      rw [List.foldl_cons, inductionHypothesis, lookup?_insert, List.reverse_cons,
        List.find?_append, Option.or_assoc]
      by_cases here : Text.upper function.name == key <;> simp [here]

/-- The names of the native functions, whatever their identities. -/
theorem map_name_natives (identify : String → String) :
    (natives identify).map Function.name =
      ["ABS", "TO_UPPER", "TO_LOWER", "CONCAT", "ADD", "SUB", "MUL", "DIV", "RANGE", "SPLIT"] :=
  rfl

/-- No two native functions have the same name. -/
theorem nodup_upper_name_natives (identify : String → String) :
    ((natives identify).map fun native => Text.upper native.name).Nodup := by
  have names : ((natives identify).map fun native => Text.upper native.name) =
      ["ABS", "TO_UPPER", "TO_LOWER", "CONCAT", "ADD", "SUB", "MUL", "DIV", "RANGE", "SPLIT"] := by
    cbv
  rw [names]
  decide

/-- Each time the native functions are made there is one of each name. -/
theorem exists_native_of_name {native : Function} (member : native ∈ natives identify)
    (other : String → String) : ∃ again ∈ natives other, again.name = native.name := by
  have named : native.name ∈ (natives identify).map Function.name := List.mem_map_of_mem member
  rw [map_name_natives, ← map_name_natives other] at named
  exact List.mem_map.mp named

/-- The native functions are found under their names once they are registered. -/
theorem lookup?_registerNatives_of_mem (catalog : Catalog) {native : Function}
    (member : native ∈ natives identify) :
    (catalog.registerNatives identify).lookup? (Text.upper native.name) = some native := by
  rw [registerNatives, lookup?_foldl_insert]
  cases found : (natives identify).reverse.find? fun other =>
      Text.upper other.name == Text.upper native.name with
  | none =>
      have absent := List.find?_eq_none.mp found native (List.mem_reverse.mpr member)
      simp at absent
  | some other =>
      have sameName : Text.upper other.name = Text.upper native.name := by
        simpa using List.find?_some found
      have isNative := List.mem_reverse.mp (List.mem_of_find?_eq_some found)
      rw [List.inj_on_of_nodup_map (nodup_upper_name_natives identify) isNative member sameName]
      rfl

/-- Under the other names a catalog keeps what it holds when the native functions are registered. -/
theorem lookup?_registerNatives_of_forall_ne (catalog : Catalog)
    (free : ∀ native ∈ natives identify, Text.upper native.name ≠ key) :
    (catalog.registerNatives identify).lookup? key = catalog.lookup? key := by
  have absent : ((natives identify).reverse.find? fun native => Text.upper native.name == key) =
      none := by
    simpa using free
  rw [registerNatives, lookup?_foldl_insert, absent, Option.none_or]

/-- A change keeps a function in place unless it registers a native one of the same name. -/
theorem lookup?_apply (held : catalog.lookup? key = some function) {registration : Registration}
    (free : ∀ identify, registration = .natives identify →
      ∀ native ∈ natives identify, Text.upper native.name ≠ key) :
    (catalog.apply registration).lookup? key = some function := by
  cases registration with
  | natives identify =>
      exact (lookup?_registerNatives_of_forall_ne catalog (free identify rfl)).trans held
  | function other =>
      cases registers : catalog.register other with
      | error error => simpa [apply, registers] using held
      | ok next =>
          obtain ⟨unused, -, others⟩ := lookup?_register registers
          have different : key ≠ Text.upper other.name := by
            rintro rfl
            rw [unused] at held
            cases held
          simpa [apply, registers, others key different] using held

/-- So do any number of changes. -/
theorem lookup?_applyAll (held : catalog.lookup? key = some function)
    {registrations : List Registration}
    (free : ∀ identify, .natives identify ∈ registrations →
      ∀ native ∈ natives identify, Text.upper native.name ≠ key) :
    (catalog.applyAll registrations).lookup? key = some function := by
  induction registrations generalizing catalog with
  | nil => exact held
  | cons registration rest inductionHypothesis =>
      have first : (catalog.apply registration).lookup? key = some function :=
        lookup?_apply held fun identify isNatives => free identify (isNatives ▸ List.mem_cons_self)
      exact inductionHypothesis first fun identify later =>
        free identify (List.mem_cons_of_mem _ later)

/-- After some changes the native functions are found that were made last. -/
theorem lookup?_applyAll_of_last (catalog : Catalog) (before : List Registration)
    {behind : List Registration} (isLast : ∀ other, .natives other ∉ behind) {native : Function}
    (member : native ∈ natives identify) :
    (catalog.applyAll (before ++ .natives identify :: behind)).lookup? (Text.upper native.name) =
      some native := by
  rw [applyAll, List.foldl_append, List.foldl_cons]
  exact lookup?_applyAll (lookup?_registerNatives_of_mem _ member)
    fun other later => absurd later (isLast other)

/-- Where native functions are made at all there is a last time. -/
theorem exists_last_natives {registrations : List Registration}
    (made : ∃ identify, .natives identify ∈ registrations) :
    ∃ before last behind, registrations = before ++ .natives last :: behind ∧
      ∀ other, .natives other ∉ behind := by
  induction registrations with
  | nil => simp at made
  | cons registration rest inductionHypothesis =>
      by_cases later : ∃ identify, .natives identify ∈ rest
      · obtain ⟨before, last, behind, rfl, isLast⟩ := inductionHypothesis later
        exact ⟨registration :: before, last, behind, rfl, isLast⟩
      · obtain ⟨identify, member⟩ := made
        rcases List.mem_cons.mp member with rfl | inRest
        · exact ⟨[], identify, rest, rfl, fun other inRest => later ⟨other, inRest⟩⟩
        · exact absurd ⟨identify, inRest⟩ later

/-- The native functions that are made in later changes are not the function, as it was there
before them. -/
def MadeApart (function : Function) (later : List Registration) : Prop :=
  ∀ identify, .natives identify ∈ later → ∀ native ∈ natives identify,
    native.identity ≠ function.identity

/-- A function that is registered behind earlier registrations, starting without functions, is found
after later ones, whatever the case of its name, exactly unless native functions are among these and
one of them has its name; then the one is found that was made last. A function that is refused has
a name that is taken, and what is found under any name stays the same. -/
theorem find_registered_iff (earlier : List Registration) (function : Function) :
    (∀ catalog, (empty.applyAll earlier).register function = .ok catalog →
      ∀ (later : List Registration) (name : String),
        Text.sameIgnoringCase name function.name = true →
          (MadeApart function later →
            ((catalog.applyAll later).find name = .ok function ↔
              ∀ identify, .natives identify ∈ later → ∀ native ∈ natives identify,
                ¬ Text.sameIgnoringCase native.name function.name = true)) ∧
          ∀ before identify behind, later = before ++ .natives identify :: behind →
            (∀ other, .natives other ∉ behind) → ∀ native ∈ natives identify,
              Text.sameIgnoringCase native.name function.name = true →
                (catalog.applyAll later).find name = .ok native) ∧
    ∀ error, (empty.applyAll earlier).register function = .error error →
      (∃ held, (empty.applyAll earlier).find function.name = .ok held) ∧
      ∀ name, (empty.applyAll (earlier ++ [.function function])).find name =
        (empty.applyAll earlier).find name := by
  constructor
  · intro catalog registered later name sameName
    have sameKey := Text.upper_eq_upper_iff.mpr sameName
    have replaced : ∀ before identify behind, later = before ++ .natives identify :: behind →
        (∀ other, .natives other ∉ behind) → ∀ native ∈ natives identify,
          Text.sameIgnoringCase native.name function.name = true →
            (catalog.applyAll later).find name = .ok native := by
      rintro before identify behind rfl isLast native member sameNative
      rw [find_eq_ok_iff, sameKey, ← Text.upper_eq_upper_iff.mpr sameNative]
      exact lookup?_applyAll_of_last catalog before isLast member
    refine ⟨fun apart => ⟨fun found identify made native member sameNative => ?_, fun free => ?_⟩,
      replaced⟩
    · obtain ⟨before, last, behind, isLater, isLast⟩ := exists_last_natives ⟨identify, made⟩
      obtain ⟨again, isAgain, isNamed⟩ := exists_native_of_name member last
      have foundAgain := replaced before last behind isLater isLast again isAgain (by rwa [isNamed])
      have isFunction : function = again := Except.ok.inj (found.symm.trans foundAgain)
      exact apart last (by simp [isLater]) again isAgain (by rw [isFunction])
    · rw [find_eq_ok_iff, sameKey]
      refine lookup?_applyAll (lookup?_register registered).2.1 fun identify made native member => ?_
      exact Text.upper_eq_upper_iff.not.mpr (free identify made native member)
  · intro error refused
    refine ⟨exists_find_of_register_error refused, fun name => ?_⟩
    simp only [applyAll, List.foldl_append, List.foldl_cons, List.foldl_nil, apply]
    rw [← applyAll, refused]

/-- A python function of the given name. -/
def tripled (name : String) : Function :=
  .scalar ⟨⟨"TRIPLED", name, .python, .string⟩, fun arguments =>
    .ok (.string (concatenation (arguments ++ arguments ++ arguments)))⟩

/-- The native functions made a second time. -/
def secondNatives : Registration :=
  .natives (· ++ "-2")

theorem eq_of_natives_mem (functions : List Function)
    (made : .natives identify ∈ functions.map Registration.function ++ [secondNatives]) :
    identify = (· ++ "-2") := by
  simpa [secondNatives] using made

/-- `triple` is found as `Triple` although native functions are registered once more, and
`TRIPLE` is refused. The `ABS` of another catalog is registered, too, but the second `ABS` takes
its place. -/
theorem find_registered_iff_triple :
    (∃ catalog, (empty.applyAll [.natives id]).register (tripled "triple") = .ok catalog ∧
      MadeApart (tripled "triple") [.function (tripled "TRIPLE"), secondNatives] ∧
      (catalog.applyAll [.function (tripled "TRIPLE"), secondNatives]).find "Triple" =
        .ok (tripled "triple")) ∧
    (∃ catalog, empty.register (.scalar (.abs "ABS")) = .ok catalog ∧
      MadeApart (.scalar (.abs "ABS")) [secondNatives] ∧
      (catalog.applyAll [secondNatives]).find "abs" = .ok (.scalar (.abs "ABS-2")) ∧
      (catalog.applyAll [secondNatives]).find "abs" ≠ .ok (.scalar (.abs "ABS"))) ∧
    ∀ name, (empty.applyAll ([.natives id, .function (tripled "triple")] ++
        [.function (tripled "TRIPLE")])).find name =
      (empty.applyAll [.natives id, .function (tripled "triple")]).find name := by
  have refused : (empty.applyAll [.natives id, .function (tripled "triple")]).register
      (tripled "TRIPLE") = .error (.catalog "TRIPLE" .taken) := by cbv
  refine ⟨?_, ?_, ((find_registered_iff _ _).2 _ refused).2⟩
  · have registered : (empty.applyAll [.natives id]).register (tripled "triple") =
        .ok (empty.registerNatives.insert (tripled "triple")) := by cbv
    have apart : MadeApart (tripled "triple") [.function (tripled "TRIPLE"), secondNatives] := by
      intro identify made
      obtain rfl := eq_of_natives_mem [tripled "TRIPLE"] made
      decide
    refine ⟨_, registered, apart, ?_⟩
    refine (((find_registered_iff _ _).1 _ registered _ _ (by decide)).1 apart).mpr ?_
    intro identify made
    obtain rfl := eq_of_natives_mem [tripled "TRIPLE"] made
    decide
  · have registered : empty.register (.scalar (.abs "ABS")) =
        .ok (empty.insert (.scalar (.abs "ABS"))) := by cbv
    have apart : MadeApart (.scalar (.abs "ABS")) [secondNatives] := by
      intro identify made
      obtain rfl := eq_of_natives_mem [] made
      decide
    have isNative : Function.scalar (.abs "ABS-2") ∈ natives (· ++ "-2") := List.mem_cons_self
    obtain ⟨kept, replaced⟩ :=
      (find_registered_iff [] _).1 _ registered [secondNatives] "abs" (by decide)
    refine ⟨_, registered, apart, ?_, fun found => ?_⟩
    · exact replaced [] _ [] rfl (by simp) _ isNative (by decide)
    · exact (kept apart).mp found _ List.mem_cons_self _ isNative (by decide)

/-- A function with the name `abs` is registered in an empty catalog and gone when the native
functions are registered. -/
theorem registerNatives_replaces_abs :
    ∃ catalog, empty.register (tripled "abs") = .ok catalog ∧
      (catalog.apply (.natives id)).find "abs" = .ok (.scalar (.abs "ABS")) ∧
        (catalog.apply (.natives id)).find "abs" ≠ .ok (tripled "abs") := by
  have registered : empty.register (tripled "abs") = .ok (empty.insert (tripled "abs")) := by cbv
  have found : ((empty.insert (tripled "abs")).apply (.natives id)).find "abs" =
      .ok (.scalar (.abs "ABS")) := by cbv
  refine ⟨_, registered, found, fun kept => ?_⟩
  have same : Function.scalar (.abs "ABS") = tripled "abs" :=
    Except.ok.inj (found.symm.trans kept)
  exact absurd (congrArg Function.identity same) (by decide)

end Catalog

end Lateral
