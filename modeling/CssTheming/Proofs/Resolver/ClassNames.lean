import CssTheming.Proofs.Resolver.Consistent
import CssTheming.Proofs.Text.Lexeme
import Mathlib.Data.List.Forall2

/-!
# Lists of classes

The classes of a list are resolved one by one and independently of each other, whatever styles are
kept: a class that begins as context classes do becomes the class of the context that the rest of it
names, and every other class stays. The first class that cannot be resolved decides otherwise. That
a list without context classes is not split makes no difference.
-/

namespace CssTheming.Resolver

variable {r r' : Resolver} {name key start classes : String} {names rest : List String}
  {fault : Fault}

/-! ## Lists -/

theorem splitSpaces_eq (s : List Char) : splitSpaces s = s.splitOn ' ' := by
  induction s with
  | nil => rfl
  | cons c s ih =>
    rw [splitSpaces, List.splitOn_cons_eq_if_modifyHead, ih]
    by_cases hc : c = ' '
    · simp [hc]
    · obtain ⟨w, ws, hw⟩ := List.exists_cons_of_ne_nil (List.splitOn_ne_nil ' ' s)
      simp [hc, hw]

/-- The classes of a list, which stand between single spaces. -/
def listed (classes : String) : List String := (classes.toList.splitOn ' ').map String.ofList

theorem intercalate_listed (classes : String) : " ".intercalate (listed classes) = classes := by
  rw [← String.toList_inj, String.toList_intercalate, listed, List.map_map]
  have hid : String.toList ∘ String.ofList = id := funext fun s => String.toList_ofList
  rw [hid, List.map_id]
  exact List.intercalate_splitOn ' '

theorem infix_intercalate {c : Char} {w : List Char} {ws : List (List Char)} (h : w ∈ ws) :
    w <:+: [c].intercalate ws := by
  induction ws with
  | nil => cases h
  | cons v ws ih =>
    by_cases hws : ws = []
    · subst hws
      obtain rfl := List.mem_singleton.1 h
      exact ⟨[], [], by simp⟩
    · rw [List.intercalate_cons_of_ne_nil hws]
      rcases List.mem_cons.1 h with rfl | h
      · exact ⟨[], [c] ++ [c].intercalate ws, by simp⟩
      · exact (ih h).trans (List.suffix_append _ _).isInfix

/-- If the start does not occur in the list, no class of it begins so. -/
theorem stripStart?_of_not_contains (h : Text.contains classes start = false)
    (hname : name ∈ listed classes) : Text.stripStart? start name = none := by
  obtain ⟨w, hw, rfl⟩ := List.mem_map.1 hname
  have hinfix : w <:+: classes.toList := by
    have := infix_intercalate hw (c := ' ')
    rwa [List.intercalate_splitOn] at this
  obtain ⟨before, after, hclasses⟩ := hinfix
  cases hstrip : Text.stripStart? start (String.ofList w) with
  | none => rfl
  | some key =>
    have hw : w = start.toList ++ key.toList := by
      simpa using congrArg String.toList (Text.stripStart?_eq_some.1 hstrip)
    have hoccurs : Text.contains classes start = true :=
      Text.occursIn_iff.2 ⟨before, key.toList ++ after, by simp [← hclasses, hw]⟩
    rw [h] at hoccurs
    cases hoccurs

/-! ## Answers on the root -/

/-- The value of a key on the root, from the style that is kept or computed. -/
def rootValue? (r : Resolver) (key : String) : Option String :=
  r.valueIn (r.styleOf none).result key

theorem resolver_styleOf (r : Resolver) : (r.styleOf none).resolver =
    { r with cache := (r.styleOf none).resolver.cache } :=
  (looksUp_styleOf none).same

theorem property_root (r : Resolver) (key : String) :
    (r.property key none).result =
      if r.ready then
        match r.rootValue? key with
        | some value => .ok (some value)
        | none => .error (.unresolvable key none)
      else .ok none :=
  property_result key none

/-- Resolvers that answer alike on the root. -/
structure SameRoot (r r' : Resolver) : Prop where
  ready : r'.ready = r.ready
  options : r'.options = r.options
  value : ∀ key, r'.rootValue? key = r.rootValue? key

theorem SameRoot.property_result (h : SameRoot r r') (key : String) :
    (r'.property key none).result = (r.property key none).result := by
  rw [property_root, property_root, h.ready, h.value]

theorem SameRoot.contextClass_result (h : SameRoot r r') (key : String) :
    (r'.contextClass key none).result = (r.contextClass key none).result := by
  unfold Resolver.contextClass
  dsimp only
  rw [h.property_result, h.options]

theorem rootValue?_styleOf (r : Resolver) (key : String) :
    (r.styleOf none).resolver.rootValue? key = r.rootValue? key := by
  rw [rootValue?, styleOf_of_lookup (lookup_styleOf r none), resolver_styleOf]
  rfl

theorem SameRoot.contextClass (h : SameRoot r r') (key : String) :
    SameRoot r (r'.contextClass key none).resolver := by
  have hresolver : (r'.contextClass key none).resolver =
      if r'.ready then (r'.styleOf none).resolver else r' :=
    property_resolver key none
  rw [hresolver]
  split
  · refine ⟨?_, ?_, fun key => ?_⟩
    · rw [resolver_styleOf, h.ready]
    · rw [resolver_styleOf, h.options]
    · rw [rootValue?_styleOf, h.value]
  · exact h

/-! ## Classes -/

/-- What one class of a list answers. -/
def classAnswer (r : Resolver) (name : String) : Except Fault (Option String) :=
  match Text.stripStart? r.options.contextClassPrefix name with
  | none => .ok (some name)
  | some key => (r.contextClass key none).result

/-- What the classes of a list answer, up to the first that cannot be resolved. -/
def classAnswers (r : Resolver) : List String → Except Fault (Option (List String))
  | [] => .ok (some [])
  | name :: rest =>
    match r.classAnswer name with
    | .error fault => .error fault
    | .ok none => .ok none
    | .ok (some resolved) => (r.classAnswers rest).map fun names => names.map (resolved :: ·)

/-- No class changes what the classes behind it answer. -/
theorem SameRoot.resolveClasses_result (h : SameRoot r r') (names : List String) :
    (r'.resolveClasses names).result = r.classAnswers names := by
  induction names generalizing r' with
  | nil => rfl
  | cons name rest ih =>
    rw [resolveClasses, classAnswers, classAnswer, h.options]
    cases hstrip : Text.stripStart? r.options.contextClassPrefix name with
    | none =>
      dsimp only
      rw [ih h]
    | some key =>
      dsimp only
      rw [h.contextClass_result, ih (h.contextClass key)]
      cases (r.contextClass key none).result with
      | error fault => rfl
      | ok value => cases value <;> rfl

/-- Classes of which none stands for a context stay. -/
theorem classAnswers_of_kept
    (h : ∀ name ∈ names, Text.stripStart? r.options.contextClassPrefix name = none) :
    r.classAnswers names = .ok (some names) := by
  induction names with
  | nil => rfl
  | cons name rest ih =>
    obtain ⟨hname, hrest⟩ := List.forall_mem_cons.1 h
    rw [classAnswers, classAnswer, hname, ih hrest]
    rfl

/-- It makes no difference that lists without context classes are left alone. -/
theorem classNames_classAnswers (r : Resolver) (classes : String) :
    (r.classNames classes).result =
      (r.classAnswers (listed classes)).map fun names => names.map (" ".intercalate ·) := by
  unfold classNames
  split
  · have hroot : SameRoot r r := ⟨rfl, rfl, fun _ => rfl⟩
    dsimp only
    rw [splitSpaces_eq, hroot.resolveClasses_result]
    rfl
  · rename_i h
    have hnone : Text.contains classes r.options.contextClassPrefix = false := by
      simpa [hasContexts] using h
    rw [classAnswers_of_kept fun name hname => stripStart?_of_not_contains hnone hname]
    simp [Except.map, intercalate_listed]

/-- What a class of a list becomes: the class of the context that the rest of it names if it begins
as context classes do, and itself otherwise. -/
inductive Resolves (r : Resolver) : String → String → Prop
  | kept {name : String} (h : Text.startsWith name r.options.contextClassPrefix = false) :
      Resolves r name name
  | resolved {key value : String} (h : (r.property key none).result = .ok (some value)) :
      Resolves r (r.options.contextClassPrefix ++ key)
        (ContextClass.name r.options.contextClassPrefix value)

/-- The fault of a class of a list that begins as context classes do and cannot be resolved. -/
def classFault? (r : Resolver) (name : String) : Option Fault :=
  (Text.stripStart? r.options.contextClassPrefix name).bind fun key =>
    fault? (r.property key none).result

theorem startsWith_eq_isSome (name start : String) :
    Text.startsWith name start = (Text.stripStart? start name).isSome := by
  rw [Text.startsWith, Text.stripStart?, Option.isSome_map, Bool.eq_iff_iff,
    List.isPrefixOf_iff_prefix, Option.isSome_iff_exists]
  simp only [List.isPrefixOf?_eq_some_iff_append_eq]
  rfl

theorem classAnswer_of_kept (h : Text.startsWith name r.options.contextClassPrefix = false) :
    r.classAnswer name = .ok (some name) := by
  rw [startsWith_eq_isSome, Option.isSome_eq_false_iff, Option.isNone_iff_eq_none] at h
  rw [classAnswer, h]

theorem classAnswer_of_context (r : Resolver) (key : String) :
    r.classAnswer (r.options.contextClassPrefix ++ key) =
      (r.property key none).result.map fun value =>
        value.map (ContextClass.name r.options.contextClassPrefix) := by
  rw [classAnswer, Text.stripStart?_eq_some.2 rfl]
  rfl

/-- A class stays, or begins as context classes do. -/
theorem kept_or_context (r : Resolver) (name : String) :
    Text.startsWith name r.options.contextClassPrefix = false ∨
      ∃ key, name = r.options.contextClassPrefix ++ key := by
  cases h : Text.stripStart? r.options.contextClassPrefix name with
  | none => exact .inl (by rw [startsWith_eq_isSome, h, Option.isSome_none])
  | some key => exact .inr ⟨key, Text.stripStart?_eq_some.1 h⟩

theorem classAnswer_eq_some_iff {resolved : String} :
    r.classAnswer name = .ok (some resolved) ↔ r.Resolves name resolved := by
  constructor
  · intro h
    rcases kept_or_context r name with hname | ⟨key, rfl⟩
    · rw [classAnswer_of_kept hname] at h
      obtain rfl : name = resolved := by simpa using h
      exact .kept hname
    · rw [classAnswer_of_context, map_eq_ok] at h
      obtain ⟨value?, hvalue, hresolved⟩ := h
      obtain ⟨value, rfl, rfl⟩ := Option.map_eq_some_iff.1 hresolved
      exact .resolved hvalue
  · intro h
    cases h with
    | kept h => exact classAnswer_of_kept h
    | resolved h => rw [classAnswer_of_context, h]; rfl

theorem classAnswers_eq_some_iff {resolved : List String} :
    r.classAnswers names = .ok (some resolved) ↔ List.Forall₂ r.Resolves names resolved := by
  induction names generalizing resolved with
  | nil => simp [classAnswers, List.forall₂_nil_left_iff, eq_comm]
  | cons name rest ih =>
    rw [List.forall₂_cons_left_iff, classAnswers]
    simp only [← ih, ← classAnswer_eq_some_iff]
    cases r.classAnswer name with
    | error fault => simp
    | ok value =>
      cases value with
      | none => simp
      | some c =>
        cases r.classAnswers rest with
        | error fault => simp [Except.map]
        | ok names =>
          cases names <;> simp [Except.map, eq_comm]

/-- While the resolver is not ready, a class that begins as context classes do leaves all open. -/
theorem classAnswers_of_not_ready (h : r.ready = false) (names : List String) :
    r.classAnswers names =
      if names.any (Text.startsWith · r.options.contextClassPrefix) then .ok none
      else .ok (some names) := by
  induction names with
  | nil => rfl
  | cons name rest ih =>
    rw [classAnswers, ih, List.any_cons]
    rcases kept_or_context r name with hname | ⟨key, rfl⟩
    · rw [classAnswer_of_kept hname, hname, Bool.false_or]
      cases rest.any (Text.startsWith · r.options.contextClassPrefix) <;> rfl
    · have hstarts : Text.startsWith (r.options.contextClassPrefix ++ key)
          r.options.contextClassPrefix = true := by
        rw [startsWith_eq_isSome, Text.stripStart?_eq_some.2 rfl, Option.isSome_some]
      rw [classAnswer_of_context, property_root, h, hstarts]
      rfl

theorem fault?_classAnswer (r : Resolver) (name : String) :
    fault? (r.classAnswer name) = r.classFault? name := by
  rw [classAnswer, classFault?]
  split
  · rename_i hstrip
    rw [hstrip]
    rfl
  · rename_i key hstrip
    rw [hstrip]
    exact fault?_map _ _

theorem classAnswer_ne_none (h : r.ready = true) (name : String) :
    r.classAnswer name ≠ .ok none := by
  rcases kept_or_context r name with hname | ⟨key, rfl⟩
  · rw [classAnswer_of_kept hname]
    simp
  · rw [classAnswer_of_context, property_root, h]
    cases r.rootValue? key <;> simp [Except.map]

theorem classAnswers_ne_none (h : r.ready = true) (names : List String) :
    r.classAnswers names ≠ .ok none := by
  induction names with
  | nil => simp [classAnswers]
  | cons name rest ih =>
    have hname := classAnswer_ne_none h name
    rw [classAnswers]
    cases hanswer : r.classAnswer name with
    | error fault => simp
    | ok value =>
      cases value with
      | none => exact absurd hanswer hname
      | some c =>
        intro hnone
        obtain ⟨names, hrest, hmap⟩ := map_eq_ok.1 hnone
        rw [Option.map_eq_none_iff.1 hmap] at hrest
        exact ih hrest

/-- While the resolver is ready, the first class that cannot be resolved is told. -/
theorem classAnswers_eq_error_iff (h : r.ready = true) :
    r.classAnswers names = .error fault ↔ names.findSome? r.classFault? = some fault := by
  induction names with
  | nil => simp [classAnswers]
  | cons name rest ih =>
    have hname := classAnswer_ne_none h name
    rw [classAnswers, List.findSome?_cons, ← fault?_classAnswer]
    cases hanswer : r.classAnswer name with
    | error fault' => simp [fault?]
    | ok value =>
      cases value with
      | none => exact absurd hanswer hname
      | some c =>
        rw [← fault?_eq_some, fault?_map, fault?_eq_some, ih]
        rfl

/-- A list of classes is split at every single space, each class that begins as context classes do
becomes the class of the context that the rest of it names, every other class stays in its place,
and the classes are joined again. There is no answer exactly if the resolver is not ready and some
class begins as context classes do, and the fault is that of the first such class that a ready
resolver cannot resolve. A list in which the start of context classes does not occur stays. -/
theorem classNames_resolves (r : Resolver) (classes : String) :
    let names := (classes.toList.splitOn ' ').map String.ofList
    (∀ text, (r.classNames classes).result = .ok (some text) ↔
      ∃ resolved, List.Forall₂ r.Resolves names resolved ∧ " ".intercalate resolved = text) ∧
    ((r.classNames classes).result = .ok none ↔
      r.ready = false ∧ ∃ name ∈ names, Text.startsWith name r.options.contextClassPrefix = true) ∧
    (∀ fault, (r.classNames classes).result = .error fault ↔
      r.ready = true ∧ names.findSome? r.classFault? = some fault) ∧
    (r.hasContexts classes = false → (r.classNames classes).result = .ok (some classes)) := by
  intro names
  have hanswers : (r.classNames classes).result =
      (r.classAnswers names).map fun names => names.map (" ".intercalate ·) :=
    classNames_classAnswers r classes
  refine ⟨fun text => ?_, ?_, fun fault => ?_, fun h => ?_⟩
  · rw [hanswers, map_eq_ok]
    simp only [Option.map_eq_some_iff, ← classAnswers_eq_some_iff]
    constructor
    · rintro ⟨_, hresolved, resolved, rfl, htext⟩
      exact ⟨resolved, hresolved, htext⟩
    · rintro ⟨resolved, hresolved, htext⟩
      exact ⟨some resolved, hresolved, resolved, rfl, htext⟩
  · have hnone : (r.classNames classes).result = .ok none ↔ r.classAnswers names = .ok none := by
      rw [hanswers, map_eq_ok]
      simp
    rw [hnone]
    cases hready : r.ready with
    | true => simp [classAnswers_ne_none hready]
    | false =>
      rw [classAnswers_of_not_ready hready, ← List.any_eq_true]
      split <;> simp_all
  · rw [hanswers, ← fault?_eq_some, fault?_map, fault?_eq_some]
    cases hready : r.ready with
    | true => simp [classAnswers_eq_error_iff hready]
    | false =>
      rw [classAnswers_of_not_ready hready]
      split <;> simp
  · rw [classNames, h]
    rfl

/-- One theme, in which a button stands in the context of light. -/
def lightButton : Resolver :=
  (create (Host.empty.register "/light.css" (.css ":root \x7b --makeup-button: light; \x7d"))
    [⟨"light", "/light.css"⟩] {}).after [.setTheme "light"]

theorem classNames_resolves_lightButton :
    lightButton.ready = true ∧ lightButton.hasContexts "a  b" = false ∧
      (lightButton.classNames "a  b").result = .ok (some "a  b") ∧
      (lightButton.classNames "a  makeup/context/button b/makeup/context/b").result =
        .ok (some "a  makeup/context/light b/makeup/context/b") ∧
      (lightButton.classNames "makeup/context/button makeup/context/x makeup/context/y").result =
        .error (.unresolvable "x" none) := by
  refine ⟨by decide +kernel, by decide +kernel, ?_, ?_, ?_⟩
  · exact (classNames_resolves lightButton "a  b").2.2.2 (by decide +kernel)
  · have hnames : ("a  makeup/context/button b/makeup/context/b".toList.splitOn ' ').map
        String.ofList = ["a", "", "makeup/context/button", "b/makeup/context/b"] := by
      decide +kernel
    have hvalue : (lightButton.property "button" none).result = .ok (some "light") := by
      decide +kernel
    have hbutton : lightButton.Resolves "makeup/context/button" "makeup/context/light" := by
      have h := Resolves.resolved hvalue
      rwa [show lightButton.options.contextClassPrefix = "makeup/context/" by decide +kernel] at h
    refine ((classNames_resolves lightButton _).1 _).2 ⟨["a", "", "makeup/context/light",
      "b/makeup/context/b"], ?_, by decide +kernel⟩
    rw [hnames]
    exact .cons (.kept (by decide +kernel)) (.cons (.kept (by decide +kernel))
      (.cons hbutton (.cons (.kept (by decide +kernel)) .nil)))
  · exact ((classNames_resolves lightButton _).2.2.1 _).2 ⟨by decide +kernel, by decide +kernel⟩

end CssTheming.Resolver
