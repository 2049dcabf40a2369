import CssTheming.Proofs.Fallback.Rules
import Mathlib.Data.List.MinMax
import Mathlib.Data.Set.Basic

/-!
# Which fallback declaration comes last

Rules stand in the order in which their selectors came up first, whatever their declarations are. So
of several rules for one element the one that came up last has the last declaration, which need not
be the one of the last usage.
-/

namespace CssTheming.Fallback

variable {t : Theme} {es : List Entry} {p : String} {S : Set String} [DecidablePred (· ∈ S)]

/-- The values of a property in the rules whose selectors are in a set, in document order. -/
def declaredIn (S : Set String) [DecidablePred (· ∈ S)] (p : String) (blocks : List Block) :
    List String :=
  (blocks.filter (·.selector ∈ S)).flatMap fun b =>
    (b.declarations.filter (·.1 = p)).map (·.2)

/-- The last value that entries set for a property in the rule of a selector. -/
def lastValue? (es : List Entry) (p selector : String) : Option String :=
  (((es.filter (·.selector = selector)).filter (·.property = p)).map (·.value)).getLast?

theorem lastValue?_eq_none_iff {selector : String} : lastValue? es p selector = none ↔
    ∀ e ∈ es, e.property = p → e.selector ≠ selector := by
  simp [lastValue?]

theorem lastValue?_append_cons {front back : List Entry} {e : Entry}
    (hp : e.property = p) (h : ∀ f ∈ back, f.property = p → f.selector ≠ e.selector) :
    lastValue? (front ++ e :: back) p e.selector = some e.value := by
  have hback : (back.filter (·.selector = e.selector)).filter (·.property = p) = [] := by
    refine List.filter_eq_nil_iff.2 fun f hf hproperty => ?_
    obtain ⟨hf, hselector⟩ := List.mem_filter.1 hf
    exact h f hf (of_decide_eq_true hproperty) (of_decide_eq_true hselector)
  simp [lastValue?, hp, hback]

/-! ## Declared values -/

theorem filter_eq_of_nodup {κ : Type} [DecidableEq κ] {l : List κ} (h : l.Nodup) (a : κ) :
    l.filter (· = a) = if a ∈ l then [a] else [] := by
  have hfilter : l.filter (· = a) = List.replicate (l.count a) a := List.filter_beq a
  rw [hfilter, h.count]
  split <;> rfl

/-- A rule declares each of its properties once, with the last value set for it. -/
theorem declared_declarationsOf (es : List Entry) (p : String) :
    ((declarationsOf es).filter (·.1 = p)).map (·.2) =
      (((es.filter (·.property = p)).map (·.value)).getLast?).toList := by
  have hfilter : ∀ f : String → String, ((es.map (·.property)).eraseDups.map fun q =>
      (q, f q)).filter (·.1 = p) = ((es.map (·.property)).eraseDups.filter (· = p)).map
        fun q => (q, f q) := fun f => List.filter_map
  rw [declarationsOf, hfilter, filter_eq_of_nodup (nodup_eraseDups _)]
  simp only [List.mem_eraseDups]
  split
  · rename_i hp
    obtain ⟨e, he, hep⟩ := List.mem_map.1 hp
    have hne : (es.filter (·.property = p)).map (·.value) ≠ [] :=
      List.ne_nil_of_mem (List.mem_map_of_mem (List.mem_filter.2 ⟨he, decide_eq_true hep⟩))
    obtain ⟨v, hv⟩ := Option.ne_none_iff_exists'.1 (mt List.getLast?_eq_none_iff.1 hne)
    rw [List.map_singleton, List.map_singleton, List.getLastD_eq_getLast?, hv]
    rfl
  · rename_i hp
    have hnil : es.filter (·.property = p) = [] := by
      refine List.filter_eq_nil_iff.2 fun e he hep => hp ?_
      exact List.mem_map.2 ⟨e, he, of_decide_eq_true hep⟩
    simp [hnil]

theorem declaredIn_collect (S : Set String) [DecidablePred (· ∈ S)] (p : String)
    (es : List Entry) :
    declaredIn S p (collect es) =
      ((es.map (·.selector)).eraseDups.filter (· ∈ S)).filterMap (lastValue? es p) := by
  rw [declaredIn, collect_eq, List.filter_map, List.flatMap_map, List.filterMap_eq_flatMap_toList]
  simp only [declared_declarationsOf]
  rfl

theorem declaredIn_collect_eq_nil_iff : declaredIn S p (collect es) = [] ↔
    ∀ e ∈ es, e.property = p → e.selector ∉ S := by
  rw [declaredIn_collect, List.filterMap_eq_nil_iff]
  simp only [lastValue?_eq_none_iff, List.mem_filter, List.mem_eraseDups, decide_eq_true_iff]
  constructor
  · intro h e he hp hS
    exact h e.selector ⟨List.mem_map_of_mem he, hS⟩ e he hp rfl
  · rintro h _ ⟨-, hS⟩ e he hp rfl
    exact h e he hp hS

/-- Of the rules in a set with a property, the one that came up last has the last value. -/
theorem getLast?_declaredIn_collect {front back : List Entry} {e : Entry} (hp : e.property = p)
    (he : e.selector ∈ S) (hes : es = front ++ e :: back)
    (hback : ∀ f ∈ back, f.property = p → f.selector ≠ e.selector)
    (hlatest : ∀ f ∈ es, f.property = p → f.selector ∈ S →
      (es.map (·.selector)).idxOf f.selector ≤ (es.map (·.selector)).idxOf e.selector) :
    (declaredIn S p (collect es)).getLast? = some e.value := by
  have hmem : e.selector ∈ (es.map (·.selector)).eraseDups := by
    rw [List.mem_eraseDups, hes]
    simp
  have horder := pairwise_idxOf_eraseDups (es.map (·.selector))
  rw [declaredIn_collect]
  obtain ⟨before, after, hsplit⟩ := List.append_of_mem hmem
  rw [hsplit] at horder ⊢
  -- A rule behind this one came up later, so it does not have the property.
  have hafter : (after.filter (· ∈ S)).filterMap (lastValue? es p) = [] := by
    refine List.filterMap_eq_nil_iff.2 fun selector hselector => ?_
    obtain ⟨hselector, hS⟩ := List.mem_filter.1 hselector
    refine lastValue?_eq_none_iff.2 fun f hf hfp hfs => ?_
    obtain rfl : f.selector = selector := hfs
    have hlater := (List.pairwise_cons.1 (List.pairwise_append.1 horder).2.1).1 _ hselector
    exact Nat.lt_irrefl _ (Nat.lt_of_lt_of_le hlater (hlatest f hf hfp (of_decide_eq_true hS)))
  have hvalue : lastValue? es p e.selector = some e.value := by
    rw [hes]
    exact lastValue?_append_cons hp hback
  rw [List.filter_append, List.filter_cons, if_pos (decide_eq_true he), List.filterMap_append,
    List.filterMap_cons_some hvalue, hafter, List.getLast?_concat]

/-! ## The usage that decides -/

/-- The last usage of a property with its selector list, where that list is in a set and no list in
the set that comes with the property came up later. -/
structure Decisive (us : List SchemaUsage) (S : Set String) (p : String) (u : SchemaUsage) :
    Prop where
  property : u.property = p
  list_mem : listOf u ∈ S
  last : ∃ front back, us = front ++ u :: back ∧ ∀ v ∈ back, v.property = p → listOf v ≠ listOf u
  latest : ∀ v ∈ us, v.property = p → listOf v ∈ S →
    (us.map listOf).idxOf (listOf v) ≤ (us.map listOf).idxOf (listOf u)

theorem exists_last_of_mem {α : Type} {P : α → Prop} [DecidablePred P] {l : List α} {a : α}
    (ha : a ∈ l) (hP : P a) : ∃ front b back, l = front ++ b :: back ∧ P b ∧ ∀ c ∈ back, ¬P c := by
  have hfind : (l.reverse.find? (P ·)).isSome := by
    rw [List.find?_isSome]
    exact ⟨a, List.mem_reverse.2 ha, decide_eq_true hP⟩
  obtain ⟨b, hb⟩ := Option.isSome_iff_exists.1 hfind
  obtain ⟨hP, after, before, hl, hafter⟩ := List.find?_eq_some_iff_append.1 hb
  refine ⟨before.reverse, b, after.reverse, ?_, of_decide_eq_true hP, fun c hc => ?_⟩
  · rw [← List.reverse_reverse l, hl]
    simp
  · simpa using hafter c (List.mem_reverse.1 hc)

theorem exists_decisive {us : List SchemaUsage} {u : SchemaUsage} (hu : u ∈ us)
    (hproperty : u.property = p) (hS : listOf u ∈ S) : ∃ u, Decisive us S p u := by
  let candidates := us.filter fun v => v.property = p ∧ listOf v ∈ S
  let age := fun v => (us.map listOf).idxOf (listOf v)
  have hmem : ∀ v ∈ us, v.property = p → listOf v ∈ S → v ∈ candidates :=
    fun v hv hp hlist => List.mem_filter.2 ⟨hv, decide_eq_true ⟨hp, hlist⟩⟩
  obtain ⟨w, hw⟩ := Option.ne_none_iff_exists'.1
    (mt List.argmax_eq_none.1 (List.ne_nil_of_mem (hmem u hu hproperty hS)) :
      candidates.argmax age ≠ none)
  obtain ⟨hwus, hwp⟩ := List.mem_filter.1 (List.argmax_mem hw)
  obtain ⟨hwproperty, hwS⟩ := of_decide_eq_true hwp
  obtain ⟨front, x, back, hus, ⟨hx, hlist⟩, hback⟩ :=
    exists_last_of_mem (P := fun v => v.property = p ∧ listOf v = listOf w) hwus ⟨hwproperty, rfl⟩
  refine ⟨x, hx, hlist ▸ hwS, ⟨front, back, hus, fun v hv hp heq => ?_⟩, fun v hv hp hlistv => ?_⟩
  · exact hback v hv ⟨hp, heq.trans hlist⟩
  · rw [hlist]
    exact List.le_of_mem_argmax (hmem v hv hp hlistv) hw

/-- Plain usages always have a fallback stylesheet. In it a set of rules has the last declaration of
a property from the rule whose selectors came up last, with the value of the last usage with these
selectors. -/
theorem exists_css_of_isPlain {us : List SchemaUsage} (options : Options)
    (hplain : ∀ u ∈ us, isPlain t u = true) :
    ∃ blocks, rules t us options.contextClassPrefix = .ok blocks ∧
      css t us options = .ok (sheetOf blocks).css ∧
      ∀ (p : String) (S : Set String) [DecidablePred (· ∈ S)],
        (declaredIn S p blocks = [] ↔ ∀ u ∈ us, u.property = p → listOf u ∉ S) ∧
        ((∃ u ∈ us, u.property = p ∧ listOf u ∈ S) → ∃ u, Decisive us S p u) ∧
        ∀ u, Decisive us S p u → ∃ value, resolve t none (listOf u) u = .ok value ∧
          (declaredIn S p blocks).getLast? = some value := by
  have hall : us.filter (isPlain t) = us := List.filter_eq_self.2 hplain
  have hnone : us.filter (!isPlain t ·) = [] := by
    simpa [List.filter_eq_nil_iff] using hplain
  have hrules : rules t us options.contextClassPrefix = .ok (collect (us.map (plainEntry t))) := by
    refine rules_eq_ok_iff.2 ⟨fun u hu hother => ?_, ?_⟩
    · rw [hplain u hu] at hother
      cases hother
    · have hscoped : scopedEntries t options.contextClassPrefix [] t.contexts = [] :=
        List.flatMap_eq_nil_iff.2 fun _ _ => rfl
      rw [hnone, plainEntries, hall, hscoped]
      exact List.append_nil _
  have hlists : (us.map (plainEntry t)).map (·.selector) = us.map listOf := by
    rw [List.map_map]
    rfl
  refine ⟨_, hrules, css_eq_ok_iff.2 ⟨_, hrules, rfl⟩, fun p S _ => ⟨?_, ?_, fun u hu => ?_⟩⟩
  · rw [declaredIn_collect_eq_nil_iff, List.forall_mem_map]
    rfl
  · rintro ⟨u, hu, hproperty, hS⟩
    exact exists_decisive hu hproperty hS
  · obtain ⟨front, back, hus, hback⟩ := hu.last
    have hmem : u ∈ us := by simp [hus]
    refine ⟨valueOf t none u, resolve_eq_ok_iff.2 ⟨resolvable_of_isPlain (hplain u hmem), rfl⟩, ?_⟩
    have hentries : us.map (plainEntry t) =
        front.map (plainEntry t) ++ plainEntry t u :: back.map (plainEntry t) := by
      rw [hus, List.map_append, List.map_cons]
    refine getLast?_declaredIn_collect (e := plainEntry t u) hu.property hu.list_mem hentries ?_ ?_
    · rw [List.forall_mem_map]
      exact hback
    · rw [hlists, List.forall_mem_map]
      exact hu.latest

/-- Three usages, the first and the last of them under one selector: the one in between decides. -/
theorem exists_css_of_isPlain_between :
    let t := ((Theme.empty.insert "x" none (.text "red")).insert "y" none (.text "green")).insert
      "z" none (.text "blue")
    let use := fun selector key => (⟨[selector], "color", "var(--makeup-" ++ key ++ ")",
      [.call "var" "" "" [.word ("--makeup-" ++ key)] (some key)]⟩ : SchemaUsage)
    let us := [use ".a" "x", use ".b" "y", use ".a" "z"]
    let S : Set String := {list | list = ".a" ∨ list = ".b"}
    (∀ u ∈ us, isPlain t u = true) ∧ Decisive us S "color" (use ".b" "y") ∧
      ∃ blocks, rules t us "makeup/context/" = .ok blocks ∧
        (declaredIn S "color" blocks).getLast? = some "green" := by
  intro t use us S
  have hplain : ∀ u ∈ us, isPlain t u = true := List.all_eq_true.1 (by decide +kernel)
  have hdecisive : Decisive us S "color" (use ".b" "y") := by
    refine ⟨rfl, .inr rfl, ⟨[use ".a" "x"], [use ".a" "z"], rfl, ?_⟩, ?_⟩
    · simp only [List.forall_mem_singleton]
      decide
    · simp only [us, List.forall_mem_cons]
      decide +kernel
  obtain ⟨blocks, hrules, -, hdeclared⟩ := exists_css_of_isPlain {} hplain
  obtain ⟨-, -, hlast⟩ := hdeclared "color" S
  obtain ⟨value, hvalue, hlast⟩ := hlast _ hdecisive
  obtain rfl : "green" = value := Except.ok.inj ((by decide +kernel :
    resolve t none (listOf (use ".b" "y")) (use ".b" "y") = .ok "green").symm.trans hvalue)
  exact ⟨hplain, hdecisive, blocks, hrules, hlast⟩

/-- In a compiled stylesheet the last color for an element with both classes is blue. In its
fallback it is green. -/
theorem declaredIn_regrouped :
    let css := ".a\x7bcolor:var(--makeup-x)\x7d.b\x7bcolor:var(--makeup-y)\x7d" ++
      ".a\x7bcolor:var(--makeup-z)\x7d"
    let t := ((Theme.empty.insert "x" none (.text "red")).insert "y" none (.text "green")).insert
      "z" none (.text "blue")
    let us := ((Schema.extract css "a.css" "makeup-").toOption.getD ⟨"", []⟩).usages
    let S : Set String := {list | list = ".a" ∨ list = ".b"}
    (∀ u ∈ us, isPlain t u = true) ∧ us.map listOf = [".a", ".b", ".a"] ∧
      us.map (·.property) = ["color", "color", "color"] ∧
      us.map (fun u => resolve t none (listOf u) u) = [.ok "red", .ok "green", .ok "blue"] ∧
      ∃ blocks, rules t us "makeup/context/" = .ok blocks ∧
        declaredIn S "color" blocks = ["blue", "green"] := by
  intro css t us S
  obtain ⟨hplain, hlists, hproperties, hvalues, hrules⟩ : us.all (isPlain t) = true ∧
      us.map listOf = [".a", ".b", ".a"] ∧ us.map (·.property) = ["color", "color", "color"] ∧
      us.map (fun u => resolve t none (listOf u) u) = [.ok "red", .ok "green", .ok "blue"] ∧
      rules t us "makeup/context/" =
        .ok [⟨".a", [("color", "blue")]⟩, ⟨".b", [("color", "green")]⟩] := by
    decide +kernel
  exact ⟨List.all_eq_true.1 hplain, hlists, hproperties, hvalues, _, hrules, by decide +kernel⟩

end CssTheming.Fallback
