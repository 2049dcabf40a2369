import CssTheming.Proofs.ContextClass
import CssTheming.Proofs.Fallback.Nesting
import CssTheming.Proofs.Value.Frame

/-!
# What a fallback holds

The rules of a fallback in order: one for each selector list of the plain usages, and then, context
by context, one for each selector of the others. A rule has the properties of its usages in the
order in which they came up first, each with the value of the last usage that has it. This value is
the one of the usage with a literal in the place of each reference.
-/

namespace CssTheming.Fallback

open Value

variable {t : Theme} {context : Option String} {us : List SchemaUsage} {blocks : List Block}

/-! ## Values -/

mutual
/-- The references in a node that are not inside of another one. -/
def referencesIn : Node → List Node
  | .call name before after args (some key) => [.call name before after args (some key)]
  | .call _ _ _ args none => references args
  | _ => []

def references : List Node → List Node
  | [] => []
  | n :: ns => referencesIn n ++ references ns
end

/-- The literal that a reference stands for. -/
def referred (t : Theme) (context : Option String) (n : Node) : String :=
  literalText t context (n.key?.getD "")

mutual
theorem exists_frame_node : ∀ (n : Node) (behind : Frame), ∃ f : Frame,
    f.rest.length = (referencesIn n).length + behind.rest.length ∧
    (∀ inserts, f.fill ((referencesIn n).map Node.text ++ inserts) =
      n.text ++ behind.fill inserts) ∧
    ∀ t context inserts, f.fill ((referencesIn n).map (referred t context) ++ inserts) =
      (substituteNode t context n).text ++ behind.fill inserts
  | .call name before after args (some key), behind =>
    ⟨behind.gap, Nat.add_comm _ _, fun inserts => Frame.fill_gap behind _ inserts,
      fun _ _ inserts => Frame.fill_gap behind _ inserts⟩
  | .call name before after args none, behind => by
    obtain ⟨f, hlength, htext, hvalue⟩ := exists_frame_nodes args (behind.push (after ++ ")"))
    refine ⟨f.push (name ++ "(" ++ before), hlength, fun inserts => ?_, fun t context inserts => ?_⟩
    · rw [referencesIn, Frame.fill_push, htext, Frame.fill_push, Node.text]
      simp only [String.append_assoc]
    · rw [referencesIn, Frame.fill_push, hvalue, Frame.fill_push, substituteNode, Node.text]
      simp only [String.append_assoc]
  | .word v, behind | .string v _, behind | .divider v _ _, behind | .space v, behind
  | .comment v, behind =>
    ⟨behind.push _, (Nat.zero_add _).symm, fun _ => Frame.fill_push _ _ _,
      fun _ _ _ => Frame.fill_push _ _ _⟩

/-- Resolving a value changes nothing around its references. -/
theorem exists_frame_nodes : ∀ (ns : List Node) (behind : Frame), ∃ f : Frame,
    f.rest.length = (references ns).length + behind.rest.length ∧
    (∀ inserts, f.fill ((references ns).map Node.text ++ inserts) =
      text ns ++ behind.fill inserts) ∧
    ∀ t context inserts, f.fill ((references ns).map (referred t context) ++ inserts) =
      text (substitute t context ns) ++ behind.fill inserts
  | [], behind => ⟨behind, (Nat.zero_add _).symm, fun _ => String.empty_append.symm,
      fun _ _ _ => String.empty_append.symm⟩
  | n :: ns, behind => by
    obtain ⟨f, hlength, htext, hvalue⟩ := exists_frame_nodes ns behind
    obtain ⟨f', hlength', htext', hvalue'⟩ := exists_frame_node n f
    refine ⟨f', ?_, fun inserts => ?_, fun t context inserts => ?_⟩
    · rw [hlength', hlength, references, List.length_append, Nat.add_assoc]
    · rw [references, List.map_append, List.append_assoc, htext', htext, text, String.append_assoc]
    · rw [references, List.map_append, List.append_assoc, hvalue', hvalue, substitute, text,
        String.append_assoc]
end

/-- The value of a usage is its text with literals in the places of its references. -/
theorem exists_frame_valueOf (u : SchemaUsage) : ∃ f : Frame,
    f.rest.length = (references u.tokens).length ∧
    text u.tokens = f.fill ((references u.tokens).map Node.text) ∧
    ∀ t context, valueOf t context u = f.fill ((references u.tokens).map (referred t context)) := by
  obtain ⟨f, hlength, htext, hvalue⟩ := exists_frame_nodes u.tokens ⟨"", []⟩
  refine ⟨f, hlength, ?_, fun t context => ?_⟩
  · simpa [Frame.fill] using (htext []).symm
  · simpa [Frame.fill, valueOf] using (hvalue t context []).symm

/-! ## Declarations -/

/-- Each property of some usages once, where it came up first, with the value of the last usage that
has it. -/
def declarationsFor (t : Theme) (context : Option String) (us : List SchemaUsage) :
    List (String × String) :=
  (us.map (·.property)).eraseDups.map fun p =>
    (p, ((us.filter (·.property = p)).map (valueOf t context)).getLastD "")

theorem declarationsOf_map {entry : SchemaUsage → Entry}
    (hproperty : ∀ u, (entry u).property = u.property)
    (hvalue : ∀ u, (entry u).value = valueOf t context u) :
    declarationsOf (us.map entry) = declarationsFor t context us := by
  simp only [declarationsOf, declarationsFor, List.map_map, List.filter_map, Function.comp_def,
    hproperty, hvalue]

theorem setDeclaration_setDeclaration (property value : String) (ds : List (String × String)) :
    setDeclaration property value (setDeclaration property value ds) =
      setDeclaration property value ds := by
  induction ds with
  | nil => simp [setDeclaration]
  | cons d ds ih => by_cases h : d.1 = property <;> simp [setDeclaration, h, ih]

/-- A declaration that is repeated on the spot counts once. -/
theorem declarationsOf_flatMap_replicate {α : Type} (entry : α → Entry) (n : α → Nat)
    (as : List α) : declarationsOf (as.flatMap fun a => List.replicate (n a) (entry a)) =
      declarationsOf ((as.filter (0 < n ·)).map entry) := by
  have hreplicate (k : Nat) (e : Entry) (ds : List (String × String)) :
      (List.replicate k e).foldl (fun ds e => setDeclaration e.property e.value ds) ds =
        if 0 < k then setDeclaration e.property e.value ds else ds := by
    induction k generalizing ds with
    | zero => rfl
    | succ k ih =>
      rw [List.replicate_succ, List.foldl_cons, ih, setDeclaration_setDeclaration]
      simp
  simp only [← foldl_setDeclaration, List.foldl_flatMap, List.foldl_map, List.foldl_filter,
    hreplicate, decide_eq_true_eq]

/-! ## Rules -/

/-- A rule for each selector list of some usages, in the order in which the lists came up first. -/
def listRules (t : Theme) (us : List SchemaUsage) : List Block :=
  (us.map listOf).eraseDups.map fun list =>
    ⟨list, declarationsFor t none (us.filter (listOf · = list))⟩

/-- A rule below the class of a context for each selector of some usages, in the order in which the
selectors came up first. -/
def contextRules (t : Theme) (contextClassPrefix : String) (us : List SchemaUsage) (c : String) :
    List Block :=
  (us.flatMap (·.selectors)).eraseDups.map fun selector =>
    ⟨ContextClass.selector contextClassPrefix c ++ " " ++ selector,
      declarationsFor t (some c) (us.filter (selector ∈ ·.selectors))⟩

theorem collect_plainEntries : collect (plainEntries t us) = listRules t (us.filter (isPlain t)) := by
  rw [collect_eq, plainEntries, List.map_map]
  refine List.map_congr_left fun list _ => ?_
  rw [List.filter_map]
  exact congrArg (Block.mk list) (declarationsOf_map (fun _ => rfl) fun _ => rfl)

/-- In one context each selector has a rule with the usages that have the selector. -/
theorem collect_entriesIn {contextClassPrefix c : String} :
    collect (entriesIn t c (ContextClass.selector contextClassPrefix c) us) =
      contextRules t contextClassPrefix us c := by
  generalize hmarker : ContextClass.selector contextClassPrefix c = marker
  have hinj : Function.Injective (marker ++ " " ++ ·) := fun _ _ => Table.append_inj_right
  have hselectors : (entriesIn t c marker us).map (·.selector) =
      (us.flatMap (·.selectors)).map (marker ++ " " ++ ·) := by
    simp [entriesIn, List.map_flatMap, scopedEntry, Function.comp_def]
  rw [collect_eq, hselectors, eraseDups_map_of_injective hinj, List.map_map, contextRules, hmarker]
  refine List.map_congr_left fun selector _ => ?_
  -- A usage has as many entries for a selector as it names the selector.
  have hfilter : (entriesIn t c marker us).filter (·.selector = marker ++ " " ++ selector) =
      us.flatMap fun u => List.replicate (u.selectors.count selector)
        (scopedEntry t c marker u selector) := by
    rw [entriesIn, List.filter_flatMap]
    congr 1
    funext u
    rw [List.filter_map, List.filter_congr (q := (· == selector)), List.filter_beq,
      List.map_replicate]
    intro own _
    simp [scopedEntry, hinj.eq_iff, beq_eq_decide]
  rw [Function.comp_apply, hfilter, declarationsOf_flatMap_replicate,
    declarationsOf_map (fun _ => rfl) fun _ => rfl]
  simp only [List.count_pos_iff]

/-- The contexts come one after the other, as long as their classes differ. -/
theorem collect_scopedEntries {contextClassPrefix : String} {contexts : List String}
    (hcontexts : (contexts.map ContextClass.legibleName).Nodup) :
    collect (scopedEntries t contextClassPrefix us contexts) =
      contexts.flatMap (contextRules t contextClassPrefix us) := by
  induction contexts with
  | nil => rfl
  | cons c contexts ih =>
    obtain ⟨hc, hcontexts⟩ := List.nodup_cons.1 hcontexts
    have hmem {c : String} {e : Entry}
        (he : e ∈ entriesIn t c (ContextClass.selector contextClassPrefix c) us) :
        ∃ own, e.selector = ContextClass.selector contextClassPrefix c ++ " " ++ own := by
      obtain ⟨u, -, he⟩ := List.mem_flatMap.1 he
      obtain ⟨own, -, rfl⟩ := List.mem_map.1 he
      exact ⟨own, rfl⟩
    rw [scopedEntries, List.flatMap_cons, ← scopedEntries, collect_append, ih hcontexts,
      collect_entriesIn, List.flatMap_cons]
    intro selector hfirst hlater
    obtain ⟨e, he, rfl⟩ := List.mem_map.1 hfirst
    obtain ⟨e', he', heq⟩ := List.mem_map.1 hlater
    obtain ⟨c', hc', he'⟩ := List.mem_flatMap.1 he'
    obtain ⟨own, hown⟩ := hmem he
    obtain ⟨own', hown'⟩ := hmem he'
    refine hc (List.mem_map.2 ⟨c', hc', ?_⟩)
    exact (ContextClass.selector_append_inj (hown'.symm.trans (heq.trans hown))).1

/-! ## Fallbacks -/

/-- A fallback has a rule for each selector list of the plain usages and then, in each context, one
for each selector of the others, as long as no two contexts have one class. Rules declare each
property of their usages once, with the value of the last usage that has it, in which all references
are replaced by literals and everything else stays. -/
theorem exists_blocks_of_css {options : Options} {css : String}
    (hcontexts : (t.contexts.map ContextClass.legibleName).Nodup)
    (h : Fallback.css t us options = .ok css) :
    let plain := us.filter (isPlain t)
    let others := us.filter (!isPlain t ·)
    ∃ blocks, (sheetOf blocks).css = css ∧
      (sheetOf blocks).body Sheet.root = blocks.map Block.statement ∧
      blocks = listRules t plain ++
        t.contexts.flatMap (contextRules t options.contextClassPrefix others) ∧
      (∀ u ∈ plain, Resolvable t none u) ∧
      (∀ u ∈ others, u.selectors ≠ [] → ∀ c ∈ t.contexts, Resolvable t (some c) u) ∧
      ∀ u ∈ us, ∃ f : Frame, f.rest.length = (references u.tokens).length ∧
        text u.tokens = f.fill ((references u.tokens).map Node.text) ∧
        ∀ context, valueOf t context u =
          f.fill ((references u.tokens).map (referred t context)) := by
  intro plain others
  obtain ⟨blocks, hrules, hcss⟩ := css_eq_ok_iff.1 h
  obtain ⟨hothers, hblocks⟩ := rules_eq_ok_iff.1 hrules
  refine ⟨blocks, hcss, body_sheetOf blocks, ?_, fun u hu => ?_, fun u hu hne c hc => ?_,
    fun u _ => ?_⟩
  · rw [← hblocks, collect_plainEntries, collect_scopedEntries hcontexts]
  · exact resolvable_of_isPlain (List.mem_filter.1 hu).2
  · obtain ⟨hu, hother⟩ := List.mem_filter.1 hu
    exact (hothers u hu (by simpa using hother)).2 c hc hne
  · obtain ⟨f, hlength, htext, hvalue⟩ := exists_frame_valueOf u
    exact ⟨f, hlength, htext, hvalue t⟩

/-- Two plain usages under one list of selectors, and two others with one selector in common. -/
theorem exists_blocks_of_css_shared :
    let t := ((Theme.empty.insert "gap" none (.text "4px")).insert "ink" (some "dark")
      (.text "white")).insert "ink" (some "light") (.text "black")
    let use := fun selectors property key => (⟨selectors, property, "var(--makeup-" ++ key ++ ")",
      [.call "var" "" "" [.word ("--makeup-" ++ key)] (some key)]⟩ : SchemaUsage)
    let us := [use [".a", ".b"] "margin" "gap", use [".a", ".a", ".c"] "color" "ink",
      use [".a", ".b"] "margin" "gap", use [".c"] "fill" "ink"]
    (t.contexts.map ContextClass.legibleName).Nodup ∧
      ∃ blocks, Fallback.css t us {} = .ok (sheetOf blocks).css ∧
        blocks = [⟨".a, .b", [("margin", "4px")]⟩,
          ⟨".makeup\\/context\\/dark .a", [("color", "white")]⟩,
          ⟨".makeup\\/context\\/dark .c", [("color", "white"), ("fill", "white")]⟩,
          ⟨".makeup\\/context\\/light .a", [("color", "black")]⟩,
          ⟨".makeup\\/context\\/light .c", [("color", "black"), ("fill", "black")]⟩] := by
  intro t use us
  have hcontexts : (t.contexts.map ContextClass.legibleName).Nodup := by decide +kernel
  have hok : Fallback.css t us {} = .ok ((Fallback.css t us {}).toOption.getD "") :=
    eq_ok_of_isOk (by decide +kernel) _
  obtain ⟨blocks, hcss, -, hblocks, -⟩ := exists_blocks_of_css hcontexts hok
  refine ⟨hcontexts, blocks, hok.trans (congrArg Except.ok hcss.symm), hblocks.trans ?_⟩
  decide +kernel

/-- Two contexts with one class share their rules. -/
theorem rules_sameClass :
    let t := (Theme.empty.insert "k" (some "\x00") (.text "red")).insert "k" (some "\uFFFD")
      (.text "blue")
    let us : List SchemaUsage := [⟨[".a"], "color", "var(--makeup-k)",
      [.call "var" "" "" [.word "--makeup-k"] (some "k")]⟩]
    let selector := ".makeup\\/context\\/\uFFFD .a"
    t.contexts = ["\x00", "\uFFFD"] ∧ us.map (isPlain t) = [false] ∧
      rules t us "makeup/context/" = .ok [⟨selector, [("color", "blue")]⟩] ∧
      Fallback.css t us {} = .ok (selector ++ " \x7b\n  color: blue;\n\x7d\n") ∧
      t.contexts.flatMap (contextRules t "makeup/context/" us) =
        [⟨selector, [("color", "red")]⟩, ⟨selector, [("color", "blue")]⟩] := by
  decide +kernel

end CssTheming.Fallback
