import CssTheming.Proofs.Fallback.Rules
import CssTheming.Proofs.Table

/-!
# Keys without a literal

A fallback is not generated for one of two reasons. First all usages are searched for keys that no
table of the theme has, and then, context by context, for keys that have no literal there. What is
told is the first such key, with the selectors of its usage. A value is resolved from the inside
out, so of two references, one inside of the other, the key of the inner one is told.
-/

namespace CssTheming

namespace Value

mutual
/-- The keys that are set in a node, those of a call's arguments in front of its own. -/
def Node.innerKeys : Node → List String
  | .call _ _ _ args key => innerKeys args ++ key.toList
  | _ => []

def innerKeys : List Node → List String
  | [] => []
  | n :: ns => n.innerKeys ++ innerKeys ns
end

mutual
theorem Node.innerKeys_perm : ∀ n : Node, n.innerKeys.Perm n.keys
  | .call _ _ _ args key => by
    rw [Node.innerKeys, Node.keys]
    exact List.perm_append_comm.trans ((innerKeys_perm args).append_left _)
  | .word _ | .string _ _ | .divider _ _ _ | .space _ | .comment _ => .refl _

/-- Both orders have the same keys. -/
theorem innerKeys_perm : ∀ ns : List Node, (innerKeys ns).Perm (keys ns)
  | [] => .refl _
  | n :: ns => by
    rw [innerKeys, keys]
    exact (Node.innerKeys_perm n).append (innerKeys_perm ns)
end

end Value

namespace Fallback

open Value

variable {t : Theme} {context : Option String} {u : SchemaUsage} {us : List SchemaUsage}
    {blocks : List Block} {selector c marker contextClassPrefix : String}

/-! ## Values -/

/-- Whether a key has no literal in a context. -/
def lacks (t : Theme) (context : Option String) (key : String) : Bool :=
  (literal? t context key).isNone

theorem fault?_resolveNode (n : Node) : fault? (resolveNode t context n) =
    (n.key?.toList.find? (lacks t context)).map (.unknownKey · context none) := by
  rw [resolveNode]
  cases n.key? with
  | none => rfl
  | some key => cases hliteral : literal? t context key <;> simp [hliteral, lacks, fault?]

mutual
theorem fault?_rebuild_node : ∀ n : Node, fault? (n.rebuild (resolveNode t context)) =
    (n.innerKeys.find? (lacks t context)).map (.unknownKey · context none)
  | .call name before after args key => by
    have hcall (args' : List Node) :
        fault? (resolveNode t context (.call name before after args' key)) =
          (key.toList.find? (lacks t context)).map (.unknownKey · context none) :=
      fault?_resolveNode _
    rw [Node.rebuild, fault?_bind fun args' _ => hcall args', fault?_rebuild args, Node.innerKeys,
      List.find?_append, Option.map_or]
  | .word _ | .string _ _ | .divider _ _ _ | .space _ | .comment _ => by
    rw [Node.rebuild, fault?_resolveNode]
    · rfl
    · simp

/-- The first key without a literal is told, from the inside out. -/
theorem fault?_rebuild : ∀ ns : List Node, fault? (rebuild (resolveNode t context) ns) =
    ((innerKeys ns).find? (lacks t context)).map (.unknownKey · context none)
  | [] => rfl
  | n :: ns => by
    have hrest (n' : Node) : fault? (do return n' :: (← rebuild (resolveNode t context) ns)) =
        ((innerKeys ns).find? (lacks t context)).map (.unknownKey · context none) := by
      rw [fault?_bind fun _ _ => fault?_pure _, fault?_rebuild ns, Option.or_none]
    rw [rebuild, fault?_bind fun n' _ => hrest n', fault?_rebuild_node n, innerKeys,
      List.find?_append, Option.map_or]
end

theorem fault?_resolve : fault? (resolve t context selector u) =
    ((innerKeys u.tokens).find? (lacks t context)).map (.unknownKey · context (some selector)) := by
  have hrebuild : fault? (rebuild (resolveNode t context) u.tokens) = _ := fault?_rebuild u.tokens
  rw [resolve]
  cases h : rebuild (resolveNode t context) u.tokens with
  | ok ns =>
    rw [h, fault?, eq_comm, Option.map_eq_none_iff] at hrebuild
    rw [hrebuild]
    rfl
  | error e =>
    rw [h, fault?, eq_comm, Option.map_eq_some_iff] at hrebuild
    obtain ⟨key, hkey, rfl⟩ := hrebuild
    rw [hkey]
    rfl

/-! ## Usages -/

theorem findSome?_cons_eq_or {α β : Type} (f : α → Option β) (a : α) (as : List α) :
    (a :: as).findSome? f = (f a).or (as.findSome? f) := by
  rw [List.findSome?_cons]
  cases f a <;> rfl

/-- A usage that is not plain, with a key that no table has. -/
def unknownFault? (t : Theme) (u : SchemaUsage) : Option Error :=
  if isPlain t u then none
  else (u.keys.find? (!isKnown t ·)).map (.unknownKey · none (some (listOf u)))

/-- A usage that is not plain, with a key that has no literal in a context. -/
def missingFault? (t : Theme) (c : String) (u : SchemaUsage) : Option Error :=
  if isPlain t u then none
  else u.selectors.head?.bind fun selector =>
    ((innerKeys u.tokens).find? (lacks t (some c))).map (.unknownKey · (some c) (some selector))

theorem fault?_plainBlocks :
    fault? (plainBlocks t blocks us) = us.findSome? (unknownFault? t) := by
  induction us generalizing blocks with
  | nil => rfl
  | cons u us ih =>
    rw [plainBlocks, List.findSome?_cons, unknownFault?]
    dsimp only
    cases hplain : isPlain t u with
    | true =>
      have hvalue : resolve t none (listOf u) u = .ok (valueOf t none u) :=
        resolve_eq_ok_iff.2 ⟨resolvable_of_isPlain hplain, rfl⟩
      rw [if_pos rfl, if_pos rfl, fault?_bind fun _ _ => ih, ← listOf, hvalue]
      rfl
    | false =>
      rw [if_neg (by decide), if_neg (by decide)]
      cases u.keys.find? fun key => !isKnown t key with
      | some key => rfl
      | none =>
        dsimp only
        rw [fault?_map, ih]
        rfl

theorem fault?_contextBlocksOf {selectors : List String} :
    fault? (contextBlocksOf t c marker u blocks selectors) =
      selectors.head?.bind fun selector =>
        ((innerKeys u.tokens).find? (lacks t (some c))).map
          (.unknownKey · (some c) (some selector)) := by
  induction selectors generalizing blocks with
  | nil => rfl
  | cons selector selectors ih =>
    -- Where one selector has a value all of them do.
    have hrest (value : String) (h : resolve t (some c) selector u = .ok value) :
        fault? (contextBlocksOf t c marker u
          (set (marker ++ " " ++ selector) u.property value blocks) selectors) = none := by
      have hnone : fault? (resolve t (some c) selector u) = _ := fault?_resolve
      rw [h, fault?, eq_comm, Option.map_eq_none_iff] at hnone
      rw [ih, hnone]
      cases selectors.head? <;> rfl
    rw [contextBlocksOf, fault?_bind hrest, Option.or_none, fault?_resolve]
    rfl

theorem fault?_contextBlocks (hothers : ∀ u ∈ us, isPlain t u = false) :
    fault? (contextBlocks t c marker blocks us) = us.findSome? (missingFault? t c) := by
  induction us generalizing blocks with
  | nil => rfl
  | cons u us ih =>
    obtain ⟨hu, hus⟩ := List.forall_mem_cons.1 hothers
    rw [contextBlocks, fault?_bind fun _ _ => ih hus, fault?_contextBlocksOf, findSome?_cons_eq_or,
      missingFault?, hu]
    rfl

theorem fault?_scopedBlocks (hothers : ∀ u ∈ us, isPlain t u = false) {contexts : List String} :
    fault? (scopedBlocks t contextClassPrefix us blocks contexts) =
      contexts.findSome? fun c => us.findSome? (missingFault? t c) := by
  induction contexts generalizing blocks with
  | nil => rfl
  | cons c contexts ih =>
    rw [scopedBlocks, findSome?_cons_eq_or, fault?_bind fun _ _ => ih,
      fault?_contextBlocks hothers]

theorem findSome?_missingFault?_filter :
    (us.filter (!isPlain t ·)).findSome? (missingFault? t c) =
      us.findSome? (missingFault? t c) := by
  induction us with
  | nil => rfl
  | cons u us ih =>
    rw [List.filter_cons, findSome?_cons_eq_or, ← ih]
    cases hplain : isPlain t u with
    | true => simp [missingFault?, hplain]
    | false => simp [findSome?_cons_eq_or]

/-! ## Fallbacks -/

/-- Keys that no table has are told first, and then those that a context has no literal for. -/
theorem fault?_css {options : Options} : fault? (css t us options) =
    (us.findSome? (unknownFault? t)).or
      (t.contexts.findSome? fun c => us.findSome? (missingFault? t c)) := by
  have hscoped (p : List Block × List SchemaUsage) (h : plainBlocks t [] us = .ok p) :
      fault? (scopedBlocks t options.contextClassPrefix p.2 [] t.contexts) =
        t.contexts.findSome? fun c => us.findSome? (missingFault? t c) := by
    obtain ⟨-, rfl⟩ := plainBlocks_eq_ok_iff.1 h
    rw [fault?_scopedBlocks fun u hu => by simpa using (List.mem_filter.1 hu).2]
    simp only [findSome?_missingFault?_filter]
  have hrules : fault? (rules t us options.contextClassPrefix) =
      (us.findSome? (unknownFault? t)).or
        (t.contexts.findSome? fun c => us.findSome? (missingFault? t c)) := by
    rw [rules, fault?_bind (o := t.contexts.findSome? fun c => us.findSome? (missingFault? t c)),
      fault?_plainBlocks]
    intro p h
    dsimp only
    rw [fault?_bind fun _ _ => fault?_pure _, Option.or_none, hscoped p h]
  rw [css, fault?_bind fun _ _ => fault?_pure _, Option.or_none, hrules]

theorem isKnown_eq_false_iff {key : String} :
    isKnown t key = false ↔ ∀ context, t.get? key context = none := by
  rw [isKnown, Bool.or_eq_false_iff, Table.contains, Option.isSome_eq_false_iff,
    Option.isNone_iff_eq_none, List.any_eq_false]
  constructor
  · rintro ⟨hcontextless, htables⟩ (_ | c)
    · exact hcontextless
    · rw [Theme.get?, Option.bind_eq_none_iff]
      intro table htable
      simpa [Table.contains] using htables (c, table) (Table.get?_eq_some.1 htable)
  · intro h
    refine ⟨h none, fun e he => ?_⟩
    have hcontext := h (some e.1)
    rw [Theme.get?, Table.get?_eq_some.2 he, Option.bind_some] at hcontext
    simp [Table.contains, hcontext]

theorem isSome_unknownFault? : (unknownFault? t u).isSome = true ↔
    isPlain t u = false ∧ ∃ key ∈ u.keys, ∀ context, t.get? key context = none := by
  rw [unknownFault?]
  cases isPlain t u <;> simp [isKnown_eq_false_iff]

theorem lacks_iff {key : String} : lacks t (some c) key = true ↔
    t.get? key (some c) = none ∧ t.get? key none = none := by
  simp [lacks, literal?]

theorem isSome_missingFault? : (missingFault? t c u).isSome = true ↔
    isPlain t u = false ∧ u.selectors ≠ [] ∧
      ∃ key ∈ u.keys, t.get? key (some c) = none ∧ t.get? key none = none := by
  have hkeys : ∀ key, key ∈ innerKeys u.tokens ↔ key ∈ u.keys :=
    fun _ => (innerKeys_perm u.tokens).mem_iff
  rw [missingFault?]
  cases isPlain t u with
  | true => simp
  | false => cases u.selectors <;> simp [hkeys, lacks_iff]

/-- A fallback is not generated exactly if a usage that is not plain has a key that is in no table,
or has selectors and a key without a literal in some context. The first such key is told, with the
selectors of its usage. -/
theorem css_eq_error_iff (t : Theme) (us : List SchemaUsage) (options : Options) :
    (∀ e, css t us options = .error e ↔
      (us.findSome? (unknownFault? t)).or
        (t.contexts.findSome? fun c => us.findSome? (missingFault? t c)) = some e) ∧
    ((∃ e, css t us options = .error e) ↔
      (∃ u ∈ us, isPlain t u = false ∧ ∃ key ∈ u.keys, ∀ context, t.get? key context = none) ∨
      ∃ c ∈ t.contexts, ∃ u ∈ us, isPlain t u = false ∧ u.selectors ≠ [] ∧
        ∃ key ∈ u.keys, t.get? key (some c) = none ∧ t.get? key none = none) ∧
    ∀ u ∈ us, isPlain t u = true → ∀ selector, ∃ value, resolve t none selector u = .ok value := by
  have hfault : ∀ e, css t us options = .error e ↔
      (us.findSome? (unknownFault? t)).or
        (t.contexts.findSome? fun c => us.findSome? (missingFault? t c)) = some e := fun e =>
    fault?_eq_some.symm.trans (by rw [fault?_css])
  refine ⟨hfault, ?_, fun u _ hplain selector =>
    ⟨_, resolve_eq_ok_iff.2 ⟨resolvable_of_isPlain hplain, rfl⟩⟩⟩
  simp only [hfault, ← Option.isSome_iff_exists, Option.isSome_or, Bool.or_eq_true,
    List.findSome?_isSome_iff, isSome_unknownFault?, isSome_missingFault?]

/-- Two references, one inside of the other, to keys that a theme has for one context only. -/
theorem css_eq_error_iff_nested :
    let t := ((Theme.empty.insert "a" (some "dark") (.text "red")).insert "b" (some "dark")
      (.text "blue")).insert "gap" (some "light") (.text "4px")
    let tokens : List Node := [.call "var" "" "" [.word "--makeup-a", .divider "," "" " ",
      .call "var" "" "" [.word "--makeup-b"] (some "b")] (some "a")]
    let us : List SchemaUsage := [⟨[".x", ".y"], "color", text tokens, tokens⟩]
    us.findSome? (unknownFault? t) = none ∧
      css t us {} = .error (.unknownKey "b" (some "light") (some ".x")) := by
  intro t tokens us
  obtain ⟨hfault, -, -⟩ := css_eq_error_iff t us {}
  exact ⟨by decide +kernel, (hfault _).2 (by decide +kernel)⟩

end Fallback

end CssTheming
