import CssTheming.Proofs.Fallback.Collected
import CssTheming.Proofs.Sheet.Tree
import CssTheming.Proofs.Success

/-!
# What fallback rules are made of

Every usage contributes declarations with the text of its value, in which each reference is replaced
by a literal of the theme. The rules are these declarations grouped by selector, those of the plain
usages first. They are generated exactly if all references that are asked for have a literal.
-/

namespace CssTheming.Fallback

open Value

variable {t : Theme} {context : Option String} {u : SchemaUsage} {us : List SchemaUsage}
    {blocks blocks' : List Block} {selector value contextClassPrefix : String}

/-! ## Values -/

def literalText (t : Theme) (context : Option String) (key : String) : String :=
  ((literal? t context key).map Theme.Literal.css).getD ""

mutual
/-- A node with the literal of its key in its place. -/
def substituteNode (t : Theme) (context : Option String) : Node → Node
  | .call _ _ _ _ (some key) => .word (literalText t context key)
  | .call name before after args none => .call name before after (substitute t context args) none
  | n => n

/-- A value with the literals of its keys in their places. -/
def substitute (t : Theme) (context : Option String) : List Node → List Node
  | [] => []
  | n :: ns => substituteNode t context n :: substitute t context ns
end

def valueOf (t : Theme) (context : Option String) (u : SchemaUsage) : String :=
  text (substitute t context u.tokens)

/-- All keys of a usage have literals in a context. -/
def Resolvable (t : Theme) (context : Option String) (u : SchemaUsage) : Prop :=
  ∀ key ∈ u.keys, (literal? t context key).isSome

theorem resolveNode_eq_ok_iff {n n' : Node} : resolveNode t context n = .ok n' ↔
    (∀ key ∈ n.key?, (literal? t context key).isSome) ∧
      (n.key?.elim n fun key => .word (literalText t context key)) = n' := by
  rw [resolveNode]
  cases n.key? with
  | none => simp
  | some key => cases hliteral : literal? t context key <;> simp [hliteral, literalText]

mutual
theorem rebuild_node_eq_ok_iff : ∀ (n : Node) {n' : Node},
    n.rebuild (resolveNode t context) = .ok n' ↔
      (∀ key ∈ n.keys, (literal? t context key).isSome) ∧ substituteNode t context n = n'
  | .call name before after args key, n' => by
    rw [Node.rebuild, bind_eq_ok]
    simp only [rebuild_eq_ok_iff args, resolveNode_eq_ok_iff, Node.key?, Node.keys]
    cases key with
    | none => simp [substituteNode]
    | some key => simp [substituteNode, and_assoc, and_left_comm]
  | .word v, n' | .string v _, n' | .divider v _ _, n' | .space v, n' | .comment v, n' => by
    rw [Node.rebuild, resolveNode_eq_ok_iff]
    · simp [Node.key?, Node.keys, substituteNode]
    · simp

/-- A value can be resolved exactly if all of its keys have literals. -/
theorem rebuild_eq_ok_iff : ∀ (ns : List Node) {ns' : List Node},
    rebuild (resolveNode t context) ns = .ok ns' ↔
      (∀ key ∈ keys ns, (literal? t context key).isSome) ∧ substitute t context ns = ns'
  | [], ns' => by
    simp [rebuild, keys, substitute, pure, Except.pure]
  | n :: ns, ns' => by
    rw [rebuild, bind_eq_ok]
    simp only [bind_eq_ok, rebuild_node_eq_ok_iff n, rebuild_eq_ok_iff ns, keys, substitute,
      List.forall_mem_append]
    constructor
    · rintro ⟨_, ⟨hn, rfl⟩, _, ⟨hns, rfl⟩, ⟨⟩⟩
      exact ⟨⟨hn, hns⟩, rfl⟩
    · rintro ⟨⟨hn, hns⟩, rfl⟩
      exact ⟨_, ⟨hn, rfl⟩, _, ⟨hns, rfl⟩, rfl⟩
end

theorem resolve_eq_ok_iff : resolve t context selector u = .ok value ↔
    Resolvable t context u ∧ valueOf t context u = value := by
  rw [resolve]
  cases hrebuild : rebuild (resolveNode t context) u.tokens with
  | ok ns =>
    obtain ⟨hkeys, rfl⟩ := (rebuild_eq_ok_iff u.tokens).1 hrebuild
    have hresolvable : Resolvable t context u := hkeys
    simp [hresolvable, valueOf]
  | error e =>
    have hnot : ¬Resolvable t context u := by
      intro hkeys
      rw [(rebuild_eq_ok_iff u.tokens).2 ⟨hkeys, rfl⟩] at hrebuild
      cases hrebuild
    simp [hnot]

/-! ## Rules -/

theorem resolvable_of_isPlain (h : isPlain t u = true) : Resolvable t none u :=
  List.all_eq_true.1 h

/-- The selectors of a usage as one list. -/
def listOf (u : SchemaUsage) : String := Selectors.join u.selectors

def plainEntry (t : Theme) (u : SchemaUsage) : Entry := ⟨listOf u, u.property, valueOf t none u⟩

def scopedEntry (t : Theme) (context marker : String) (u : SchemaUsage) (selector : String) :
    Entry :=
  ⟨marker ++ " " ++ selector, u.property, valueOf t (some context) u⟩

def entriesIn (t : Theme) (context marker : String) (us : List SchemaUsage) : List Entry :=
  us.flatMap fun u => u.selectors.map (scopedEntry t context marker u)

/-- What the plain usages contribute. -/
def plainEntries (t : Theme) (us : List SchemaUsage) : List Entry :=
  (us.filter (isPlain t)).map (plainEntry t)

/-- What the other usages contribute, context by context. -/
def scopedEntries (t : Theme) (contextClassPrefix : String) (us : List SchemaUsage)
    (contexts : List String) : List Entry :=
  contexts.flatMap fun context =>
    entriesIn t context (ContextClass.selector contextClassPrefix context) us

theorem plainBlocks_eq_ok_iff {p : List Block × List SchemaUsage} :
    plainBlocks t blocks us = .ok p ↔
      (∀ u ∈ us, isPlain t u = false → ∀ key ∈ u.keys, isKnown t key = true) ∧
        (setAll blocks (plainEntries t us), us.filter (!isPlain t ·)) = p := by
  induction us generalizing blocks p with
  | nil => simp [plainBlocks, plainEntries, setAll]
  | cons u us ih =>
    rw [plainBlocks]
    dsimp only
    cases hplain : isPlain t u with
    | true =>
      have hresolvable := resolvable_of_isPlain hplain
      rw [if_pos rfl, bind_eq_ok]
      simp [resolve_eq_ok_iff, hresolvable, ih, hplain, plainEntries, setAll, plainEntry, listOf]
    | false =>
      rw [if_neg (by decide)]
      cases hfind : u.keys.find? fun key => !isKnown t key with
      | some key =>
        have hkey := List.mem_of_find?_eq_some hfind
        have hunknown : isKnown t key = false := by simpa using List.find?_some hfind
        constructor
        · rintro ⟨⟩
        · rintro ⟨hknown, -⟩
          rw [hknown u List.mem_cons_self hplain key hkey] at hunknown
          cases hunknown
      | none =>
        have hknown : isPlain t u = false → ∀ key ∈ u.keys, isKnown t key = true :=
          fun _ => by simpa using hfind
        simp only [map_eq_ok, ih, List.forall_mem_cons, and_iff_right hknown]
        simp [hplain, plainEntries]

theorem contextBlocksOf_eq_ok_iff {c marker : String} {selectors : List String} :
    contextBlocksOf t c marker u blocks selectors = .ok blocks' ↔
      (selectors ≠ [] → Resolvable t (some c) u) ∧
        setAll blocks (selectors.map (scopedEntry t c marker u)) = blocks' := by
  induction selectors generalizing blocks with
  | nil => simp [contextBlocksOf, setAll]
  | cons selector selectors ih =>
    rw [contextBlocksOf, bind_eq_ok]
    simp only [resolve_eq_ok_iff, ih]
    constructor
    · rintro ⟨_, ⟨hu, rfl⟩, -, rfl⟩
      exact ⟨fun _ => hu, rfl⟩
    · rintro ⟨hu, rfl⟩
      exact ⟨_, ⟨hu (List.cons_ne_nil _ _), rfl⟩, fun _ => hu (List.cons_ne_nil _ _), rfl⟩

theorem contextBlocks_eq_ok_iff {c marker : String} :
    contextBlocks t c marker blocks us = .ok blocks' ↔
      (∀ u ∈ us, u.selectors ≠ [] → Resolvable t (some c) u) ∧
        setAll blocks (entriesIn t c marker us) = blocks' := by
  induction us generalizing blocks with
  | nil => simp [contextBlocks, entriesIn, setAll]
  | cons u us ih =>
    rw [contextBlocks, bind_eq_ok]
    simp [contextBlocksOf_eq_ok_iff, ih, entriesIn, setAll_append, and_assoc]

theorem scopedBlocks_eq_ok_iff {contexts : List String} :
    scopedBlocks t contextClassPrefix us blocks contexts = .ok blocks' ↔
      (∀ c ∈ contexts, ∀ u ∈ us, u.selectors ≠ [] → Resolvable t (some c) u) ∧
        setAll blocks (scopedEntries t contextClassPrefix us contexts) = blocks' := by
  induction contexts generalizing blocks with
  | nil => simp [scopedBlocks, scopedEntries, setAll]
  | cons c contexts ih =>
    rw [scopedBlocks, bind_eq_ok]
    simp [contextBlocks_eq_ok_iff, ih, scopedEntries, setAll_append, and_assoc]

/-- Rules are generated exactly if every other usage knows its keys and finds a literal for each in
every context. -/
theorem rules_eq_ok_iff : rules t us contextClassPrefix = .ok blocks ↔
    (∀ u ∈ us, isPlain t u = false → (∀ key ∈ u.keys, isKnown t key = true) ∧
      ∀ c ∈ t.contexts, u.selectors ≠ [] → Resolvable t (some c) u) ∧
    collect (plainEntries t us) ++ collect (scopedEntries t contextClassPrefix
      (us.filter (!isPlain t ·)) t.contexts) = blocks := by
  rw [rules, bind_eq_ok]
  simp only [plainBlocks_eq_ok_iff, bind_eq_ok, scopedBlocks_eq_ok_iff]
  constructor
  · rintro ⟨_, ⟨hknown, rfl⟩, _, ⟨hresolvable, rfl⟩, ⟨⟩⟩
    refine ⟨fun u hu hother => ⟨hknown u hu hother, fun c hc => ?_⟩, rfl⟩
    exact hresolvable c hc u (List.mem_filter.2 ⟨hu, by simpa using hother⟩)
  · rintro ⟨hothers, rfl⟩
    refine ⟨_, ⟨fun u hu hother => (hothers u hu hother).1, rfl⟩, _,
      ⟨fun c hc u hu => ?_, rfl⟩, rfl⟩
    obtain ⟨hu, hother⟩ := List.mem_filter.1 hu
    exact (hothers u hu (by simpa using hother)).2 c hc

/-! ## Stylesheets -/

def Block.statement (b : Block) : Sheet.Statement :=
  .mk (.rule b.selector) Sheet.nowhere
    (b.declarations.map fun d => .mk (.declaration d.1 d.2 false) Sheet.nowhere [])

theorem appendBlock_eq (s : Sheet) (b : Block) :
    appendBlock s b = s.add Sheet.root b.statement :=
  Sheet.foldl_eq_addAll (fun sheet d => Sheet.appendDeclaration_eq sheet s.size d.1 d.2)
    b.declarations (s.appendRule Sheet.root b.selector)

/-- The stylesheet with some rules at its top. -/
def sheetOf (blocks : List Block) : Sheet := blocks.foldl appendBlock (.empty "compatibility.css")

theorem sheetOf_eq (blocks : List Block) :
    sheetOf blocks = .ofStatements "compatibility.css" (blocks.map Block.statement) :=
  Sheet.foldl_eq_addAll appendBlock_eq blocks _

theorem css_eq_ok_iff {options : Options} {text : String} : css t us options = .ok text ↔
    ∃ blocks, rules t us options.contextClassPrefix = .ok blocks ∧ (sheetOf blocks).css = text := by
  rw [css, bind_eq_ok]
  simp [sheetOf, pure, Except.pure]

end CssTheming.Fallback
