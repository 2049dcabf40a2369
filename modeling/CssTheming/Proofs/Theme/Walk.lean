import CssTheming.Proofs.Theme.Flatten
import CssTheming.Proofs.Theme.Interpolation

/-!
# Walks over a theme source

Flattening a tree visits its nodes in the order of the document. It succeeds exactly if each of them
is sound on its own, and what it gives then are the leaves of the nodes, one after the other. So what
is said about the nodes of a tree holds of what the tree is flattened to.
-/

namespace CssTheming.Theme

variable {g : Grammar} {path : List String} {keys : List Document} {ls : List Leaf}
  {entries : List (Document × Document)}

/-- A node of a tree and the keys that lead to it. -/
structure Visit where
  keys : List Document
  value : Document

mutual
/-- The nodes from one on. Mappings from contexts are not entered. -/
def visitsAt (keys : List Document) : Document → List Visit
  | .tagged tag value => ⟨keys, .tagged tag value⟩ :: visitsAt keys value
  | .mapping entries =>
    ⟨keys, .mapping entries⟩ :: if entries.all isContextEntry then [] else visits keys entries
  | .null => [⟨keys, .null⟩]
  | .bool value => [⟨keys, .bool value⟩]
  | .number value => [⟨keys, .number value⟩]
  | .text value => [⟨keys, .text value⟩]
  | .list items => [⟨keys, .list items⟩]

/-- The nodes below a mapping, in the order of the document. -/
def visits (keys : List Document) : List (Document × Document) → List Visit
  | [] => []
  | (key, value) :: rest => visitsAt (keys ++ [key]) value ++ visits keys rest
end

/-- A leaf as the document has it. -/
structure RawLeaf where
  keys : List Document
  context : Option String
  value : Document

/-- A mapping from contexts has a leaf for each of them, and any other value that is no mapping is
one. -/
def Visit.leaves (v : Visit) : List RawLeaf :=
  match v.value with
  | .tagged _ _ => []
  | .mapping entries =>
    if entries.all isContextEntry then
      entries.map fun e => ⟨v.keys, some (entryContext e.1), e.2⟩
    else []
  | value => [⟨v.keys, none, value⟩]

theorem leaves_mapping (keys : List Document) (entries : List (Document × Document)) :
    Visit.leaves ⟨keys, .mapping entries⟩ = if entries.all isContextEntry then
      entries.map fun e => ⟨keys, some (entryContext e.1), e.2⟩ else [] := rfl

/-- The leaves of a source's tree, in the order of the document. -/
def rawLeaves (tree : List (Document × Document)) : List RawLeaf :=
  (visits [] tree).flatMap Visit.leaves

def elementNames (keys : List Document) : List String := keys.map elementName

def RawLeaf.slot (l : RawLeaf) : Slot := (dotted (elementNames l.keys), l.context)

/-- The literal that a value is, with tokens put in. -/
def literal? (g : Grammar) : Document → Option Literal
  | .text value =>
    match g.tokens with
    | none => some (.text value)
    | some tokens => (interpolate tokens value).toOption.map .text
  | .number value => some (.number value)
  | .tagged _ value => literal? g value
  | _ => none

def RawLeaf.read (g : Grammar) (l : RawLeaf) : Leaf :=
  ⟨dotted (elementNames l.keys), l.context, (literal? g l.value).getD (.text "")⟩

/-- Whether a key has a name. -/
def isName : Document → Bool
  | .text _ | .number _ | .bool _ => true
  | _ => false

/-- What a node has to be for its tree to be flattened. -/
structure Visit.Sound (g : Grammar) (v : Visit) : Prop where
  names : ∀ key ∈ v.keys, isName key = true
  nonempty : ∀ entries, v.value = .mapping entries → entries ≠ []
  uniform : ∀ entries, v.value = .mapping entries →
    (∀ e ∈ entries, isContextEntry e = false) ∨
      (∀ e ∈ entries, isContextEntry e = true) ∧ g.contexts = true
  literals : ∀ l ∈ v.leaves, (literal? g l.value).isSome = true

/-! ## One node -/

theorem literal_eq_ok_iff : ∀ (d : Document) {l : Literal},
    literal g path d = .ok l ↔ literal? g d = some l
  | .tagged _ value, _ => by
    rw [literal, literal?]
    exact literal_eq_ok_iff value
  | .text value, _ => by
    rw [literal, literal?]
    cases g.tokens with
    | none => simp
    | some tokens => cases htext : interpolate tokens value <;> simp [htext, Except.toOption]
  | .number value, _ => by simp [literal, literal?]
  | .null, _ | .bool _, _ | .list _, _ | .mapping _, _ => by simp [literal, literal?]

theorem pathElement_eq_ok_iff {key : Document} {element : String} :
    pathElement path key = .ok element ↔ isName key = true ∧ elementName key = element := by
  cases key <;> simp [pathElement, isName, elementName, Except.toOption]

theorem contextLeaves_cons_eq_ok_iff {e : Document × Document} :
    contextLeaves g path (e :: entries) = .ok ls ↔ ∃ l, literal? g e.2 = some l ∧
      ∃ rest, contextLeaves g path entries = .ok rest ∧
        ⟨dotted path, some (entryContext e.1), l⟩ :: rest = ls := by
  obtain ⟨key, value⟩ := e
  rw [contextLeaves.eq_def]
  dsimp only
  split
  · simp [literal?]
  · simp [literal?]
  · simp only [bind_eq_ok, literal_eq_ok_iff, pure, Except.pure, Except.ok.injEq]
    cases key <;> rfl

theorem contextLeaves_eq_ok_iff :
    contextLeaves g (elementNames keys) entries = .ok ls ↔
      (∀ e ∈ entries, (literal? g e.2).isSome = true) ∧
        entries.map (fun e => RawLeaf.read g ⟨keys, some (entryContext e.1), e.2⟩) = ls := by
  induction entries generalizing ls with
  | nil => simp [contextLeaves]
  | cons e entries ih =>
    rw [contextLeaves_cons_eq_ok_iff, List.forall_mem_cons, List.map_cons]
    simp only [ih]
    cases hliteral : literal? g e.2 with
    | none => simp
    | some l => simp [RawLeaf.read, hliteral]

/-! ## Trees -/

theorem sound_iff_of_leaf {d : Document} (hkeys : ∀ key ∈ keys, isName key = true)
    (hmapping : ∀ entries, d ≠ .mapping entries)
    (hleaves : Visit.leaves ⟨keys, d⟩ = [⟨keys, none, d⟩]) :
    Visit.Sound g ⟨keys, d⟩ ↔ (literal? g d).isSome = true := by
  constructor
  · intro h
    exact h.literals ⟨keys, none, d⟩ (hleaves ▸ List.mem_singleton_self _)
  · intro h
    refine ⟨hkeys, fun entries heq => absurd heq (hmapping entries),
      fun entries heq => absurd heq (hmapping entries), fun l hl => ?_⟩
    rw [hleaves, List.mem_singleton] at hl
    rwa [hl]

theorem leaf_eq_ok_iff {d : Document} (hkeys : ∀ key ∈ keys, isName key = true)
    (hmapping : ∀ entries, d ≠ .mapping entries)
    (hleaves : Visit.leaves ⟨keys, d⟩ = [⟨keys, none, d⟩]) :
    (do return [⟨dotted (elementNames keys), none, ← literal g (elementNames keys) d⟩] :
        Except Error (List Leaf)) = .ok ls ↔
      (∀ v ∈ [(⟨keys, d⟩ : Visit)], v.Sound g) ∧
        [(⟨keys, d⟩ : Visit)].flatMap (fun v => v.leaves.map (RawLeaf.read g)) = ls := by
  rw [bind_eq_ok, List.forall_mem_singleton, List.flatMap_singleton, hleaves,
    sound_iff_of_leaf hkeys hmapping hleaves]
  simp only [literal_eq_ok_iff, pure, Except.pure, Except.ok.injEq]
  cases hliteral : literal? g d with
  | none => simp
  | some l => simp [RawLeaf.read, hliteral]

theorem sound_tagged {tag : String} {d : Document} (hkeys : ∀ key ∈ keys, isName key = true) :
    Visit.Sound g ⟨keys, .tagged tag d⟩ where
  names := hkeys
  nonempty _ h := by cases h
  uniform _ h := by cases h
  literals _ hl := absurd hl List.not_mem_nil

theorem sound_mapping_iff (hkeys : ∀ key ∈ keys, isName key = true) :
    Visit.Sound g ⟨keys, .mapping entries⟩ ↔ entries ≠ [] ∧
      ((∀ e ∈ entries, isContextEntry e = false) ∨
        ((∀ e ∈ entries, isContextEntry e = true) ∧ g.contexts = true) ∧
          ∀ e ∈ entries, (literal? g e.2).isSome = true) := by
  constructor
  · rintro ⟨-, hnonempty, huniform, hliterals⟩
    refine ⟨hnonempty _ rfl, (huniform _ rfl).imp_right fun hall => ⟨hall, fun e he => ?_⟩⟩
    refine hliterals ⟨keys, some (entryContext e.1), e.2⟩ ?_
    rw [leaves_mapping, if_pos (List.all_eq_true.2 hall.1)]
    exact List.mem_map_of_mem he
  · rintro ⟨hnonempty, hentries⟩
    refine ⟨hkeys, ?_, ?_, ?_⟩
    · rintro _ ⟨⟩
      exact hnonempty
    · rintro _ ⟨⟩
      exact hentries.imp_right And.left
    · intro l hl
      rw [leaves_mapping] at hl
      split at hl
      · rename_i hall
        obtain ⟨e, he, rfl⟩ := List.mem_map.1 hl
        rcases hentries with hnone | ⟨-, hliterals⟩
        · exact absurd (List.all_eq_true.1 hall e he) (by simp [hnone e he])
        · exact hliterals e he
      · exact absurd hl List.not_mem_nil

theorem mem_visitsAt_self (keys : List Document) (d : Document) :
    (⟨keys, d⟩ : Visit) ∈ visitsAt keys d := by
  cases d <;> exact List.mem_cons_self

mutual
theorem leavesAt_eq_ok_iff : ∀ (d : Document) {keys : List Document} {ls : List Leaf},
    (∀ key ∈ keys, isName key = true) →
    (leavesAt g (elementNames keys) d = .ok ls ↔
      (∀ v ∈ visitsAt keys d, v.Sound g) ∧
        (visitsAt keys d).flatMap (fun v => v.leaves.map (RawLeaf.read g)) = ls)
  | .tagged tag value, keys, ls, hkeys => by
    rw [leavesAt, visitsAt, List.forall_mem_cons, List.flatMap_cons, leavesAt_eq_ok_iff value hkeys,
      and_iff_right (sound_tagged hkeys)]
    rfl
  | .mapping entries, keys, ls, hkeys => by
    rw [leavesAt_mapping_eq_ok_iff, visitsAt, List.forall_mem_cons, List.flatMap_cons,
      sound_mapping_iff hkeys, leaves_mapping, leaves_eq_ok_iff entries hkeys,
      contextLeaves_eq_ok_iff]
    by_cases hall : entries.all isContextEntry = true
    · rw [if_pos hall, if_pos hall, and_iff_left (List.forall_mem_nil _), List.flatMap_nil,
        List.append_nil, List.map_map]
      -- A mapping without entries has no other keys than contexts, and is refused all the same.
      by_cases hnil : entries = []
      · simp [hnil]
      · have hnone : ¬∀ e ∈ entries, isContextEntry e = false := fun hnone =>
          not_all_isContextEntry hnil hnone hall
        simp only [hnone, false_and, false_or, and_assoc]
        rfl
    · have hall' : ¬∀ e ∈ entries, isContextEntry e = true := mt List.all_eq_true.2 hall
      rw [if_neg hall, if_neg hall]
      simp only [hall', false_and, or_false, and_assoc]
      rfl
  | .null, _, _, hkeys | .bool _, _, _, hkeys | .number _, _, _, hkeys | .text _, _, _, hkeys
  | .list _, _, _, hkeys => by
    rw [leavesAt, visitsAt, leaf_eq_ok_iff hkeys (by simp) rfl]
    all_goals simp

/-- A tree is flattened exactly if its nodes are sound, to their leaves. -/
theorem leaves_eq_ok_iff : ∀ (entries : List (Document × Document)) {keys : List Document}
    {ls : List Leaf}, (∀ key ∈ keys, isName key = true) →
    (leaves g (elementNames keys) entries = .ok ls ↔
      (∀ v ∈ visits keys entries, v.Sound g) ∧
        (visits keys entries).flatMap (fun v => v.leaves.map (RawLeaf.read g)) = ls)
  | [], keys, ls, _ => by simp [leaves, visits]
  | (key, value) :: rest, keys, ls, hkeys => by
    rw [leaves, visits, bind_eq_ok, List.forall_mem_append, List.flatMap_append]
    simp only [pathElement_eq_ok_iff]
    by_cases hkey : isName key = true
    · have hnames : elementNames (keys ++ [key]) = elementNames keys ++ [elementName key] :=
        List.map_append
      have hkeys' : ∀ k ∈ keys ++ [key], isName k = true :=
        List.forall_mem_append.2 ⟨hkeys, List.forall_mem_singleton.2 hkey⟩
      simp only [hkey, true_and, exists_eq_left', ← hnames, bind_eq_ok,
        leavesAt_eq_ok_iff value hkeys', leaves_eq_ok_iff rest hkeys, pure, Except.pure,
        Except.ok.injEq]
      constructor
      · rintro ⟨_, ⟨hfirst, rfl⟩, _, ⟨hrest, rfl⟩, rfl⟩
        exact ⟨⟨hfirst, hrest⟩, rfl⟩
      · rintro ⟨⟨hfirst, hrest⟩, rfl⟩
        exact ⟨_, ⟨hfirst, rfl⟩, _, ⟨hrest, rfl⟩, rfl⟩
    -- A key without a name makes the node below it unsound.
    · constructor
      · rintro ⟨_, ⟨hname, -⟩, -⟩
        exact absurd hname hkey
      · rintro ⟨⟨hfirst, -⟩, -⟩
        exact absurd ((hfirst _ (mem_visitsAt_self _ value)).names key (by simp)) hkey
end

end CssTheming.Theme
