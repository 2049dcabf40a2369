import CssTheming.Proofs.Success
import CssTheming.Proofs.Theme.Slots
import Mathlib.Data.List.Pairwise

/-!
# Leaves of a theme source

Each leaf of a source's components has its slot in the theme, under the names of the keys that lead
to it with dots between them. Two leaves have one slot if a name holds a dot, or if two keys of one
mapping have the same name, as `1` and `"1"`; nothing else makes them meet, so otherwise no value is
lost and no key is both for all contexts and for some.
-/

namespace CssTheming

namespace Key

theorem eq_of_isContext {key : String} (h : isContext key = true) :
    key = "$" ++ contextName key := by
  obtain ⟨rest, hrest⟩ := List.isPrefixOf_iff_prefix.1 h
  have hkey : key = "$" ++ String.ofList rest := by
    rw [← String.toList_inj, ← hrest]
    simp
  have hstrip : Text.stripStart? "$" key = some (String.ofList rest) :=
    Text.stripStart?_eq_some.2 hkey
  rw [contextName, hstrip, Option.getD_some]
  exact hkey

end Key

namespace Theme

variable {g : Grammar} {path : List String} {p q : Place} {ls : List Leaf}
  {entries : List (Document × Document)} {source : ThemeSource} {t : Theme}

/-- Where a leaf stands: the names of the keys that lead to it, and the context that it is for. -/
structure Place where
  path : List String
  context : Option String
  deriving DecidableEq

def Place.slot (p : Place) : Slot := (dotted p.path, p.context)

/-- What a key is called in a path. -/
def elementName (key : Document) : String := (pathElement [] key).toOption.getD ""

/-- The context of a key in a mapping from contexts. -/
def entryContext : Document → String
  | .text key => Key.contextName key
  | _ => ""

mutual
/-- The leaves of a tree, in the order of the document. A mapping from contexts has one for each of
them, and every other value that is no mapping is one. -/
def placesAt (path : List String) : Document → List Place
  | .tagged _ value => placesAt path value
  | .mapping entries =>
    if entries.all isContextEntry then entries.map fun e => ⟨path, some (entryContext e.1)⟩
    else places path entries
  | .null | .bool _ | .number _ | .text _ | .list _ => [⟨path, none⟩]

def places (path : List String) : List (Document × Document) → List Place
  | [] => []
  | (key, value) :: rest => placesAt (path ++ [elementName key]) value ++ places path rest
end

/-! ## The slots of leaves -/

theorem elementName_eq {key : Document} {element : String}
    (h : pathElement path key = .ok element) : element = elementName key := by
  cases key with
  | text value | number value | bool value =>
    cases h
    rfl
  | _ => cases h

theorem map_slot_contextLeaves (h : contextLeaves g path entries = .ok ls) :
    ls.map Leaf.slot = entries.map fun e => (dotted path, some (entryContext e.1)) := by
  induction entries generalizing ls with
  | nil =>
    cases h
    rfl
  | cons e rest ih =>
    obtain ⟨key, value⟩ := e
    have hstep : ∃ literal rest', contextLeaves g path rest = .ok rest' ∧
        ls = ⟨dotted path, some (entryContext key), literal⟩ :: rest' := by
      rw [contextLeaves.eq_def] at h
      dsimp only at h
      split at h
      · cases h
      · cases h
      · obtain ⟨literal, -, h⟩ := bind_eq_ok.1 h
        obtain ⟨rest', hrest, h⟩ := bind_eq_ok.1 h
        cases h
        exact ⟨literal, rest', hrest, by cases key <;> rfl⟩
    obtain ⟨literal, rest', hrest, rfl⟩ := hstep
    rw [List.map_cons, List.map_cons, ih hrest]
    rfl

theorem map_slot_literal {d : Document}
    (h : (do return [⟨dotted path, none, ← literal g path d⟩] : Except Error (List Leaf)) =
      .ok ls) :
    ls.map Leaf.slot = [(dotted path, none)] := by
  obtain ⟨value, -, h⟩ := bind_eq_ok.1 h
  cases h
  rfl

theorem not_all_isContextEntry (hne : entries ≠ [])
    (hnone : ∀ e ∈ entries, isContextEntry e = false) : ¬entries.all isContextEntry = true := by
  intro hall
  obtain ⟨e, he⟩ := List.exists_mem_of_ne_nil _ hne
  exact absurd (List.all_eq_true.1 hall e he) (by simp [hnone e he])

/-- Mappings are flattened that have contexts only, where these are allowed, or none. -/
theorem leavesAt_mapping_eq_ok_iff :
    leavesAt g path (.mapping entries) = .ok ls ↔ entries ≠ [] ∧
      ((∀ e ∈ entries, isContextEntry e = false) ∧ leaves g path entries = .ok ls ∨
        ((∀ e ∈ entries, isContextEntry e = true) ∧ g.contexts = true) ∧
          contextLeaves g path entries = .ok ls) := by
  have hnone : (∀ e ∈ entries, isContextEntry e = false) ↔ entries.countP isContextEntry = 0 := by
    simp [List.countP_eq_zero]
  rw [leavesAt, hnone, ← List.countP_eq_length]
  by_cases hnil : entries = []
  · simp [hnil]
  have hlength : 0 ≠ entries.length := Ne.symm (mt List.length_eq_zero_iff.1 hnil)
  by_cases hzero : entries.countP isContextEntry = 0
  · simp [hnil, hzero, hlength]
  by_cases hcount : entries.countP isContextEntry = entries.length
  · cases hcontexts : g.contexts <;> simp [hnil, hcount, hlength.symm]
  · simp [hnil, hzero, hcount]

mutual
theorem map_slot_leavesAt : ∀ (d : Document) {path : List String} {ls : List Leaf},
    leavesAt g path d = .ok ls → ls.map Leaf.slot = (placesAt path d).map Place.slot
  | .tagged _ value, _, _, h => by
    rw [leavesAt] at h
    rw [placesAt]
    exact map_slot_leavesAt value h
  | .mapping entries, path, ls, h => by
    rw [leavesAt_mapping_eq_ok_iff] at h
    rw [placesAt]
    obtain ⟨hne, ⟨hnone, h⟩ | ⟨⟨hall, -⟩, h⟩⟩ := h
    · rw [if_neg (not_all_isContextEntry hne hnone)]
      exact map_slot_leaves entries h
    · rw [if_pos (List.all_eq_true.2 hall), map_slot_contextLeaves h, List.map_map]
      rfl
  | .null, _, _, h | .bool _, _, _, h | .number _, _, _, h | .text _, _, _, h
  | .list _, _, _, h => by
    rw [leavesAt] at h
    · exact map_slot_literal h
    all_goals simp

/-- The leaves have the slots of their places. -/
theorem map_slot_leaves : ∀ (entries : List (Document × Document)) {path : List String}
    {ls : List Leaf}, leaves g path entries = .ok ls →
    ls.map Leaf.slot = (places path entries).map Place.slot
  | [], _, _, h => by
    cases h
    rfl
  | (key, value) :: rest, path, ls, h => by
    rw [leaves] at h
    obtain ⟨element, helement, h⟩ := bind_eq_ok.1 h
    obtain ⟨first, hfirst, h⟩ := bind_eq_ok.1 h
    obtain ⟨others, hothers, h⟩ := bind_eq_ok.1 h
    cases h
    obtain rfl := elementName_eq helement
    rw [places, List.map_append, List.map_append, map_slot_leavesAt value hfirst,
      map_slot_leaves rest hothers]
end

/-! ## Where leaves meet -/

mutual
/-- Distinct keys of a mapping have distinct names, which hold no dots unless they are contexts. -/
def SeparateAt : Document → Prop
  | .tagged _ value => SeparateAt value
  | .mapping entries =>
    if entries.all isContextEntry then (entries.map fun e => elementName e.1).Nodup
    else Separate entries
  | _ => True

def Separate : List (Document × Document) → Prop
  | [] => True
  | (key, value) :: rest =>
    '.' ∉ (elementName key).toList ∧ (∀ e ∈ rest, elementName key ≠ elementName e.1) ∧
      SeparateAt value ∧ Separate rest
end

mutual
theorem prefix_of_mem_placesAt : ∀ (d : Document) {path : List String} {p : Place},
    p ∈ placesAt path d → path <+: p.path
  | .tagged _ value, _, _, h => by
    rw [placesAt] at h
    exact prefix_of_mem_placesAt value h
  | .mapping entries, path, p, h => by
    rw [placesAt] at h
    split at h
    · obtain ⟨e, -, rfl⟩ := List.mem_map.1 h
      exact List.prefix_rfl
    · obtain ⟨e, -, hprefix⟩ := prefix_of_mem_places entries h
      exact (List.prefix_append _ _).trans hprefix
  | .null, _, _, h | .bool _, _, _, h | .number _, _, _, h | .text _, _, _, h
  | .list _, _, _, h => by
    obtain rfl := List.mem_singleton.1 h
    exact List.prefix_rfl

/-- The path to a leaf leads through a key of the mapping. -/
theorem prefix_of_mem_places : ∀ (entries : List (Document × Document)) {path : List String}
    {p : Place}, p ∈ places path entries → ∃ e ∈ entries, path ++ [elementName e.1] <+: p.path
  | (key, value) :: rest, path, p, h => by
    rw [places, List.mem_append] at h
    rcases h with h | h
    · exact ⟨(key, value), List.mem_cons_self, prefix_of_mem_placesAt value h⟩
    · obtain ⟨e, he, hprefix⟩ := prefix_of_mem_places rest h
      exact ⟨e, List.mem_cons_of_mem _ he, hprefix⟩
end

/-- No name of a path holds a dot. -/
def Undotted (path : List String) : Prop := ∀ name ∈ path, '.' ∉ name.toList

mutual
theorem undotted_of_mem_placesAt : ∀ (d : Document) {path : List String} {p : Place},
    SeparateAt d → Undotted path → p ∈ placesAt path d → Undotted p.path
  | .tagged _ value, _, _, hd, hpath, h => by
    rw [SeparateAt] at hd
    rw [placesAt] at h
    exact undotted_of_mem_placesAt value hd hpath h
  | .mapping entries, path, p, hd, hpath, h => by
    rw [SeparateAt] at hd
    rw [placesAt] at h
    split at h
    · obtain ⟨e, -, rfl⟩ := List.mem_map.1 h
      exact hpath
    · rename_i hall
      rw [if_neg hall] at hd
      exact undotted_of_mem_places entries hd hpath h
  | .null, _, _, _, hpath, h | .bool _, _, _, _, hpath, h | .number _, _, _, _, hpath, h |
    .text _, _, _, _, hpath, h | .list _, _, _, _, hpath, h => by
    obtain rfl := List.mem_singleton.1 h
    exact hpath

theorem undotted_of_mem_places : ∀ (entries : List (Document × Document)) {path : List String}
    {p : Place}, Separate entries → Undotted path → p ∈ places path entries → Undotted p.path
  | (key, value) :: rest, path, p, ⟨hkey, _, hvalue, hrest⟩, hpath, h => by
    rw [places, List.mem_append] at h
    rcases h with h | h
    · refine undotted_of_mem_placesAt value hvalue ?_ h
      intro name hname
      rcases List.mem_append.1 hname with hname | hname
      · exact hpath name hname
      · exact List.mem_singleton.1 hname ▸ hkey
    · exact undotted_of_mem_places rest hrest hpath h
end

/-- Two leaves with different paths, or of different contexts. -/
def Apart (p q : Place) : Prop :=
  p.path ≠ q.path ∨ ∃ c c', p.context = some c ∧ q.context = some c' ∧ c ≠ c'

instance : Std.Symm Apart where
  symm _ _
    | .inl hne => .inl hne.symm
    | .inr ⟨c, c', hc, hc', hne⟩ => .inr ⟨c', c, hc', hc, hne.symm⟩

theorem entryContext_ne {e e' : Document × Document} (he : isContextEntry e = true)
    (he' : isContextEntry e' = true) (hne : elementName e.1 ≠ elementName e'.1) :
    entryContext e.1 ≠ entryContext e'.1 := by
  obtain ⟨key, value⟩ := e
  obtain ⟨key', value'⟩ := e'
  cases key with
  | text key =>
    cases key' with
    | text key' =>
      have hkey : key ≠ key' := hne
      have heq := Key.eq_of_isContext he
      have heq' := Key.eq_of_isContext he'
      intro hcontext
      have hname : Key.contextName key = Key.contextName key' := hcontext
      rw [heq, heq', hname] at hkey
      exact hkey rfl
    | _ => cases he'
  | _ => cases he

mutual
theorem pairwise_placesAt : ∀ (d : Document) (path : List String), SeparateAt d →
    (placesAt path d).Pairwise Apart
  | .tagged _ value, path, hd => by
    rw [SeparateAt] at hd
    rw [placesAt]
    exact pairwise_placesAt value path hd
  | .mapping entries, path, hd => by
    rw [SeparateAt] at hd
    rw [placesAt]
    split
    · rename_i hall
      rw [if_pos hall] at hd
      rw [List.pairwise_map]
      refine (List.pairwise_map.1 hd).imp_of_mem fun {e e'} he he' hne => ?_
      have hcontext := List.all_eq_true.1 hall
      exact .inr ⟨_, _, rfl, rfl, entryContext_ne (hcontext e he) (hcontext e' he') hne⟩
    · rename_i hall
      rw [if_neg hall] at hd
      exact pairwise_places entries path hd
  | .null, _, _ | .bool _, _, _ | .number _, _, _ | .text _, _, _ | .list _, _, _ =>
    List.pairwise_singleton _ _

/-- Where the keys of mappings have names of their own the leaves are apart. -/
theorem pairwise_places : ∀ (entries : List (Document × Document)) (path : List String),
    Separate entries → (places path entries).Pairwise Apart
  | [], _, _ => List.Pairwise.nil
  | (key, value) :: rest, path, ⟨_, hnames, hvalue, hrest⟩ => by
    rw [places, List.pairwise_append]
    refine ⟨pairwise_placesAt value _ hvalue, pairwise_places rest path hrest, ?_⟩
    -- The paths of leaves below two keys part where the keys stand.
    intro p hp q hq
    refine .inl fun hpath => ?_
    obtain ⟨e, he, hq⟩ := prefix_of_mem_places rest hq
    have hp := prefix_of_mem_placesAt value hp
    rw [hpath] at hp
    have heq := List.IsPrefix.eq_of_length
      (List.prefix_of_prefix_length_le hp hq (by simp)) (by simp)
    exact hnames e he (List.singleton_inj.1 (List.append_cancel_left heq))
end

/-- Paths whose names hold no dots are read off the dotted path. -/
theorem dotted_injective {path path' : List String} (hne : path ≠ []) (hne' : path' ≠ [])
    (h : Undotted path) (h' : Undotted path') (heq : dotted path = dotted path') :
    path = path' := by
  have hsplit : ∀ {path : List String}, path ≠ [] → Undotted path →
      (dotted path).toList.splitOn '.' = path.map String.toList := by
    intro path hne h
    rw [dotted, String.toList_intercalate]
    refine List.splitOn_intercalate '.' ?_ (by simpa using hne)
    intro l hl
    obtain ⟨name, hname, rfl⟩ := List.mem_map.1 hl
    exact h name hname
  have hlists : path.map String.toList = path'.map String.toList := by
    rw [← hsplit hne h, heq, hsplit hne' h']
  exact List.map_injective_iff.2 (fun _ _ => String.toList_inj.1) hlists

/-- Leaves that are apart meet neither in one slot nor in one key with and without a context. -/
theorem slot_ne_of_apart (h : Separate entries)
    (hp : p ∈ places [] entries) (hq : q ∈ places [] entries) (hpq : Apart p q) :
    p.slot ≠ q.slot ∧ (p.context.isSome ≠ q.context.isSome → dotted p.path ≠ dotted q.path) := by
  have hundotted : ∀ {p : Place}, p ∈ places [] entries → p.path ≠ [] ∧ Undotted p.path := by
    intro p hp
    refine ⟨?_, undotted_of_mem_places entries h (by simp [Undotted]) hp⟩
    obtain ⟨e, -, hprefix⟩ := prefix_of_mem_places entries hp
    rintro hnil
    simp [hnil] at hprefix
  have hpath : p.path ≠ q.path → dotted p.path ≠ dotted q.path := fun hne heq =>
    hne (dotted_injective (hundotted hp).1 (hundotted hq).1 (hundotted hp).2 (hundotted hq).2 heq)
  rcases hpq with hne | ⟨c, c', hc, hc', hne⟩
  · exact ⟨fun hslot => hpath hne (Prod.mk.inj hslot).1, fun _ => hpath hne⟩
  · refine ⟨fun hslot => hne ?_, fun hsome => ?_⟩
    · have hcontext := (Prod.mk.inj hslot).2
      rw [hc, hc'] at hcontext
      exact Option.some.inj hcontext
    · rw [hc, hc'] at hsome
      exact absurd rfl hsome

/-- Where the keys of mappings have names of their own no two leaves have one slot. -/
theorem nodup_slot_places (h : Separate entries) :
    ((places [] entries).map Place.slot).Nodup :=
  List.pairwise_map.2 ((pairwise_places entries [] h).imp_of_mem fun hp hq hpq =>
    (slot_ne_of_apart h hp hq hpq).1)

/-- Where the keys of mappings have names of their own a leaf for all contexts has a key that no
leaf for a context has. -/
theorem dotted_ne_of_separate (h : Separate entries)
    (hp : p ∈ places [] entries) (hq : q ∈ places [] entries) (hp' : p.context = none)
    (hq' : q.context ≠ none) : dotted p.path ≠ dotted q.path := by
  have hpq : p ≠ q := by
    rintro rfl
    exact hq' hp'
  refine (slot_ne_of_apart h hp hq ((pairwise_places entries [] h).forall hp hq hpq)).2 ?_
  rw [hp', Option.isSome_none, Option.isSome_iff_ne_none.2 hq']
  exact Bool.false_ne_true

/-! ## Themes -/

section Leaves

variable {ps : List Place} (hslots : ls.map Leaf.slot = ps.map Place.slot)

include hslots

/-- A value is lost exactly if two places have one slot. -/
theorem keyCount_ofLeaves_eq_iff :
    (ofLeaves ls).keyCount = ps.length ↔ (ps.map Place.slot).Nodup := by
  have hlength : ps.length = ls.length := by
    rw [← List.length_map (f := Place.slot), ← hslots, List.length_map]
  rw [hlength, keyCount_ofLeaves_eq_length, hslots]

/-- A key has values with and without contexts exactly if two places have it. -/
theorem isSome_get?_ofLeaves_both_iff :
    (∃ key context, ((ofLeaves ls).get? key none).isSome ∧
        ((ofLeaves ls).get? key (some context)).isSome) ↔
      ∃ p ∈ ps, ∃ q ∈ ps,
        p.context = none ∧ q.context ≠ none ∧ dotted p.path = dotted q.path := by
  have hsome : ∀ {key : String} {context : Option String},
      ((ofLeaves ls).get? key context).isSome = true ↔ ∃ p ∈ ps, p.slot = (key, context) := by
    intro key context
    rw [isSome_get?_ofLeaves, hslots, List.mem_map]
  simp only [hsome, Place.slot, Prod.mk.injEq]
  constructor
  · rintro ⟨key, context, ⟨p, hp, rfl, hcontext⟩, q, hq, hpath, hcontext'⟩
    exact ⟨p, hp, q, hq, hcontext, by simp [hcontext'], hpath.symm⟩
  · rintro ⟨p, hp, q, hq, hcontext, hne, hpath⟩
    obtain ⟨context, hcontext'⟩ := Option.ne_none_iff_exists'.1 hne
    exact ⟨_, context, ⟨p, hp, rfl, hcontext⟩, q, hq, hpath.symm, hcontext'⟩

end Leaves

/-- The theme of a source has for each slot the value of the last leaf that has it. It has as many
values as the source has leaves exactly if no two leaves have one slot, and a key with and without
contexts exactly if two leaves have it. Neither happens, and no value is lost, where the keys of
every mapping have names of their own without dots. -/
theorem exists_leaves_of_ofSource (h : ofSource source = .ok t) :
    ∃ tokens ls, tokenTable source = .ok tokens ∧
      leaves ⟨true, some tokens⟩ [] source.components = .ok ls ∧
      ls.map Leaf.slot = (places [] source.components).map Place.slot ∧
      (∀ key context, t.get? key context =
        (ls.reverse.find? (·.slot = (key, context))).map Leaf.value) ∧
      (t.keyCount = (places [] source.components).length ↔
        ((places [] source.components).map Place.slot).Nodup) ∧
      ((∃ key context, (t.get? key none).isSome ∧ (t.get? key (some context)).isSome) ↔
        ∃ p ∈ places [] source.components, ∃ q ∈ places [] source.components,
          p.context = none ∧ q.context ≠ none ∧ dotted p.path = dotted q.path) ∧
      (Separate source.components → t.keyCount = (places [] source.components).length ∧
        (∀ l ∈ ls, t.get? l.key l.context = some l.value) ∧
        ∀ key context, (t.get? key none).isSome → t.get? key (some context) = none) := by
  rw [ofSource] at h
  obtain ⟨tokens, htokens, h⟩ := bind_eq_ok.1 h
  obtain ⟨ls, hleaves, h⟩ := bind_eq_ok.1 h
  cases h
  have hslots := map_slot_leaves source.components hleaves
  have hcount := keyCount_ofLeaves_eq_iff hslots
  have hboth := isSome_get?_ofLeaves_both_iff hslots
  refine ⟨tokens, ls, htokens, hleaves, hslots, get?_ofLeaves ls, hcount, hboth, fun hsep => ?_⟩
  have hnodup := nodup_slot_places hsep
  refine ⟨hcount.2 hnodup, fun l hl => get?_ofLeaves_of_mem (hslots ▸ hnodup) hl, ?_⟩
  intro key context hkey
  by_contra hcontext
  obtain ⟨p, hp, q, hq, hp', hq', hpath⟩ :=
    hboth.1 ⟨key, context, hkey, Option.isSome_iff_ne_none.2 hcontext⟩
  exact dotted_ne_of_separate hsep hp hq hp' hq' hpath

/-- No value of a button is lost whose keys are texts, numbers and `true`. -/
theorem exists_leaves_of_ofSource_button :
    let source : ThemeSource := ⟨
      [(.text "button", .mapping [
        (.text "color", .mapping [(.text "$light", .text "white"), (.text "$dark", .text "$ink")]),
        (.bool true, .mapping [(.number (.int 1), .number (.int 2))])]),
        (.text "font", .text "serif")],
      some [(.text "ink", .text "black")]⟩
    let t := (ofSource source).toOption.getD .empty
    ofSource source = .ok t ∧ Separate source.components ∧ t.keyCount = 4 ∧
      t.get? "button.color" (some "dark") = some (.text "black") ∧
      ∀ key context, (t.get? key none).isSome → t.get? key (some context) = none := by
  intro source t
  have hsource : ofSource source = .ok t := eq_ok_of_isOk (by decide +kernel) _
  have hseparate : Separate source.components := by
    simp only [source, Separate, SeparateAt]
    decide +kernel
  obtain ⟨tokens, ls, -, -, -, -, -, -, h⟩ := exists_leaves_of_ofSource hsource
  obtain ⟨hcount, -, hcontext⟩ := h hseparate
  exact ⟨hsource, hseparate, by rw [hcount]; decide +kernel, by decide +kernel, hcontext⟩

/-- The value of `a.b` is lost if `a` has a `b` too, and stays for all contexts beside a `b` that is
for one. -/
theorem keyCount_ofSource_dotted :
    let source (value : Document) : ThemeSource := ⟨
      [(.text "a.b", .text "red"), (.text "a", .mapping [(.text "b", value)])], none⟩
    let t := (ofSource (source (.text "blue"))).toOption.getD .empty
    let t' := (ofSource (source (.mapping [(.text "$dark", .text "blue")]))).toOption.getD .empty
    ofSource (source (.text "blue")) = .ok t ∧
      (places [] (source (.text "blue")).components).length = 2 ∧ t.keyCount = 1 ∧
      t.get? "a.b" none = some (.text "blue") ∧
      ofSource (source (.mapping [(.text "$dark", .text "blue")])) = .ok t' ∧
      t'.get? "a.b" none = some (.text "red") ∧
      t'.get? "a.b" (some "dark") = some (.text "blue") := by
  intro source t t'
  exact ⟨eq_ok_of_isOk (by decide +kernel) _, by decide +kernel, by decide +kernel,
    by decide +kernel, eq_ok_of_isOk (by decide +kernel) _, by decide +kernel, by decide +kernel⟩

end Theme

end CssTheming
