import CssTheming.Proofs.Compile.Scope
import CssTheming.Proofs.CustomProperty
import CssTheming.Proofs.Value.Entering
import CssTheming.Proofs.Value.SoleArgument

/-!
# Written out keys

Writing the full keys into a value keeps its calls in their places, each with its key resolved, and
a full key resolves to itself. Going over the sites of a stylesheet leaves the tree and all other
nodes as they are.
-/

namespace CssTheming.Compile

open Value Sheet

variable {options : Options} {location : Location} {component property value value' key : String}
    {scope : List String}

/-! ## Calls -/

theorem plainText_of_isResolved (h : Key.isResolved key = true) : PlainText key.toList := by
  intro c hc
  have hchar := Key.isKeyChar_of_isResolved h c hc
  have hlt := CustomProperty.toNat_lt_of_isKeyChar hchar
  revert hchar
  exact Identifier.forall_ascii (p := fun c => Key.isKeyChar c = true → endsWord c = false ∧
    c ≠ '\\') (by decide) hlt

theorem toList_ne_nil_of_isResolved (h : Key.isResolved key = true) : key.toList ≠ [] := by
  intro hnil
  rw [Key.isResolved, hnil] at h
  exact absurd h (by decide)

theorem plainArgument_keyNode {args : List Value.Node} (hargs : AllParsed args)
    (h : Key.isResolved key = true) :
    PlainArgument (keyNode args key) := by
  have hword : PlainArgument (.word key) := by
    have := PlainArgument.word (toList_ne_nil_of_isResolved h) (plainText_of_isResolved h)
    rwa [String.ofList_toList] at this
  have hstring : ∀ {quote : Char}, quote = '"' ∨ quote = '\'' →
      PlainArgument (.string key quote) := by
    intro quote hquote
    have := PlainArgument.string hquote (plainText_of_isResolved h)
    rwa [String.ofList_toList] at this
  rw [keyNode]
  split
  · exact hword
  · rename_i v quote hfind
    exact hstring (allParsed_iff.1 hargs _ (List.mem_of_find?_eq_some hfind))
  · exact hstring (.inr rfl)

theorem keyNode_cases (args : List Value.Node) (key : String) :
    keyNode args key = .word key ∨ ∃ quote, keyNode args key = .string key quote := by
  rw [keyNode]
  split
  · exact .inl rfl
  · exact .inr ⟨_, rfl⟩
  · exact .inr ⟨_, rfl⟩

/-- Entering a call again whose key has been written out would change nothing. -/
theorem enters_expandCall_iff {go : Value.Node → Except Error Value.Node} :
    Enters (expandCall options location component property) go ↔
      go = Node.walk (expandCall options location component property) := by
  refine PutsLeaves.enters_iff fun n => ?_
  cases n with
  | call name before after args key =>
    have hleaf (full : String) : ∀ n' ∈ some (Node.call name before after [keyNode args full] key),
        ∀ a ∈ n'.args, KeptLeaf (expandCall options location component property) a := by
      rintro _ ⟨⟩ a ha
      obtain rfl := List.mem_singleton.1 ha
      rcases keyNode_cases args full with hnode | ⟨quote, hnode⟩ <;> rw [hnode] <;>
        exact ⟨rfl, rfl⟩
    by_cases hname : name = options.configKeyword
    · refine ⟨do
        let argument ← keyArgument location (.call name before after args key)
        let full ← fullKey location component (argument.getD property)
        return ⟨some (.call name before after [keyNode args full] key), hleaf full⟩, ?_⟩
      simp [expandCall, hname]
    · exact ⟨pure ⟨none, fun _ h => by cases h⟩, by simp [expandCall, hname]⟩
  | _ => exact ⟨pure ⟨none, fun _ h => by cases h⟩, rfl⟩

/-- What a config call becomes inside a component. -/
def expandedCall (component property : String) : Value.Node → Value.Node
  | .call name before after args key =>
    .call name before after
      [keyNode args (Key.within component (calledKey property (.call name before after args key)))]
      key
  | n => n

theorem keepsCalls_expandedCall (component property : String) :
    KeepsCalls (expandedCall component property) :=
  fun _ _ _ _ _ => ⟨_, _, _, _, _, rfl⟩

theorem calledKey_expandedCall {n : Value.Node}
    (h : ∃ name before after args key, n = .call name before after args key) :
    calledKey property (expandedCall component property n) = Key.within component
      (calledKey property n) := by
  obtain ⟨name, before, after, args, key, rfl⟩ := h
  generalize hfull : Key.within component (calledKey property (.call name before after args key)) =
    full
  have hkey : givenKey? (.call name before after [keyNode args full] key) = some full := by
    rcases keyNode_cases args full with hnode | ⟨quote, hnode⟩ <;> rw [hnode] <;> rfl
  rw [expandedCall, hfull, calledKey, hkey]
  rfl

theorem fullKey_eq_ok {full : String} (h : fullKey location component key = .ok full) :
    full = Key.within component key ∧ Key.isValid key = true ∧ Key.isValid full = true := by
  rw [fullKey] at h
  obtain ⟨_, hcheck, h⟩ := bind_eq_ok.1 h
  obtain ⟨_, hfull, h⟩ := bind_eq_ok.1 h
  cases h
  exact ⟨rfl, checkKey_eq_ok.1 hcheck, checkKey_eq_ok.1 hfull⟩

theorem expandCall_eq_ok {n : Value.Node} {r : Option Value.Node}
    (hn : n.IsCallOf options.configKeyword)
    (h : expandCall options location component property n = .ok r) :
    r = some (expandedCall component property n) ∧ Accepted property n ∧
      Key.isValid (Key.within component (calledKey property n)) = true := by
  cases n with
  | call name before after args key =>
    have hname : name = options.configKeyword := hn
    rw [expandCall, if_pos hname] at h
    obtain ⟨argument, hargument, h⟩ := bind_eq_ok.1 h
    obtain ⟨full, hfull, h⟩ := bind_eq_ok.1 h
    cases h
    obtain ⟨rfl, hvalid, hfull⟩ := fullKey_eq_ok hfull
    have haccepted := accepted_of_keyArgument hargument hvalid
    obtain rfl := keyArgument_eq_ok hargument
    exact ⟨rfl, haccepted, hfull⟩
  | _ => exact absurd hn id

/-! ## Values -/

theorem expandValue_eq_ok (h : expandValue options location component property value = .ok value') :
    value' = text (replaceCalls options.configKeyword (expandedCall component property)
        (parse value)) ∧
      ∀ n ∈ callsOf options.configKeyword (parse value), Accepted property n ∧
        Key.isValid (Key.within component (calledKey property n)) = true := by
  rw [expandValue] at h
  obtain ⟨ns, hwalk, h⟩ := bind_eq_ok.1 h
  cases h
  have hother : ∀ n, ¬n.IsCallOf options.configKeyword →
      expandCall options location component property n = .ok none := by
    intro n hn
    cases n with
    | call name before after args key => exact if_neg hn
    | _ => rfl
  obtain ⟨rfl, haccepts⟩ := walk_eq_ok hother (fun n r hn hr => expandCall_eq_ok hn hr) hwalk
  exact ⟨rfl, haccepts⟩

/-- The references of a value whose keys were written out are those of the value, resolved in its
scope. -/
theorem referredKeys_expandValue (hscope : ∀ k ∈ scope, Key.isResolved k = true)
    (h : expandValue options location (".".intercalate scope) property value = .ok value') :
    (callsOf options.configKeyword (parse value')).map (referredKey property) =
        (callsOf options.configKeyword (parse value)).map
          (fun n => Key.resolve scope (calledKey property n)) ∧
      ∀ n ∈ callsOf options.configKeyword (parse value),
        allCallsOf options.configKeyword n.args = [] := by
  obtain ⟨rfl, haccepts⟩ := expandValue_eq_ok h
  refine ⟨?_, fun n hn => (haccepts n hn).1.allCallsOf_args _⟩
  have hwithin : ∀ key, Key.within (".".intercalate scope) key = Key.resolve scope key :=
    Key.within_eq_resolve hscope
  have hresolved : ∀ n ∈ callsOf options.configKeyword (parse value),
      Key.isResolved (Key.within (".".intercalate scope) (calledKey property n)) = true := by
    intro n hn
    rw [hwithin]
    exact Key.isResolved_resolve hscope (haccepts n hn).1.valid
  have hcall : ∀ n ∈ callsOf options.configKeyword (parse value),
      n.Parsed ∧ ∃ before after args, n = .call options.configKeyword before after args none :=
    fun n hn => exists_of_mem_callsOf _ (allParsed_parse value) hn
  obtain ⟨ns, hsame, hparse⟩ :=
    parse_text_replaceCalls (keepsCalls_expandedCall (".".intercalate scope) property) value
    fun n hn => by
      obtain ⟨hparsed, before, after, args, rfl⟩ := hcall n hn
      exact replaces_call hparsed.1.1 hparsed.1.2.1 hparsed.1.2.2.1
        (plainArgument_keyNode hparsed.2 (hresolved _ hn))
  rw [hparse, callsOf_replaceCalls, hsame.callsOf_eq, List.map_map]
  · apply List.map_congr_left
    intro n hn
    obtain ⟨-, before, after, args, rfl⟩ := hcall n hn
    rw [Function.comp_apply, referredKey, calledKey_expandedCall ⟨_, _, _, _, _, rfl⟩,
      Key.unrooted_of_isResolved (hresolved _ hn), hwithin]
  · intro n hn
    rw [hsame.callsOf_eq] at hn
    obtain ⟨-, before, after, args, rfl⟩ := hcall n hn
    rfl

/-! ## Sites -/

variable {s s' t : Sheet} {id : Nat} {ids : List Nat} {components : Components} {keyword : String}

/-- What becomes of a site in a component. -/
def Expands (options : Options) (location : Location) (component : String) : Kind → Kind → Prop
  | .declaration property value important, kind =>
    ∃ value', expandValue options location component property value = .ok value' ∧
      kind = .declaration property value' important
  | .atRule name params hasBlock, kind =>
    ∃ params', fullKey location component (contextKey params) = .ok params' ∧
      kind = .atRule name params' hasBlock
  | kind, kind' => kind' = kind

theorem edited_expandSite {componentAt : Nat → String} (htree : SameTree s t) {k : Kind}
    (hk : t.kind? id = some k)
    (h : expandSite options t id (componentAt id) = .ok s') :
    Edited (fun id => Expands options (s.location id) (componentAt id)) [id] t s' := by
  rw [expandSite, hk, htree.location_eq] at h
  cases k with
  | declaration property value important =>
    obtain ⟨value', hvalue, rfl⟩ := map_eq_ok.1 h
    exact edited_one (sameTree_setValue t id value') (fun i hi => kind?_modify_of_ne hi) hk
      (kind?_setValue hk) ⟨value', hvalue, rfl⟩
  | atRule name params hasBlock =>
    obtain ⟨params', hkey, rfl⟩ := map_eq_ok.1 h
    exact edited_one (sameTree_setParams t id params') (fun i hi => kind?_modify_of_ne hi) hk
      (kind?_setParams hk) ⟨params', hkey, rfl⟩
  | _ =>
    cases h
    exact edited_one (.refl _) (fun _ _ => rfl) hk hk rfl

/-- Going over sites expands each in its component and edits nothing else. -/
theorem expandSites_eq_ok {componentAt : Nat → String} (htree : SameTree s t) (hnodup : ids.Nodup)
    (hids : ∀ id ∈ ids, ∃ k, t.kind? id = some k)
    (h : expandSites options (ids.map fun id => (id, componentAt id)) t = (s', .ok ())) :
    Edited (fun id => Expands options (s.location id) (componentAt id)) ids t s' := by
  induction ids generalizing t with
  | nil =>
    cases h
    exact edited_nil _
  | cons id ids ih =>
    rw [List.map_cons, expandSites] at h
    cases hsite : expandSite options t id (componentAt id) with
    | error e =>
      rw [hsite] at h
      cases h
    | ok u =>
      rw [hsite] at h
      obtain ⟨hid, hnodup⟩ := List.nodup_cons.1 hnodup
      obtain ⟨k, hk⟩ := hids id List.mem_cons_self
      have hone : Edited (fun i => Expands options (s.location i) (componentAt i)) [id] t u :=
        edited_expandSite htree hk hsite
      have hrest : ∀ i ∈ ids, ∃ k, u.kind? i = some k := by
        intro i hi
        rw [hone.others_of_mem hid hi]
        exact hids i (List.mem_cons_of_mem id hi)
      exact hone.cons hid (ih (htree.trans hone.sameTree) hnodup hrest h)

theorem componentPath_nil (as : List Nat) : componentPath [] as = [] := by
  induction as with
  | nil => rfl
  | cons a as ih => rw [componentPath, List.lookup_nil, ih]

/-- A stylesheet whose components were collected and taken out. -/
structure Cleared (keyword : String) (s t : Sheet) (components : Components) : Prop where
  linked : s.Linked
  collected : Collected keyword s components
  pruned : Pruned (s.atRulesNamed root keyword) s t
  leaf : ∀ id ∈ s.atRulesNamed root keyword, s.children id = []

theorem Cleared.mem_descendants_iff (h : Cleared keyword s t components) {a x : Nat} :
    x ∈ t.descendants a ↔ x ∈ s.descendants a ∧ x ∉ s.atRulesNamed root keyword := by
  rw [h.pruned.descendants_eq h.linked h.leaf, List.mem_filter, decide_eq_true_iff]

theorem Cleared.componentOf_eq (h : Cleared keyword s t components) {x : Nat}
    (hx : x ∈ t.descendants root) :
    componentOf components t x = ".".intercalate (scopeAt keyword s x) := by
  obtain ⟨hx, hstays⟩ := h.mem_descendants_iff.1 hx
  rw [componentOf, h.pruned.ancestors_eq h.linked h.leaf hstays,
    componentPath_ancestors h.linked h.collected hx,
    List.reverse_reverse]

/-- Sites in document order, and all that have a scope. -/
structure Selects (options : Options) (keyword : String) (s t : Sheet) (ids : List Nat) : Prop where
  nodup : ids.Nodup
  site : ∀ id ∈ ids, id ∈ t.descendants root ∧ (t.kind? id).any (isSite options) = true
  rest : ∀ id ∈ t.descendants root, (t.kind? id).any (isSite options) = true → id ∉ ids →
    scopeAt keyword s id = []

theorem Cleared.selects_nil (options : Options) (h : Cleared keyword s t []) :
    Selects options keyword s t [] where
  nodup := List.nodup_nil
  site := by simp
  rest id hid _ _ := by
    have hpath := componentPath_ancestors h.linked h.collected (h.mem_descendants_iff.1 hid).1
    rw [componentPath_nil] at hpath
    exact List.reverse_eq_nil_iff.1 hpath.symm

/-- The sites in the only block of a component. -/
theorem Cleared.selects_one {block : Nat} {key : String} (options : Options)
    (h : Cleared keyword s t [(block, key)]) :
    Selects options keyword s t (sites options t block) ∧
      ∀ id ∈ sites options t block, Key.unrooted key = ".".intercalate (scopeAt keyword s id) := by
  have hbelow : ∀ id ∈ sites options t block, id ∈ s.descendants block ∧
      id ∈ t.descendants root := by
    intro id hid
    obtain ⟨hblock, hstays⟩ := h.mem_descendants_iff.1 (List.mem_filter.1 hid).1
    refine ⟨hblock, h.mem_descendants_iff.2 ⟨?_, hstays⟩⟩
    rcases h.collected.reached _ List.mem_cons_self with hroot | hroot
    · exact hroot ▸ hblock
    · exact h.linked.mem_descendants_trans hroot hblock
  refine ⟨⟨(h.pruned.linked.nodup_descendants block).filter _, ?_, ?_⟩, ?_⟩
  · exact fun id hid => ⟨(hbelow id hid).2, (List.mem_filter.1 hid).2⟩
  · intro id hid hsite hnot
    obtain ⟨hroot, hstays⟩ := h.mem_descendants_iff.1 hid
    have houtside : block ∉ s.ancestors id := by
      intro hmem
      have hblock := h.linked.mem_ancestors_iff.1 hmem
      exact hnot (List.mem_filter.2 ⟨h.mem_descendants_iff.2 ⟨hblock, hstays⟩, hsite⟩)
    have hpath := componentPath_ancestors h.linked h.collected hroot
    rw [componentPath_of_not_mem houtside] at hpath
    exact List.reverse_eq_nil_iff.1 hpath.symm
  · intro id hid
    obtain ⟨hblock, hroot⟩ := hbelow id hid
    have hpath := componentPath_ancestors h.linked h.collected (h.mem_descendants_iff.1 hroot).1
    rw [componentPath_of_mem (h.collected.valid _ List.mem_cons_self)
      (h.linked.mem_ancestors_iff.2 hblock)
      (h.linked.nodup_ancestors id)] at hpath
    have hscope : scopeAt keyword s id = [Key.unrooted key] := by
      rw [← List.reverse_reverse (scopeAt keyword s id), ← hpath]
      rfl
    rw [hscope, String.intercalate_singleton]

/-- The sites whose component is not empty, and the at-rules. -/
theorem Cleared.selects_many (options : Options) (h : Cleared keyword s t components) :
    let written id := componentOf components t id ≠ "" || !(t.kind? id).any Kind.isDeclaration
    (((sites options t root).map fun id => (id, componentOf components t id)).filter
      fun (id, component) =>
        component ≠ "" || !(t.kind? id).any Kind.isDeclaration) =
      ((sites options t root).filter written).map (fun id =>
        (id, ".".intercalate (scopeAt keyword s id))) ∧
    Selects options keyword s t ((sites options t root).filter written) := by
  intro written
  refine ⟨?_, ((h.pruned.linked.nodup_descendants root).filter _).filter _, ?_, ?_⟩
  · rw [List.filter_map]
    apply List.map_congr_left
    intro id hid
    rw [h.componentOf_eq (List.mem_filter.1 (List.mem_filter.1 hid).1).1]
  · exact fun id hid => List.mem_filter.1 (List.mem_filter.1 hid).1
  · intro id hid hsite hnot
    have hwritten : written id = false := by
      cases hw : written id with
      | false => rfl
      | true => exact absurd (List.mem_filter.2 ⟨List.mem_filter.2 ⟨hid, hsite⟩, hw⟩) hnot
    have hempty : componentOf components t id = "" := by
      have := (Bool.or_eq_false_iff.1 hwritten).1
      simpa using this
    rw [h.componentOf_eq hid] at hempty
    exact scopeAt_eq_nil h.linked h.collected (h.mem_descendants_iff.1 hid).1 hempty

/-- The sites that are expanded, each in its component, are all that have a scope. -/
theorem Cleared.componentSites_eq (options : Options) (h : Cleared keyword s t components) :
    ∃ ids, componentSites options components t =
        ids.map (fun id => (id, ".".intercalate (scopeAt keyword s id))) ∧
      Selects options keyword s t ids := by
  match components with
  | [] => exact ⟨[], rfl, h.selects_nil options⟩
  | [(block, key)] =>
    obtain ⟨hselects, hcomponent⟩ := h.selects_one options
    refine ⟨sites options t block, List.map_congr_left fun id hid => ?_, hselects⟩
    rw [hcomponent id hid]
  | p :: q :: ps =>
    obtain ⟨hsites, hselects⟩ := h.selects_many options
    refine ⟨_, ?_, hselects⟩
    rw [← hsites]
    rfl

/-- An expansion that succeeds reads the components, takes their at-rules out and goes over the
sites. -/
theorem exists_expandSites_eq (h : expand options s = (s', .ok ())) :
    let atRules := s.atRulesNamed root options.componentKeyword
    let t := atRules.foldl remove s
    ∃ components, collectComponents s options.componentKeyword [] atRules = .ok components ∧
      expandSites options (componentSites options components t) t = (s', .ok ()) := by
  rw [expand] at h
  dsimp only at h
  split at h
  · cases h
  split at h
  · cases h
  · exact ⟨_, ‹_›, h⟩

/-- Each node was kept or is a site that was expanded. Of the nodes that are left only sites without
a scope were kept. -/
theorem expand_eq_ok (hs : s.Linked)
    (hleaf : ∀ id ∈ s.atRulesNamed root options.componentKeyword, s.children id = [])
    (h : expand options s = (s', .ok ())) :
    ∃ components t, Cleared options.componentKeyword s t components ∧ SameTree t s' ∧
      ∀ id k, s.kind? id = some k →
      s'.kind? id = some k ∧
          (id ∈ t.descendants root → isSite options k = true →
              scopeAt options.componentKeyword s id = []) ∨
        (id ∈ t.descendants root ∧ isSite options k = true) ∧ ∃ k', s'.kind? id = some k' ∧
          Expands options (t.location id)
            (".".intercalate (scopeAt options.componentKeyword s id)) k k' := by
  obtain ⟨components, hcollect, h⟩ := exists_expandSites_eq h
  have hcleared : Cleared options.componentKeyword s _ components :=
    ⟨hs, collected hs hcollect, hs.pruned (s.atRulesNamed root options.componentKeyword), hleaf⟩
  generalize (s.atRulesNamed root options.componentKeyword).foldl remove s = t at h hcleared
  obtain ⟨ids, hsites, hselects⟩ := hcleared.componentSites_eq options
  rw [hsites] at h
  have hedited := expandSites_eq_ok (.refl t) hselects.nodup (fun id hid => ?_) h
  · refine ⟨components, t, hcleared, hedited.sameTree, fun id k hk => ?_⟩
    have hkt : t.kind? id = some k := (hcleared.pruned.kind id).trans hk
    by_cases hmem : id ∈ ids
    · have hsite := hselects.site id hmem
      rw [hkt] at hsite
      exact .inr ⟨hsite, hedited.each id hmem k hkt⟩
    · refine .inl ⟨(hedited.others id hmem).trans hkt, fun hid hsite => ?_⟩
      exact hselects.rest id hid (by rw [hkt]; exact hsite) hmem
  · obtain ⟨k, hk, -⟩ := (Option.any_eq_true _ _).1 (hselects.site id hid).2
    exact ⟨k, hk⟩

end CssTheming.Compile
