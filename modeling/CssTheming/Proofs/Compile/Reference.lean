import CssTheming.Compile.Reference
import CssTheming.Proofs.Compile.Argument
import CssTheming.Proofs.ContextClass
import CssTheming.Proofs.Schema
import CssTheming.Proofs.Sheet.Changes
import CssTheming.Proofs.Value.Entering
import CssTheming.Proofs.Value.Replacement

/-!
# References and their keys

The usages of a stylesheet are those of its declarations in document order, and a declaration that
had no reference to a key before refers to the keys of its usages once its value is rewritten, in
their order.
-/

namespace CssTheming.Compile

open Value

variable {options : Options} {location : Location} {property value value' : String}
    {keys : List String}

/-! ## Values -/

/-- What takes the place of a config call on a property. -/
def referenceOf (options : Options) (property : String) (n : Value.Node) : Value.Node :=
  reference options (referredKey property n)

theorem keepsCalls_referenceOf (options : Options) (property : String) :
    KeepsCalls (referenceOf options property) :=
  fun _ _ _ _ _ => ⟨_, _, _, _, _, rfl⟩

theorem visitsCalls_referCall (options : Options) (location : Location) (property : String) :
    VisitsCalls options.configKeyword (referCall options location property)
      (referenceOf options property)
      (fun keys n => keys ++ [referredKey property n])
      (Accepted property) where
  other n hn := by
    cases n with
    | call name before after args key => exact if_neg hn
    | _ => rfl
  call n keys r keys' hn h := by
    cases n with
    | call name before after args key =>
      have hname : name = options.configKeyword := hn
      rw [referCall, if_pos hname] at h
      obtain ⟨argument, keys₁, hargument, hrest⟩ := bind_run_eq_ok.1 h
      obtain ⟨_, keys₂, hcheck, hrest⟩ := bind_run_eq_ok.1 hrest
      rw [lift_run_eq_ok] at hargument hcheck
      have haccepted := accepted_of_keyArgument hargument.1 (checkKey_eq_ok.1 hcheck.1)
      rw [keyArgument_eq_ok hargument.1] at hrest hcheck
      rw [hcheck.2, hargument.2] at hrest
      cases hrest
      exact ⟨rfl, rfl, haccepted⟩
    | _ => exact absurd hn id

/-- Entering a reference would change nothing. -/
theorem enters_referCall_iff
    {go : Value.Node → StateT (List String) (Except Error) Value.Node} :
    Enters (referCall options location property) go ↔
      go = Node.walk (referCall options location property) := by
  refine PutsLeaves.enters_iff fun n => ?_
  cases n with
  | call name before after args key =>
    have hleaf (resolved : String) : ∀ n' ∈ some (reference options resolved), ∀ a ∈ n'.args,
        KeptLeaf (referCall options location property) a := by
      rintro _ ⟨⟩ a ha
      obtain rfl := List.mem_singleton.1 ha
      exact ⟨rfl, rfl⟩
    by_cases hname : name = options.configKeyword
    · refine ⟨do
        let argument ← keyArgument location (.call name before after args key)
        checkKey location (argument.getD property)
        let resolved := Key.unrooted (argument.getD property)
        modify (· ++ [resolved])
        return ⟨some (reference options resolved), hleaf resolved⟩, ?_⟩
      simp [referCall, hname]
    · exact ⟨pure ⟨none, fun _ h => by cases h⟩, by simp [referCall, hname]⟩
  | _ => exact ⟨pure ⟨none, fun _ h => by cases h⟩, rfl⟩

theorem referValue_eq_ok (h : referValue options location property value = .ok (value', keys)) :
    value' = text (replaceCalls options.configKeyword (referenceOf options property)
        (parse value)) ∧
      keys = (callsOf options.configKeyword (parse value)).map (referredKey property) ∧
      ∀ n ∈ callsOf options.configKeyword (parse value), Accepted property n := by
  rw [referValue] at h
  obtain ⟨⟨ns, found⟩, hwalk, h⟩ := bind_eq_ok.1 h
  cases h
  obtain ⟨rfl, hfound, haccepted⟩ :=
    walk_run_eq_ok (visitsCalls_referCall options location property) _ hwalk
  refine ⟨rfl, ?_, haccepted⟩
  have hfold : ∀ (ns : List Value.Node) (keys : List String),
      ns.foldl (fun keys n => keys ++ [referredKey property n]) keys =
        keys ++ ns.map (referredKey property) := by
    intro ns
    induction ns with
    | nil => simp
    | cons n ns ih => simp [ih]
  rw [hfound, hfold, List.nil_append]

variable {key : String}

theorem toList_text_reference (options : Options) (key : String) :
    (reference options key).text.toList =
    ['v', 'a', 'r', '('] ++ ((CustomProperty.name options.propertyPrefix key).toList ++ [')']) := by
  simp [reference, referenceFunction, Node.text, text]

/-- A reference is read back wherever it is written. -/
theorem run_reference (hstart : CustomProperty.IsPlainPrefix options.propertyPrefix)
    (hkey : Key.isResolved key = true)
    (s : List Char) (inner : List Value.Node) (calls : List OpenCall) :
    run ((reference options key).text.toList ++ s) inner calls = run s
      (reference options key :: inner) calls := by
  obtain ⟨word, htext⟩ : ∃ word, (CustomProperty.name options.propertyPrefix key).toList = word :=
    ⟨_, rfl⟩
  have hname : WholeWord word := htext ▸ CustomProperty.wholeWord_name hstart hkey
  have hofList : CustomProperty.name options.propertyPrefix key = String.ofList word := by
    rw [← htext, String.ofList_toList]
  have hnode : reference options key = .call "var" "" "" [.word (String.ofList word)] none := by
    rw [reference, hofList]
    rfl
  obtain ⟨c, w, rfl⟩ := List.exists_cons_of_ne_nil hname.1
  have hc := endsWord_of_readWord hname.2.1
  have hopening : Fits (!calls.isEmpty) (c :: w ++ ')' :: s) (.opening ['v', 'a', 'r'] []) := by
    refine .opening (.inr (.inl ⟨by decide, by decide, by decide⟩)) (by simp) ?_ rfl
    intro d hd
    obtain rfl : c = d := by simpa using hd
    exact (not_special_of_not_endsWord hc).1
  have hword : Fits (!(OpenCall.mk "var" "" inner :: calls).isEmpty) (')' :: s)
      (.node (.word (String.ofList (c :: w)))) := by
    refine .word hname ?_ (by simp)
    intro d hd
    obtain rfl : ')' = d := by simpa using hd
    rfl
  have hclosing : Fits (!(OpenCall.mk "var" "" inner :: calls).isEmpty) s .closing := .closing rfl
  rw [toList_text_reference, htext, hnode]
  calc
    run (['v', 'a', 'r', '('] ++ (c :: w ++ [')']) ++ s) inner calls
      = run (['v', 'a', 'r', '('] ++ (c :: w ++ ')' :: s)) inner calls := by simp
    _ = run (c :: w ++ ')' :: s) [] (⟨"var", "", inner⟩ :: calls) := run_of_fits hopening inner
    _ = run (')' :: s) [.word (String.ofList (c :: w))] (⟨"var", "", inner⟩ :: calls) := by
        have hrun := run_of_fits hword []
        rwa [Token.text, Node.text, String.toList_ofList] at hrun
    _ = run s (.call "var" "" "" [.word (String.ofList (c :: w))] none :: inner) calls :=
        run_of_fits hclosing _

theorem replaces_reference (hstart : CustomProperty.IsPlainPrefix options.propertyPrefix)
    (hkey : Key.isResolved key = true)
    (hkeyword : options.configKeyword ≠ ")") :
    Replaces options.configKeyword (reference options key) where
  alone _ _ s inner calls _ := run_reference hstart hkey s inner calls
  head := by
    refine .inr ⟨hkeyword, 'v', ?_, rfl, by decide⟩
    rw [toList_text_reference]
    rfl

theorem keys_markedNode_reference (hstart : CustomProperty.IsPlainPrefix options.propertyPrefix)
    (hkey : Key.isResolved key = true) :
    (Schema.markedNode options.propertyPrefix (reference options key)).keys = [key] := by
  have hzero : ∀ c ∈ (options.propertyPrefix ++ key).toList, c ≠ '\x00' := by
    rintro c hc rfl
    exact absurd (CustomProperty.isPlain_append hstart hkey _ hc) (by decide)
  have hne : key ≠ "" := by
    rintro rfl
    exact absurd hkey (by decide)
  have hword : Schema.soleWord? [.word (CustomProperty.name options.propertyPrefix key)] =
      some (CustomProperty.name options.propertyPrefix key) := rfl
  rw [reference, Schema.keys_markedNode_call, referenceFunction, if_pos rfl, hword]
  dsimp only
  rw [(CustomProperty.key?_name hzero).2 hne]
  rfl

/-- The references in a rewritten value are the new ones, if it had none before. -/
theorem keys_referValue (hstart : CustomProperty.IsPlainPrefix options.propertyPrefix)
    (hkeyword : options.configKeyword ≠ ")")
    (h : referValue options location property value = .ok (value', keys))
    (hnone : Value.keys (Schema.markReferences options.propertyPrefix value) = []) :
    Value.keys (Schema.markReferences options.propertyPrefix value') = keys := by
  obtain ⟨rfl, rfl, haccepted⟩ := referValue_eq_ok h
  have hresolved : ∀ n ∈ callsOf options.configKeyword (parse value),
      Key.isResolved (referredKey property n) = true :=
    fun n hn => Key.isResolved_unrooted (haccepted n hn).valid
  have hkeeps := keepsCalls_referenceOf options property
  obtain ⟨ns, hsame, hparse⟩ := parse_text_replaceCalls hkeeps value
    fun n hn => replaces_reference hstart (hresolved n hn) hkeyword
  rw [Schema.markReferences_eq] at hnone
  rw [Schema.markReferences_eq, hparse, ← hsame.callsOf_eq]
  refine Schema.keys_markedNodes_replaceCalls hkeeps ns (fun n hn => ?_)
    (Schema.keys_markedNodes_of_sameButEnd hsame hnone)
  rw [hsame.callsOf_eq] at hn
  exact keys_markedNode_reference hstart (hresolved n hn)

/-! ## Stylesheets -/

open Sheet

variable {s s' t : Sheet} {id : Nat} {usages new : List Usage}

/-- The usages that the node `id` adds. -/
def usagesAt (options : Options) (s : Sheet) (id : Nat) : List Usage :=
  match referAt options s id with
  | .ok (_, new) => new
  | .error _ => []

/-- What becomes of a declaration that adds these usages. -/
def Refers (options : Options) (s : Sheet) (id : Nat) (new : List Usage) : Kind → Kind → Prop
  | .declaration property value important, kind =>
    Text.contains value (callMarker options) = false ∧
      kind = .declaration property value important ∧ new = [] ∨
      Text.contains value (callMarker options) = true ∧ ∃ rule value' keys,
        enclosingRule? s id = some rule ∧
        referValue options (s.location id) property value = .ok (value', keys) ∧
        kind = .declaration property value' important ∧
        new = keys.map fun key => ⟨s.selectors rule, property, value, key, s.path⟩
  | _, _ => False

theorem referAt_eq_ok {k : Kind} (hk : s.kind? id = some k) (hdecl : k.isDeclaration = true)
    (h : referAt options s id = .ok (s', new)) :
    ∃ k', s'.kind? id = some k' ∧ Refers options s id new k k' ∧ SameTree s s' ∧ ∀ i, i ≠ id →
      s'.kind? i = s.kind? i := by
  cases k with
  | declaration property value important =>
    rw [referAt, hk] at h
    dsimp only at h
    split at h
    · rename_i hcontains
      cases hrule : enclosingRule? s id with
      | none =>
        rw [hrule] at h
        cases h
      | some rule =>
        rw [hrule] at h
        obtain ⟨⟨value', keys⟩, hvalue, h⟩ := map_eq_ok.1 h
        cases h
        exact ⟨_, kind?_setValue hk,
          .inr ⟨hcontains, rule, value', keys, hrule, hvalue, rfl, rfl⟩,
          sameTree_setValue s id value', fun i hi => kind?_modify_of_ne hi⟩
    · rename_i hcontains
      cases h
      exact ⟨_, hk, .inl ⟨by simpa using hcontains, rfl, rfl⟩, .refl s, fun _ _ => rfl⟩
  | _ => simp [Kind.isDeclaration] at hdecl

theorem Refers.usagesAt_eq {k k' : Kind} (hk : s.kind? id = some k)
    (h : Refers options s id new k k') :
    usagesAt options s id = new := by
  cases k with
  | declaration property value important =>
    rw [usagesAt, referAt, hk]
    rcases h with ⟨hcontains, -, rfl⟩ | ⟨hcontains, rule, value', keys, hrule, hvalue, -, rfl⟩
    · simp [hcontains]
    · simp only [hcontains, if_true, hrule, hvalue]
      rfl
  | _ => exact False.elim h

theorem Refers.isDeclaration {k k' : Kind} (h : Refers options s id new k k') :
    k'.isDeclaration = true := by
  cases k with
  | declaration property value important =>
    rcases h with ⟨-, rfl, -⟩ | ⟨-, _, _, _, -, -, rfl, -⟩ <;> rfl
  | _ => exact h.elim

/-- Stylesheets with the same tree and the same rules in it. -/
structure SameRules (s s' : Sheet) : Prop where
  sameTree : SameTree s s'
  isRule : ∀ id, s'.isRule id = s.isRule id
  selectors : ∀ id, s'.selectors id = s.selectors id

theorem SameRules.enclosingRule?_eq (h : SameRules s t) (id : Nat) :
    enclosingRule? t id = enclosingRule? s id := by
  rw [enclosingRule?, enclosingRule?, h.sameTree.parent?_eq, funext h.isRule]

theorem Refers.congr (h : SameRules s t) {k k' : Kind} (hk : Refers options t id new k k') :
    Refers options s id new k k' := by
  cases k with
  | declaration property value important =>
    rcases hk with hk | ⟨hcontains, rule, value', keys, hrule, hvalue, hkind, hnew⟩
    · exact .inl hk
    · rw [h.enclosingRule?_eq] at hrule
      rw [h.sameTree.location_eq] at hvalue
      rw [h.selectors, h.sameTree.path] at hnew
      exact .inr ⟨hcontains, rule, value', keys, hrule, hvalue, hkind, hnew⟩
  | _ => exact hk

theorem sameRules_of_refers {k k' : Kind} (htree : SameTree s s')
    (hothers : ∀ i, i ≠ id → s'.kind? i = s.kind? i)
    (hk : s.kind? id = some k) (hk' : s'.kind? id = some k') (h : Refers options t id new k k') :
    SameRules s s' := by
  obtain ⟨hrule, hrule'⟩ : k.isRule = false ∧ k'.isRule = false := by
    cases k with
    | declaration property value important =>
      rcases h with ⟨-, rfl, -⟩ | ⟨-, _, _, _, -, -, rfl, -⟩ <;> exact ⟨rfl, rfl⟩
    | _ => exact False.elim h
  have hselectors : ∀ {s : Sheet} {k : Kind}, s.kind? id = some k → k.isRule = false →
      s.selectors id = [] := by
    intro s k hk hrule
    rw [selectors, hk]
    cases k <;> first | rfl | simp [Kind.isRule] at hrule
  refine ⟨htree, fun i => ?_, fun i => ?_⟩
  · by_cases hi : i = id
    · rw [hi, isRule, isRule, hk, hk', Option.any_some, Option.any_some, hrule, hrule']
    · rw [isRule, isRule, hothers i hi]
  · by_cases hi : i = id
    · rw [hi, hselectors hk hrule, hselectors hk' hrule']
    · rw [selectors, selectors, hothers i hi]

theorem SameRules.trans (h : SameRules s t) (h' : SameRules t s') : SameRules s s' :=
  ⟨h.sameTree.trans h'.sameTree, fun id => (h'.isRule id).trans (h.isRule id),
    fun id => (h'.selectors id).trans (h.selectors id)⟩

/-- Going over declarations adds the usages of each in turn and edits nothing else. -/
theorem referAll_eq_ok {ids : List Nat} (hrules : SameRules s t) (hnodup : ids.Nodup)
    (hids : ∀ id ∈ ids, t.kind? id = s.kind? id ∧ ∃ k, s.kind? id = some k ∧ k.isDeclaration = true)
    {out : List Usage} (h : referAll options usages ids t = (s', .ok out)) :
    out = usages ++ ids.flatMap (usagesAt options s) ∧
      Edited (fun id => Refers options s id (usagesAt options s id)) ids t s' := by
  induction ids generalizing t usages with
  | nil =>
    cases h
    exact ⟨by simp, edited_nil _⟩
  | cons id ids ih =>
    rw [referAll] at h
    cases hat : referAt options t id with
    | error e =>
      rw [hat] at h
      cases h
    | ok p =>
      obtain ⟨u, new⟩ := p
      rw [hat] at h
      obtain ⟨hsame, k, hk, hdecl⟩ := hids id List.mem_cons_self
      have hkt := hsame.trans hk
      obtain ⟨k', hk', hrefers, htree, hothers⟩ := referAt_eq_ok hkt hdecl hat
      obtain ⟨hid, hnodup⟩ := List.nodup_cons.1 hnodup
      have hrefers' := hrefers.congr hrules
      obtain rfl := hrefers'.usagesAt_eq hk
      have hids' : ∀ i ∈ ids, u.kind? i = s.kind? i ∧ ∃ k, s.kind? i = some k ∧
          k.isDeclaration = true := by
        intro i hi
        obtain ⟨hsame, hdecl⟩ := hids i (List.mem_cons_of_mem id hi)
        exact ⟨(hothers i (fun heq => hid (heq ▸ hi))).trans hsame, hdecl⟩
      obtain ⟨rfl, hedited⟩ :=
        ih (hrules.trans (sameRules_of_refers htree hothers hkt hk' hrefers)) hnodup hids' h
      refine ⟨by simp, (edited_one htree hothers hkt hk' hrefers').cons hid hedited⟩

/-- Rewriting a stylesheet edits its declarations, and the usages are theirs in document order. -/
theorem refer_eq_ok (hs : s.Linked) (h : refer options s = (s', .ok usages)) :
    usages = (s.declarations root).flatMap (usagesAt options s) ∧
      Edited (fun id => Refers options s id (usagesAt options s id))
        (s.declarations root) s s' := by
  refine referAll_eq_ok ⟨.refl s, fun _ => rfl, fun _ => rfl⟩ ((hs.nodup_descendants root).filter _)
    (fun id hid => ?_) h
  obtain ⟨k, hk, hdecl⟩ := (Option.any_eq_true _ _).1 (List.mem_filter.1 hid).2
  exact ⟨rfl, k, hk, hdecl⟩

/-- The keys that a schema reads off the rewritten declarations are the keys of their usages. -/
theorem keys_refer (hs : s.Linked) (hstart : CustomProperty.IsPlainPrefix options.propertyPrefix)
    (hkeyword : options.configKeyword ≠ ")") (h : refer options s = (s', .ok usages)) :
    usages = (s.declarations root).flatMap (usagesAt options s) ∧
      ∀ id ∈ s.declarations root, ∀ property value important,
        s.kind? id = some (.declaration property value important) →
        Value.keys (Schema.markReferences options.propertyPrefix value) = [] →
        (∀ u ∈ usagesAt options s id, u.property = property ∧ u.originalValue = value) ∧
          ∃ value', s'.kind? id = some (.declaration property value' important) ∧
            Value.keys (Schema.markReferences options.propertyPrefix value') =
              (usagesAt options s id).map Usage.key := by
  obtain ⟨husages, hedited⟩ := refer_eq_ok hs h
  refine ⟨husages, fun id hid property value important hk hnone => ?_⟩
  obtain ⟨k', hk', hrefers⟩ := hedited.each id hid _ hk
  rcases hrefers with ⟨-, rfl, hnew⟩ | ⟨-, rule, value', keys, -, hvalue, rfl, hnew⟩
  · rw [hnew]
    exact ⟨by simp, value, hk', hnone⟩
  · rw [hnew]
    refine ⟨?_, value', hk', ?_⟩
    · intro u hu
      obtain ⟨key, -, rfl⟩ := List.mem_map.1 hu
      exact ⟨rfl, rfl⟩
    · rw [keys_referValue hstart hkeyword hvalue hnone, List.map_map]
      exact (List.map_id keys).symm

/-- Calls inside of another function, in a value that is not closed. -/
theorem keys_refer_nested :
    let value := "calc( cfg( a.b ) * cfg()"
    let s := ofStatements "a.css"
      [.mk (.rule ".a") nowhere [.mk (.declaration "width" value false) nowhere []]]
    Value.keys (Schema.markReferences "makeup-" value) = [] ∧
      (usagesAt {} s 2).map Usage.key = ["a.b", "width"] ∧
      ∃ s' usages value', refer {} s = (s', .ok usages) ∧
        usages = (s.declarations root).flatMap (usagesAt {} s) ∧
        s'.kind? 2 = some (.declaration "width" value' false) ∧
        Value.keys (Schema.markReferences "makeup-" value') = ["a.b", "width"] := by
  intro value s
  have hnone : Value.keys (Schema.markReferences "makeup-" value) = [] := by decide +kernel
  have hrecorded : (usagesAt {} s 2).map Usage.key = ["a.b", "width"] := by decide +kernel
  have h : refer {} s = ((refer {} s).1, .ok (usagesAt {} s 2)) := by decide +kernel
  obtain ⟨husages, hkeys⟩ := keys_refer (linked_ofStatements _ _) (by decide) (by decide) h
  obtain ⟨-, value', hkind, hvalue⟩ :=
    hkeys 2 (by decide +kernel) "width" value false (by decide +kernel) hnone
  exact ⟨hnone, hrecorded, _, _, value', h, husages, hkind, hvalue.trans hrecorded⟩

/-- A reference in the place of a parenthesis that was a function's name is read together with the
word in front of it. -/
theorem keys_refer_paren :
    let options : Options := { configKeyword := ")" }
    let s := ofStatements "a.css"
      [.mk (.rule ".a") nowhere [.mk (.declaration "color" "x)(k)" false) nowhere []]]
    Value.keys (Schema.markReferences "makeup-" "x)(k)") = [] ∧
      (refer options s).2 = .ok [⟨[".a"], "color", "x)(k)", "k", "a.css"⟩] ∧
      (refer options s).1.kind? 2 = some (.declaration "color" "xvar(--makeup-k)" false) ∧
      Value.keys (Schema.markReferences "makeup-" "xvar(--makeup-k)") = [] := by
  decide +kernel

end CssTheming.Compile
