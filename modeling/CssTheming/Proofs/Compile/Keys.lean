import CssTheming.Proofs.Compile.Basic

/-!
# Keys that come out are resolved

Keys are checked where they are read, and what compiling makes of a checked key is resolved: with
its slash taken off, or put behind a namespace. So a full key passes the check that is made of it,
and the keys of usages and of context classes are written in the characters of keys alone.
-/

namespace CssTheming

namespace Key

/-- The grammar of resolved keys, character by character. -/
structure Plain (key : String) : Prop where
  ne_empty : key ≠ ""
  chars : ∀ c ∈ key.toList, c.isAlphanum = true ∨ c = '_' ∨ c = '.' ∨ c = '-'
  unslashed : '/' ∉ key.toList
  unquoted : hasQuote key = false

variable {component key : String}

theorem spelled_of_isKeyChar {c : Char} (h : isKeyChar c = true) :
    (c.isAlphanum = true ∨ c = '_' ∨ c = '.' ∨ c = '-') ∧ c ≠ '/' ∧
      (c = '"' || c = '\'' || c = '\x60') = false := by
  have hlt := CustomProperty.toNat_lt_of_isKeyChar h
  revert h
  exact Identifier.forall_ascii (p := fun c => isKeyChar c = true →
    (c.isAlphanum = true ∨ c = '_' ∨ c = '.' ∨ c = '-') ∧ c ≠ '/' ∧
      (c = '"' || c = '\'' || c = '\x60') = false) (by decide) hlt

theorem plain_of_isResolved (h : isResolved key = true) : Plain key where
  ne_empty := by
    rintro rfl
    exact absurd h (by decide)
  chars c hc := (spelled_of_isKeyChar (isKeyChar_of_isResolved h c hc)).1
  unslashed hslash := (spelled_of_isKeyChar (isKeyChar_of_isResolved h '/' hslash)).2.1 rfl
  unquoted := by
    rw [hasQuote, List.any_eq_false]
    intro c hc
    rw [(spelled_of_isKeyChar (isKeyChar_of_isResolved h c hc)).2.2]
    exact Bool.false_ne_true

/-- What a checked key stands for in a namespace is resolved. -/
theorem isResolved_within (hcomponent : component = "" ∨ isResolved component = true)
    (hkey : isValid key = true) : isResolved (within component key) = true := by
  rw [within]
  cases hroot : isRooted key with
  | true => exact isResolved_unrooted hkey
  | false =>
    have hresolved := isResolved_of_not_isRooted hkey hroot
    rcases hcomponent with rfl | hcomponent
    · exact hresolved
    · simp only [Bool.false_eq_true, if_false]
      split
      · exact hresolved
      · exact isResolved_append hcomponent hresolved

end Key

namespace Compile

open Sheet

variable {options : Options} {s s' t : Sheet} {id : Nat} {ids : List Nat}
    {keyword component : String} {found components : Components}

/-! ## Namespaces -/

/-- Keys of components, without slashes and joined by dots. -/
def IsNamespace (components : Components) (component : String) : Prop :=
  ∃ keys : List String, (∀ key ∈ keys, ∃ p ∈ components, key = Key.unrooted p.2) ∧
    component = ".".intercalate keys

theorem isValid_of_collectComponents (hfound : ∀ p ∈ found, Key.isValid p.2 = true)
    (h : collectComponents s keyword found ids = .ok components) :
    ∀ p ∈ components, Key.isValid p.2 = true := by
  induction ids generalizing found with
  | nil =>
    cases h
    exact hfound
  | cons id ids ih =>
    rw [collectComponents] at h
    split at h
    · rename_i name key hasBlock block hk hparent
      split at h
      · cases h
      rename_i hcheck
      split at h
      · cases h
      refine ih (fun p hp => ?_) h
      rcases List.mem_append.1 hp with hp | hp
      · exact hfound p hp
      · rw [List.mem_singleton.1 hp]
        exact checkKey_eq_ok.1 hcheck
    · exact ih hfound h

section Collected

variable (hvalid : ∀ p ∈ components, Key.isValid p.2 = true)
include hvalid

theorem exists_of_mem_componentPath {as : List Nat} {key : String}
    (hkey : key ∈ componentPath components as) : ∃ p ∈ components, key = Key.unrooted p.2 := by
  induction as with
  | nil => simp [componentPath] at hkey
  | cons a as ih =>
    rw [componentPath] at hkey
    split at hkey
    · exact ih hkey
    rename_i own hown
    obtain ⟨front, back, hcomponents, -⟩ := List.lookup_eq_some_iff.1 hown
    have hmem : (a, own) ∈ components := by simp [hcomponents]
    split at hkey
    · exact ⟨(a, own), hmem, List.mem_singleton.1 hkey⟩
    rename_i hroot
    rcases List.mem_cons.1 hkey with rfl | hkey
    · have hresolved := Key.isResolved_of_not_isRooted (hvalid _ hmem) (by simpa using hroot)
      exact ⟨(a, key), hmem, (Key.unrooted_of_isResolved hresolved).symm⟩
    · exact ih hkey

theorem isNamespace_componentOf (s : Sheet) (id : Nat) :
    IsNamespace components (componentOf components s id) :=
  ⟨_, fun _ hkey => exists_of_mem_componentPath hvalid (List.mem_reverse.1 hkey), rfl⟩

/-- Every site gets a namespace. -/
theorem isNamespace_of_mem_componentSites
    (h : (id, component) ∈ componentSites options components s) :
    IsNamespace components component := by
  rw [componentSites.eq_def] at h
  split at h
  · simp at h
  · rename_i block key
    obtain ⟨_, -, h⟩ := List.mem_map.1 h
    obtain ⟨-, rfl⟩ := Prod.mk.inj h
    exact ⟨[Key.unrooted key], by simp, (String.intercalate_singleton).symm⟩
  · obtain ⟨_, -, h⟩ := List.mem_map.1 (List.mem_filter.1 h).1
    obtain ⟨-, rfl⟩ := Prod.mk.inj h
    exact isNamespace_componentOf hvalid s _

theorem IsNamespace.eq_empty_or (h : IsNamespace components component) :
    component = "" ∨ Key.isResolved component = true := by
  obtain ⟨keys, hkeys, rfl⟩ := h
  by_cases hne : keys = []
  · subst hne
    exact .inl rfl
  · refine .inr (Key.isResolved_intercalate hne fun key hkey => ?_)
    obtain ⟨p, hp, rfl⟩ := hkeys key hkey
    exact Key.isResolved_unrooted (hvalid p hp)

/-- In a namespace only the first check of a full key can fail. -/
theorem IsNamespace.fullKey_eq (h : IsNamespace components component) (location : Location)
    (key : String) :
    fullKey location component key =
      (checkKey location key).map fun () => Key.within component key := by
  rw [fullKey]
  cases hcheck : checkKey location key with
  | error e => rfl
  | ok u =>
    have hresolved := Key.isResolved_within (h.eq_empty_or hvalid) (checkKey_eq_ok.1 hcheck)
    have hfull : checkKey location (Key.within component key) = .ok () :=
      checkKey_eq_ok.2 (by rw [Key.isValid, hresolved, Bool.true_or])
    change (checkKey location (Key.within component key) >>= fun _ => _) = _
    rw [hfull]
    rfl

end Collected

/-! ## Contexts -/

/-- What composing makes of a kind. -/
def composed (options : Options) : Kind → Kind
  | .atRule _ params _ => composition options (contextKey params)
  | kind => kind

/-- An at-rule that composing accepts. -/
def Composable (s : Sheet) (id : Nat) : Prop :=
  ∀ name params hasBlock, s.kind? id = some (.atRule name params hasBlock) →
    hasBlock = false ∧ Key.isValid (contextKey params) = true

theorem composeAt_kind? (h : composeAt options s id = .ok s') :
    Composable s id ∧
      ∀ i, s'.kind? i = if i = id then (s.kind? i).map (composed options) else s.kind? i := by
  rw [composeAt] at h
  split at h
  · cases h
  · rename_i name params hk
    obtain ⟨_, hcheck, rfl⟩ := map_eq_ok.1 h
    refine ⟨fun name' params' hasBlock hk' => ?_, fun i => ?_⟩
    · cases hk.symm.trans hk'
      exact ⟨rfl, checkKey_eq_ok.1 hcheck⟩
    · rw [kind?_replace hk]
      split
      · rename_i hi
        rw [hi, hk]
        rfl
      · rfl
  · rename_i hblock hline
    cases h
    have hother : ∀ name params hasBlock, s.kind? id ≠ some (.atRule name params hasBlock) := by
      intro name params hasBlock hk
      cases hasBlock with
      | true => exact hblock name params hk
      | false => exact hline name params hk
    refine ⟨fun name params hasBlock hk => absurd hk (hother _ _ _), fun i => ?_⟩
    split
    · rename_i hi
      subst hi
      cases hk : s.kind? i with
      | none => rfl
      | some k =>
        cases k with
        | atRule name params hasBlock => exact absurd hk (hother name params hasBlock)
        | _ => rfl
    · rfl

theorem composed_composed (options : Options) (k : Kind) :
    composed options (composed options k) = composed options k := by
  cases k <;> rfl

/-- Composing is done once and for all, so it does not matter whether a node comes up again. -/
theorem composeAll_kind? (h : composeAll options ids s = (s', .ok ())) :
    (∀ id ∈ ids, Composable s id) ∧
      ∀ i, s'.kind? i = if i ∈ ids then (s.kind? i).map (composed options) else s.kind? i := by
  induction ids generalizing s with
  | nil =>
    cases h
    exact ⟨by simp, fun i => rfl⟩
  | cons id ids ih =>
    rw [composeAll] at h
    cases hat : composeAt options s id with
    | error e =>
      rw [hat] at h
      cases h
    | ok t =>
      rw [hat] at h
      obtain ⟨hid, hone⟩ := composeAt_kind? hat
      obtain ⟨hids, hrest⟩ := ih h
      refine ⟨fun i hi => ?_, fun i => ?_⟩
      · by_cases heq : i = id
        · exact heq ▸ hid
        · have hi := hids i ((List.mem_cons.1 hi).resolve_left heq)
          rwa [Composable, hone i, if_neg heq] at hi
      · rw [hrest i, hone i]
        by_cases heq : i = id
        · rw [if_pos heq, if_pos (List.mem_cons.2 (.inl heq)), Option.map_map]
          split
          · congr 1
            exact funext (composed_composed options)
          · rfl
        · rw [if_neg heq]
          simp only [List.mem_cons, heq, false_or]

/-- The context at-rules of a stylesheet, and no other node, become compositions of plain keys. -/
theorem compose_kind? {n : Nat} (h : compose options s = (s', .ok n)) :
    (∀ id ∈ s.atRulesNamed root options.contextKeyword, ∃ params,
      s.kind? id = some (.atRule options.contextKeyword params false) ∧
        Key.Plain (Key.unrooted (contextKey params)) ∧
        s'.kind? id = some (composition options (contextKey params))) ∧
      ∀ id ∉ s.atRulesNamed root options.contextKeyword, s'.kind? id = s.kind? id := by
  rw [compose] at h
  split at h
  · cases h
  obtain ⟨hsheet, hresult⟩ := Prod.mk.inj h
  obtain ⟨_, hall, -⟩ := map_eq_ok.1 hresult
  obtain ⟨hcomposable, hkind⟩ := composeAll_kind? (Prod.ext hsheet hall)
  refine ⟨fun id hid => ?_, fun id hid => by rw [hkind id, if_neg hid]⟩
  obtain ⟨-, params, hasBlock, hk⟩ := exists_of_mem_atRulesNamed hid
  obtain ⟨rfl, hvalid⟩ := hcomposable id hid _ _ _ hk
  refine ⟨params, hk, Key.plain_of_isResolved (Key.isResolved_unrooted hvalid), ?_⟩
  rw [hkind id, if_pos hid, hk]
  rfl

/-! ## Usages -/

variable {usages new : List Usage}

theorem isResolved_of_referAt (h : referAt options s id = .ok (s', new)) :
    ∀ usage ∈ new, Key.isResolved usage.key = true := by
  rw [referAt] at h
  split at h
  · split at h
    · split at h
      · cases h
      · obtain ⟨⟨value', keys⟩, hvalue, h⟩ := map_eq_ok.1 h
        cases h
        obtain ⟨-, rfl, haccepted⟩ := referValue_eq_ok hvalue
        intro usage husage
        obtain ⟨key, hkey, rfl⟩ := List.mem_map.1 husage
        obtain ⟨n, hn, rfl⟩ := List.mem_map.1 hkey
        exact Key.isResolved_unrooted (haccepted n hn).valid
    · cases h
      simp
  · cases h
    simp

theorem isResolved_of_referAll {out : List Usage}
    (husages : ∀ usage ∈ usages, Key.isResolved usage.key = true)
    (h : referAll options usages ids s = (s', .ok out)) :
    ∀ usage ∈ out, Key.isResolved usage.key = true := by
  induction ids generalizing s usages with
  | nil =>
    cases h
    exact husages
  | cons id ids ih =>
    rw [referAll] at h
    split at h
    · rename_i t new hat
      refine ih (fun usage husage => ?_) h
      rcases List.mem_append.1 husage with husage | husage
      · exact husages usage husage
      · exact isResolved_of_referAt hat usage husage
    · cases h

/-! ## Compiled stylesheets -/

/-- The keys of usages are plain, and so are those of the classes that context at-rules become. In
the namespaces of a stylesheet's components, those of its sites among them, a full key is refused
where the key is, and never for itself. -/
theorem plain_keys (options : Options) :
    (∀ source path compiled, compile source path options = .ok compiled →
      (∀ usage ∈ compiled.usages, Key.Plain usage.key) ∧
      ∃ s t u s' n, Sheet.parse source path = .ok s ∧ expand options s = (t, .ok ()) ∧
        compose options t = (u, .ok n) ∧ refer options u = (s', .ok compiled.usages) ∧
        compiled.css = s'.css ∧
        (∀ id ∈ t.atRulesNamed root options.contextKeyword, ∃ params key,
          t.kind? id = some (.atRule options.contextKeyword params false) ∧
            key = Key.unrooted (contextKey params) ∧ Key.Plain key ∧
            u.kind? id = some (.declaration "composes"
              (ContextClass.name options.contextClassPrefix key ++ " from global") false)) ∧
        ∀ id ∉ t.atRulesNamed root options.contextKeyword, u.kind? id = t.kind? id) ∧
    ∀ s components, collectComponents s options.componentKeyword []
        (s.atRulesNamed root options.componentKeyword) = .ok components →
      (∀ t id component, (id, component) ∈ componentSites options components t →
        IsNamespace components component) ∧
      ∀ component, IsNamespace components component → ∀ key,
        (Key.isValid key = true → Key.isValid (Key.within component key) = true) ∧
        ∀ location, fullKey location component key =
          (checkKey location key).map fun () => Key.within component key := by
  refine ⟨fun source path compiled hcompile => ?_, fun s components hcollected => ?_⟩
  · obtain ⟨⟨_, stats⟩, hstats, rfl⟩ := map_eq_ok.1 hcompile
    obtain ⟨s, hparse, hstats⟩ := bind_eq_ok.1 hstats
    obtain ⟨⟨s', usages, n⟩, hrewrite, hstats⟩ := bind_eq_ok.1 hstats
    cases hstats
    obtain ⟨t, u, hexpand, hcompose, hrefer⟩ := rewrite_eq_ok hrewrite
    obtain ⟨hcontexts, hothers⟩ := compose_kind? hcompose
    refine ⟨fun usage husage => ?_, s, t, u, s', n, hparse, hexpand, hcompose, hrefer, rfl, ?_,
      hothers⟩
    · exact Key.plain_of_isResolved (isResolved_of_referAll (by simp) hrefer usage husage)
    · intro id hid
      obtain ⟨params, hk, hplain, hkind⟩ := hcontexts id hid
      exact ⟨params, _, hk, rfl, hplain, hkind⟩
  · have hvalid := isValid_of_collectComponents (by simp) hcollected
    refine ⟨fun t id component hsite => isNamespace_of_mem_componentSites hvalid hsite,
      fun component hcomponent key => ⟨fun hkey => ?_, fun location => ?_⟩⟩
    · rw [Key.isValid, Key.isResolved_within (hcomponent.eq_empty_or hvalid) hkey, Bool.true_or]
    · exact hcomponent.fullKey_eq hvalid location key

/-- Components in each other, one of them rooted, and a context without a key. -/
theorem plain_keys_nested :
    let source := "a\x7b@component x;b\x7b@component y;color:cfg(k) cfg();" ++
      "c\x7b@component /z;@context;top:cfg(k) cfg('/k')\x7d\x7d\x7d"
    let s := (Sheet.parse source "a.css").toOption.getD default
    let components : Components := [(1, "x"), (3, "y"), (6, "/z")]
    (∃ compiled, compile source "a.css" {} = .ok compiled ∧
      compiled.usages.map (·.key) = ["x.y.k", "x.y.color", "z.k", "k"] ∧
      ∀ usage ∈ compiled.usages, Key.Plain usage.key) ∧
    collectComponents s "component" [] (s.atRulesNamed root "component") = .ok components ∧
      IsNamespace components "x.y" ∧ Key.isValid "k" = true ∧
      Key.isValid (Key.within "x.y" "k") = true ∧
      fullKey ⟨"a.css", .start⟩ "x.y" "k" = .ok "x.y.k" := by
  intro source s components
  obtain ⟨hcompile, hkeys, hcollected, hsite⟩ :
      compile source "a.css" {} = .ok ((compile source "a.css" {}).toOption.getD ⟨"", "", []⟩) ∧
      ((compile source "a.css" {}).toOption.getD ⟨"", "", []⟩).usages.map (·.key) =
        ["x.y.k", "x.y.color", "z.k", "k"] ∧
      collectComponents s "component" [] (s.atRulesNamed root "component") = .ok components ∧
      (5, "x.y") ∈ componentSites {} components s := by decide +kernel
  obtain ⟨hplain, -⟩ := (plain_keys {}).1 source "a.css" _ hcompile
  obtain ⟨hnamespaces, hfull⟩ := (plain_keys {}).2 s components hcollected
  have hnamespace := hnamespaces s 5 "x.y" hsite
  obtain ⟨hvalid, hfull⟩ := hfull "x.y" hnamespace "k"
  exact ⟨⟨_, hcompile, hkeys, hplain⟩, hcollected, hnamespace, by decide, hvalid (by decide),
    (hfull _).trans (by decide)⟩

end Compile

end CssTheming
