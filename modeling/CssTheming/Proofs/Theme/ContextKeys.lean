import CssTheming.Proofs.Theme.Accepted

/-!
# Keys that name contexts

A mapping inside a tree is looked at before its keys are taken for names, so there a key that names
a context never becomes a part of a path. The keys of the tree itself are not looked at: each of
them is a name, and the first on the paths of the leaves below it.
-/

namespace CssTheming.Theme

variable {g : Grammar} {keys : List Document} {tree entries : List (Document × Document)}
  {v : Visit} {l : RawLeaf} {source : ThemeSource} {t : Theme}

/-- Whether a mapping's key names a context. -/
def isContextKey : Document → Bool
  | .text key => Key.isContext key
  | _ => false

theorem isContextEntry_eq (e : Document × Document) : isContextEntry e = isContextKey e.1 := by
  obtain ⟨key, value⟩ := e
  cases key <;> rfl

/-! ## Paths -/

theorem mem_visits :
    v ∈ visits keys entries ↔ ∃ e ∈ entries, v ∈ visitsAt (keys ++ [e.1]) e.2 := by
  induction entries with
  | nil => simp [visits]
  | cons e rest ih => simp [visits, ih]

theorem keys_of_mem_leaves (h : l ∈ v.leaves) : l.keys = v.keys := by
  obtain ⟨keys, value⟩ := v
  cases value with
  | tagged => exact absurd h List.not_mem_nil
  | mapping entries =>
    rw [leaves_mapping] at h
    split at h
    · obtain ⟨e, -, rfl⟩ := List.mem_map.1 h
      rfl
    · exact absurd h List.not_mem_nil
  | _ =>
    obtain rfl := List.mem_singleton.1 h
    rfl

/-- A mapping that is entered has no keys that name contexts. -/
theorem Visit.Sound.not_isContextEntry (h : Visit.Sound g ⟨keys, .mapping entries⟩)
    (hall : ¬entries.all isContextEntry = true) : ∀ e ∈ entries, isContextEntry e = false :=
  (h.uniform entries rfl).resolve_right fun hcontexts => hall (List.all_eq_true.2 hcontexts.1)

mutual
theorem keys_of_mem_visitsAt : ∀ (d : Document) {keys : List Document} {v : Visit},
    (∀ u ∈ visitsAt keys d, u.Sound g) → v ∈ visitsAt keys d →
      ∃ below, v.keys = keys ++ below ∧ ∀ key ∈ below, isContextKey key = false
  | .tagged _ value, keys, v, hsound, h => by
    rw [visitsAt] at hsound h
    rcases List.mem_cons.1 h with rfl | h
    · exact ⟨[], by simp⟩
    · exact keys_of_mem_visitsAt value (List.forall_mem_cons.1 hsound).2 h
  | .mapping entries, keys, v, hsound, h => by
    rw [visitsAt] at hsound h
    obtain ⟨hself, hbelow⟩ := List.forall_mem_cons.1 hsound
    rcases List.mem_cons.1 h with rfl | h
    · exact ⟨[], by simp⟩
    split at h
    · exact absurd h List.not_mem_nil
    · rename_i hall
      rw [if_neg hall] at hbelow
      exact keys_of_mem_visits entries (hself.not_isContextEntry hall) hbelow h
  | .null, _, _, _, h | .bool _, _, _, _, h | .number _, _, _, _, h | .text _, _, _, _, h
  | .list _, _, _, _, h => by
    obtain rfl := List.mem_singleton.1 h
    exact ⟨[], by simp⟩

/-- Inside a sound tree no path leads through a key that names a context. -/
theorem keys_of_mem_visits : ∀ (entries : List (Document × Document)) {keys : List Document}
    {v : Visit}, (∀ e ∈ entries, isContextEntry e = false) →
    (∀ u ∈ visits keys entries, u.Sound g) → v ∈ visits keys entries →
      ∃ below, v.keys = keys ++ below ∧ ∀ key ∈ below, isContextKey key = false
  | (key, value) :: rest, keys, v, hkeys, hsound, h => by
    rw [visits] at hsound h
    obtain ⟨hfirst, hrest⟩ := List.forall_mem_append.1 hsound
    obtain ⟨hkey, hkeys⟩ := List.forall_mem_cons.1 hkeys
    rcases List.mem_append.1 h with h | h
    · obtain ⟨below, heq, hbelow⟩ := keys_of_mem_visitsAt value hfirst h
      refine ⟨key :: below, by rw [heq, List.append_assoc, List.singleton_append], ?_⟩
      exact List.forall_mem_cons.2 ⟨isContextEntry_eq (key, value) ▸ hkey, hbelow⟩
    · exact keys_of_mem_visits rest hkeys hrest h
end

mutual
/-- Below each node of a sound tree there is a leaf. -/
theorem exists_leaf_of_visitsAt : ∀ (d : Document) {keys : List Document},
    (∀ u ∈ visitsAt keys d, u.Sound g) → ∃ v ∈ visitsAt keys d, ∃ l, l ∈ v.leaves
  | .tagged _ value, keys, hsound => by
    rw [visitsAt] at hsound ⊢
    obtain ⟨v, hv, hl⟩ := exists_leaf_of_visitsAt value (List.forall_mem_cons.1 hsound).2
    exact ⟨v, List.mem_cons_of_mem _ hv, hl⟩
  | .mapping entries, keys, hsound => by
    rw [visitsAt] at hsound ⊢
    obtain ⟨hself, hbelow⟩ := List.forall_mem_cons.1 hsound
    have hne := hself.nonempty entries rfl
    by_cases hall : entries.all isContextEntry = true
    · obtain ⟨e, he⟩ := List.exists_mem_of_ne_nil _ hne
      refine ⟨_, List.mem_cons_self, ⟨keys, some (entryContext e.1), e.2⟩, ?_⟩
      rw [leaves_mapping, if_pos hall]
      exact List.mem_map_of_mem he
    · rw [if_neg hall] at hbelow ⊢
      obtain ⟨v, hv, hl⟩ := exists_leaf_of_visits entries hne hbelow
      exact ⟨v, List.mem_cons_of_mem _ hv, hl⟩
  | .null, keys, _ | .bool _, keys, _ | .number _, keys, _ | .text _, keys, _
  | .list _, keys, _ => ⟨_, List.mem_singleton_self _, _, List.mem_singleton_self _⟩

theorem exists_leaf_of_visits : ∀ (entries : List (Document × Document)) {keys : List Document},
    entries ≠ [] → (∀ u ∈ visits keys entries, u.Sound g) →
      ∃ v ∈ visits keys entries, ∃ l, l ∈ v.leaves
  | (key, value) :: rest, keys, _, hsound => by
    rw [visits] at hsound ⊢
    obtain ⟨v, hv, hl⟩ := exists_leaf_of_visitsAt value (List.forall_mem_append.1 hsound).1
    exact ⟨v, List.mem_append_left _ hv, hl⟩
end

/-! ## Trees -/

section Tree

variable (hsound : ∀ v ∈ visits [] tree, v.Sound g)

include hsound

theorem sound_of_mem {e : Document × Document} (he : e ∈ tree) :
    ∀ u ∈ visitsAt [e.1] e.2, u.Sound g :=
  fun u hu => hsound u (mem_visits.2 ⟨e, he, hu⟩)

theorem keys_of_mem_rawLeaves (hl : l ∈ rawLeaves tree) :
    ∃ e ∈ tree, ∃ below, l.keys = e.1 :: below ∧ ∀ key ∈ below, isContextKey key = false := by
  obtain ⟨v, hv, hleaf⟩ := mem_rawLeaves.1 hl
  obtain ⟨e, he, hv⟩ := mem_visits.1 hv
  obtain ⟨below, heq, hkeys⟩ := keys_of_mem_visitsAt e.2 (sound_of_mem hsound he) hv
  exact ⟨e, he, below, (keys_of_mem_leaves hleaf).trans heq, hkeys⟩

theorem exists_rawLeaf_of_mem {e : Document × Document} (he : e ∈ tree) :
    ∃ l ∈ rawLeaves tree, e.1 ∈ l.keys := by
  obtain ⟨v, hv, l, hl⟩ := exists_leaf_of_visitsAt e.2 (sound_of_mem hsound he)
  obtain ⟨below, heq, -⟩ := keys_of_mem_visitsAt e.2 (sound_of_mem hsound he) hv
  refine ⟨l, mem_rawLeaves.2 ⟨v, mem_visits.2 ⟨e, he, hv⟩, hl⟩, ?_⟩
  rw [keys_of_mem_leaves hl, heq]
  exact List.mem_cons_self

theorem not_isContextKey_of_mem_tail (hl : l ∈ rawLeaves tree) :
    ∀ key ∈ l.keys.tail, isContextKey key = false := by
  obtain ⟨e, -, below, heq, hbelow⟩ := keys_of_mem_rawLeaves hsound hl
  rw [heq]
  exact hbelow

/-- A path leads through a key that names a context only where the tree itself has such a key. -/
theorem exists_isContextKey_iff :
    (∃ l ∈ rawLeaves tree, ∃ key ∈ l.keys, isContextKey key = true) ↔
      ∃ e ∈ tree, isContextKey e.1 = true := by
  constructor
  · rintro ⟨l, hl, key, hkey, hcontext⟩
    obtain ⟨e, he, below, heq, hbelow⟩ := keys_of_mem_rawLeaves hsound hl
    rw [heq] at hkey
    rcases List.mem_cons.1 hkey with rfl | hkey
    · exact ⟨e, he, hcontext⟩
    · exact absurd hcontext (by simp [hbelow key hkey])
  · rintro ⟨e, he, hcontext⟩
    obtain ⟨l, hl, hkey⟩ := exists_rawLeaf_of_mem hsound he
    exact ⟨l, hl, e.1, hkey, hcontext⟩

/-- A key of a mapping inside a tree that names a context makes a leaf for it. -/
theorem rawLeaf_of_isContextKey (hv : v ∈ visits [] tree) (hentries : v.value = .mapping entries)
    {e : Document × Document} (he : e ∈ entries) (hcontext : isContextKey e.1 = true) :
    g.contexts = true ∧ ⟨v.keys, some (entryContext e.1), e.2⟩ ∈ rawLeaves tree := by
  rw [← isContextEntry_eq] at hcontext
  rcases (hsound v hv).uniform entries hentries with hnone | ⟨hall, hcontexts⟩
  · exact absurd hcontext (by simp [hnone e he])
  · refine ⟨hcontexts, mem_rawLeaves.2 ⟨v, hv, ?_⟩⟩
    obtain ⟨keys, value⟩ := v
    obtain rfl : value = .mapping entries := hentries
    rw [leaves_mapping, if_pos (List.all_eq_true.2 hall)]
    exact List.mem_map_of_mem he

end Tree

/-! ## Themes -/

/-- In a source with a theme a key that names a context, and stands inside another key, is no part
of the key of a token or a value: there is a value for that context, and in the tokens no such key.
But the keys of the two trees themselves are not looked at, and each of them that names a context is
a part of a key. -/
theorem contextKeys_of_ofSource (h : ofSource source = .ok t) :
    ∃ tokens, tokenTable source = .ok tokens ∧
      (∀ key, (tokens.get? key).isSome = true ↔
        ∃ l ∈ rawLeaves (source.tokens.getD []), l.slot = (key, none)) ∧
      (∀ key context, (t.get? key context).isSome = true ↔
        ∃ l ∈ rawLeaves source.components, l.slot = (key, context)) ∧
      (∀ tree ∈ [source.tokens.getD [], source.components],
        (∀ l ∈ rawLeaves tree, ∀ key ∈ l.keys.tail, isContextKey key = false) ∧
        ((∃ l ∈ rawLeaves tree, ∃ key ∈ l.keys, isContextKey key = true) ↔
          ∃ e ∈ tree, isContextKey e.1 = true)) ∧
      (∀ v ∈ visits [] (source.tokens.getD []), ∀ entries, v.value = .mapping entries →
        ∀ e ∈ entries, isContextKey e.1 = false) ∧
      ∀ v ∈ visits [] source.components, ∀ entries, v.value = .mapping entries →
        ∀ e ∈ entries, isContextKey e.1 = true →
          (t.get? (dotted (elementNames v.keys)) (some (entryContext e.1))).isSome = true := by
  obtain ⟨tokens, htokens, hcomponents, rfl⟩ := ofSource_eq_ok_iff.1 h
  refine ⟨tokens, htokens, ?_⟩
  obtain ⟨htree, rfl⟩ := tokenTable_eq_ok_iff.1 htokens
  refine ⟨fun key => isSome_get?_ofLeaves_read key none, isSome_get?_ofLeaves_read, ?_, ?_, ?_⟩
  · refine List.forall_mem_cons.2 ⟨?_, List.forall_mem_singleton.2 ?_⟩
    · exact ⟨fun l => not_isContextKey_of_mem_tail htree, exists_isContextKey_iff htree⟩
    · exact ⟨fun l => not_isContextKey_of_mem_tail hcomponents, exists_isContextKey_iff hcomponents⟩
  · intro v hv entries hentries e he
    by_contra hcontext
    have hallowed := (rawLeaf_of_isContextKey htree hv hentries he (by simpa using hcontext)).1
    exact absurd hallowed Bool.false_ne_true
  · intro v hv entries hentries e he hcontext
    have hleaf := (rawLeaf_of_isContextKey hcomponents hv hentries he hcontext).2
    exact (isSome_get?_ofLeaves_read _ _).2 ⟨_, hleaf, rfl⟩

/-- The color of a button is for a context, and what stands beside the button under `$light` is
not. -/
theorem contextKeys_of_ofSource_button :
    let source : ThemeSource := ⟨
      [(.text "button", .mapping [(.text "color", .mapping [
          (.text "$light", .text "white"), (.text "$dark", .text "black")])]),
        (.text "$light", .mapping [(.text "font", .text "serif")])],
      some [(.text "ink", .mapping [(.text "pale", .text "gray")])]⟩
    let t := (ofSource source).toOption.getD .empty
    ofSource source = .ok t ∧
      (∀ l ∈ rawLeaves source.components, ∀ key ∈ l.keys.tail, isContextKey key = false) ∧
      (∃ l ∈ rawLeaves source.components, ∃ key ∈ l.keys, isContextKey key = true) ∧
      ¬∃ l ∈ rawLeaves (source.tokens.getD []), ∃ key ∈ l.keys, isContextKey key = true := by
  intro source t
  have hsource : ofSource source = .ok t := eq_ok_of_isOk (by decide +kernel) _
  obtain ⟨tokens, -, -, -, htrees, -, -⟩ := contextKeys_of_ofSource hsource
  obtain ⟨htokens, hcomponents⟩ := List.forall_mem_cons.1 htrees
  obtain ⟨htail, hkeys⟩ := List.forall_mem_singleton.1 hcomponents
  refine ⟨hsource, htail, hkeys.2 ?_, fun h => ?_⟩
  · decide +kernel
  · exact absurd (htokens.2.1 h) (by decide +kernel)

/-- A context's key beside another one, as in `$light: white` and `b: 1`, is refused inside a tree,
and the components themselves are accepted with it. Then `$light` is a key for all contexts, as
`$ink` is a token's. -/
theorem ofSource_contextKey :
    let source : ThemeSource := ⟨
      [(.text "$light", .text "white"), (.text "b", .number (.int 1))],
      some [(.text "$ink", .text "black")]⟩
    let tokens := (tokenTable source).toOption.getD .empty
    let t := (ofSource source).toOption.getD .empty
    tokenTable source = .ok tokens ∧ tokens.keys = ["$ink"] ∧
      ofSource source = .ok t ∧ t.contextless.keys = ["$light", "b"] ∧ t.contexts = [] ∧
      (∃ l ∈ rawLeaves source.components, ∃ key ∈ l.keys,
        isContextKey key = true ∧ (t.get? (dotted (elementNames l.keys)) l.context).isSome = true) ∧
      (leavesAt ⟨true, some tokens⟩ [] (.mapping source.components)).isOk = false := by
  intro source tokens t
  exact ⟨eq_ok_of_isOk (by decide +kernel) _, by decide +kernel,
    eq_ok_of_isOk (by decide +kernel) _, by decide +kernel, by decide +kernel, by decide +kernel,
    by decide +kernel⟩

end CssTheming.Theme
