import CssTheming.Proofs.Compile.Basic
import CssTheming.Proofs.Compile.Expansion
import CssTheming.Proofs.Identifier
import CssTheming.Proofs.Value.Quiet

/-!
# Rewritten stylesheets are settled

A settled stylesheet has no component and no context at-rule, and its declarations call no function
that they could refer to: rewriting leaves it alone. What rewriting makes of a stylesheet is
settled, so rewriting twice is rewriting once.
-/

namespace CssTheming.Compile

open Value Sheet

variable {options : Options} {location : Location} {property value value' : String}
  {keys : List String}

/-! ## Values -/

theorem wordy_continuesName {c : Char} (hc : Identifier.continuesName c = true) : Wordy [c] := by
  refine .char ?_ .nil
  by_cases hplain : Identifier.isPlain c = true
  · exact .inr ((Identifier.not_endsWord_of_continuesName hplain hc).imp_right And.left)
  · -- Of the characters that go on with a name only white space beyond ASCII is not plain.
    by_cases hlt : c.toNat < 128
    · have hascii := Identifier.forall_ascii (p := fun c => Identifier.continuesName c = true →
        Identifier.isPlain c = true) (by decide) hlt hc
      exact absurd hascii hplain
    · have hdel : c ≠ '\x7f' := by
        rintro rfl
        exact hlt (by decide)
      have hcontrol : ¬c.toNat < 0x20 := by omega
      simp [Identifier.isPlain, hdel, hcontrol, hlt] at hplain
      exact .inl hplain

theorem wordy_hexEscape {c : Char} (hc : c.toNat < 128) : Wordy (Identifier.hexEscape c) := by
  have hdigit : ∀ n < 16, endsWord n.digitChar = false ∧ n.digitChar ≠ '\\' := by decide
  have hspace : Wordy [' '] := .char (.inl rfl) .nil
  rw [Identifier.hexEscape]
  rcases Identifier.toDigits_ascii hc with ⟨hdigits, -⟩ | ⟨hdigits, -⟩
  · rw [hdigits]
    exact .escape hspace
  · rw [hdigits]
    exact .escape (.char (.inr (hdigit _ (Nat.mod_lt _ (by decide)))) hspace)

theorem wordy_encodeChar (c : Char) : Wordy (Identifier.encodeChar c) := by
  rw [Identifier.encodeChar]
  split
  · rename_i hc
    exact wordy_continuesName hc
  split
  · exact wordy_continuesName rfl
  split
  · rename_i hcontrol
    apply wordy_hexEscape
    simp at hcontrol
    rcases hcontrol with h | rfl
    · omega
    · decide
  · exact .escape .nil

theorem wordy_name (start key : String) : Wordy (CustomProperty.name start key).toList := by
  rw [CustomProperty.toList_name]
  refine .char (.inr ⟨rfl, by decide⟩) (.char (.inr ⟨rfl, by decide⟩) ?_)
  generalize (start ++ key).toList = cs
  induction cs with
  | nil => exact .nil
  | cons c cs ih =>
    rw [Identifier.encodeNameChars, List.flatMap_cons]
    exact (wordy_encodeChar c).append ih

theorem joins_referenceFunction : Joins referenceFunction.toList where
  whole := ⟨by decide, by decide, by decide⟩
  url w h := by
    have hlast := congrArg List.getLast? h
    simp [referenceFunction] at hlast
  star := by decide

theorem wordyCall_reference (options : Options) (key : String) :
    WordyCall referenceFunction.toList (reference options key) := by
  refine ⟨_, wordy_name options.propertyPrefix key, ?_, ?_⟩
  · intro c hc
    rw [CustomProperty.toList_name] at hc
    obtain rfl : '-' = c := by simpa using hc
    rfl
  · simp [reference, Node.text, text]

/-- A value that references were put into has none to put in. -/
theorem referValue_referValue (hvar : options.configKeyword ≠ referenceFunction)
    (hlast : value.toList.getLast? ≠ some '\\')
    (h : referValue options location property value = .ok (value', keys)) (location' : Location) :
    referValue options location' property value' = .ok (value', []) := by
  obtain ⟨rfl, -, -⟩ := referValue_eq_ok h
  obtain ⟨htext, hnone⟩ := text_parse_replaceCalls (keepsCalls_referenceOf options property)
    joins_referenceFunction (by simpa using hvar.symm) value hlast
    fun n _ => wordyCall_reference options (referredKey property n)
  have hwalk := walk_run_of_callsOf (visitsCalls_referCall options location' property) _ [] hnone
  rw [referValue, bind_eq_ok]
  exact ⟨_, hwalk, congrArg (fun v => Except.ok (v, [])) htext⟩

/-! ## Stylesheets -/

variable {s s' t u : Sheet} {id : Nat} {ids : List Nat} {usages : List Usage} {n : Nat}

/-- Rewriting has nothing to do. -/
structure Settled (options : Options) (s : Sheet) : Prop where
  component : s.atRulesNamed root options.componentKeyword = []
  componentColon : s.atRulesNamed root (options.componentKeyword ++ ":") = []
  context : s.atRulesNamed root options.contextKeyword = []
  contextColon : s.atRulesNamed root (options.contextKeyword ++ ":") = []
  declaration : ∀ id ∈ s.declarations root, referAt options s id = .ok (s, [])

theorem referAll_of_settled (h : ∀ id ∈ ids, referAt options s id = .ok (s, [])) :
    referAll options usages ids s = (s, .ok usages) := by
  induction ids with
  | nil => rfl
  | cons id ids ih =>
    rw [referAll, h id List.mem_cons_self]
    dsimp only
    rw [List.append_nil]
    exact ih fun i hi => h i (List.mem_cons_of_mem id hi)

theorem Settled.rewrite_eq (h : Settled options s) : rewrite options s = .ok (s, [], 0) := by
  have hexpand : expand options s = (s, .ok ()) := by
    rw [expand, rejectColon, h.componentColon, h.component]
    rfl
  have hcompose : compose options s = (s, .ok 0) := by
    rw [compose, rejectColon, h.contextColon, h.context]
    rfl
  have hrefer : refer options s = (s, .ok []) := referAll_of_settled h.declaration
  rw [rewrite, hexpand]
  simp only [hcompose, hrefer]
  rfl

/-- A stylesheet that lost nodes of another, and has no at-rules but those of the other. -/
structure Loses (s t : Sheet) : Prop where
  linked : t.Linked
  parent : ∀ x p, t.parent? x = some p → s.parent? x = some p
  atRule : ∀ x name params hasBlock, t.kind? x = some (.atRule name params hasBlock) →
    ∃ params', s.kind? x = some (.atRule name params' hasBlock)

theorem Loses.mem_descendants (h : Loses s t) (hs : s.Linked) {x : Nat}
    (hx : x ∈ t.descendants root) : x ∈ s.descendants root := by
  induction x using Nat.strongRecOn with
  | ind x ih =>
    obtain ⟨p, hp, hroot⟩ := h.linked.mem_descendants_parent.1 hx
    refine hs.mem_descendants_parent.2 ⟨p, h.parent x p hp, hroot.imp_right fun hp' => ?_⟩
    exact ih p (h.linked.lt_of_parent? hp) hp'

theorem Loses.mem_atRulesNamed (h : Loses s t) (hs : s.Linked) {name : String} {x : Nat}
    (hx : x ∈ t.atRulesNamed root name) : x ∈ s.atRulesNamed root name := by
  obtain ⟨hmem, params, hasBlock, hk⟩ := exists_of_mem_atRulesNamed hx
  obtain ⟨params', hk'⟩ := h.atRule x name params hasBlock hk
  exact (Sheet.mem_atRulesNamed hk').2 ⟨h.mem_descendants hs hmem, decide_eq_true rfl⟩

theorem Loses.atRulesNamed_eq_nil (h : Loses s t) (hs : s.Linked) {name : String}
    (hnone : s.atRulesNamed root name = []) : t.atRulesNamed root name = [] := by
  apply List.eq_nil_iff_forall_not_mem.2
  intro x hx
  have := h.mem_atRulesNamed hs hx
  rw [hnone] at this
  simp at this

theorem rejectColon_eq_ok {keyword : String} (h : rejectColon s keyword = .ok ()) :
    s.atRulesNamed root (keyword ++ ":") = [] := by
  rw [rejectColon] at h
  split at h
  · assumption
  · cases h

/-! ## Expanding -/

/-- No declaration value ends in a backslash. -/
def EndsPlain (s : Sheet) : Prop :=
  ∀ id ∈ s.declarations root, ∀ property value important,
    s.kind? id = some (.declaration property value important) → value.toList.getLast? ≠ some '\\'

theorem Reworded.exists_atRule {component name params : String} {hasBlock : Bool} {k : Kind}
    (h : Reworded options component k (.atRule name params hasBlock)) :
    ∃ params', k = .atRule name params' hasBlock := by
  cases h with
  | same => exact ⟨params, rfl⟩
  | params => exact ⟨_, rfl⟩

/-- Writing keys out leaves the end of a value what it is. -/
theorem Reworded.exists_declaration {component : String} {important : Bool} {k : Kind}
    (h : Reworded options component k (.declaration property value important)) :
    ∃ value', k = .declaration property value' important ∧
      (value'.toList.getLast? ≠ some '\\' → value.toList.getLast? ≠ some '\\') := by
  cases h with
  | same => exact ⟨value, rfl, id⟩
  | @value _ value' =>
    refine ⟨value', rfl, fun hlast => ?_⟩
    rw [Ne, getLast?_text_replaceCalls (keepsCalls_expandedCall component property)]
    exact getLast?_text_parse hlast

theorem mem_declarations {x : Nat} : x ∈ s.declarations root ↔ x ∈ s.descendants root ∧
    ∃ property value important, s.kind? x = some (.declaration property value important) := by
  rw [declarations, List.mem_filter, Option.any_eq_true]
  refine and_congr_right fun _ => ⟨?_, ?_⟩
  · rintro ⟨k, hk, hdeclaration⟩
    cases k with
    | declaration property value important => exact ⟨_, _, _, hk⟩
    | _ => cases hdeclaration
  · rintro ⟨property, value, important, hk⟩
    exact ⟨_, hk, rfl⟩

section Steps

variable (hs : s.Linked)
include hs

omit hs in
theorem colon_of_expand (h : expand options s = (t, .ok ())) :
    s.atRulesNamed root (options.componentKeyword ++ ":") = [] := by
  rw [expand] at h
  dsimp only at h
  split at h
  · cases h
  · exact rejectColon_eq_ok ‹_›

theorem expand_settles (h : expand options s = (t, .ok ())) :
    Loses s t ∧ t.atRulesNamed root options.componentKeyword = [] ∧
      t.atRulesNamed root (options.componentKeyword ++ ":") = [] ∧
      (EndsPlain s → EndsPlain t) := by
  have hcolon := colon_of_expand h
  obtain ⟨t₀, hpruned, htree, hreworded⟩ := exists_pruned_of_expand hs h
  have hkind : ∀ {x k'}, t.kind? x = some k' → ∃ component k, s.kind? x = some k ∧
      Reworded options component k k' := by
    intro x k' hk'
    obtain ⟨k, hk⟩ := htree.exists_kind? hk'
    rw [hpruned.kind] at hk
    obtain ⟨component, k'', hk'', hstep⟩ := hreworded x k hk
    obtain rfl := Option.some.inj (hk'.symm.trans hk'')
    exact ⟨component, k, hk, hstep⟩
  have hloses : Loses s t := by
    refine ⟨htree.linked hpruned.linked, fun x p hp => ?_, fun x name params hasBlock hk => ?_⟩
    · rw [htree.parent?_eq, hpruned.parent] at hp
      split at hp
      · cases hp
      · exact hp
    · obtain ⟨component, k, hk, hstep⟩ := hkind hk
      obtain ⟨params', rfl⟩ := hstep.exists_atRule
      exact ⟨params', hk⟩
  refine ⟨hloses, ?_, hloses.atRulesNamed_eq_nil hs hcolon, ?_⟩
  · apply List.eq_nil_iff_forall_not_mem.2
    intro x hx
    have hgone := hloses.mem_atRulesNamed hs hx
    obtain ⟨p, hp, -⟩ := hloses.linked.mem_descendants_parent.1 (List.mem_filter.1 hx).1
    rw [htree.parent?_eq, hpruned.parent, if_pos hgone] at hp
    cases hp
  · intro hplain x hx property value important hk
    obtain ⟨hmem, -⟩ := mem_declarations.1 hx
    obtain ⟨component, k, hk, hstep⟩ := hkind hk
    obtain ⟨value', rfl, hlast⟩ := hstep.exists_declaration
    exact hlast (hplain x (mem_declarations.2 ⟨hloses.mem_descendants hs hmem, _, _, _, hk⟩)
      property value' important hk)

/-! ## Composing -/

omit hs in
theorem composeAt_atRule {name params : String} {hasBlock : Bool}
    (hk : s.kind? id = some (.atRule name params hasBlock)) (h : composeAt options s id = .ok t) :
    ∃ key, t = s.replace id (composition options key) := by
  rw [composeAt, hk] at h
  cases hasBlock with
  | true => cases h
  | false =>
    obtain ⟨_, -, rfl⟩ := map_eq_ok.1 h
    exact ⟨_, rfl⟩

/-- Going over at-rules puts a composition in the place of each, whatever is below them. -/
theorem composeAll_settles (hnodup : ids.Nodup)
    (hids : ∀ id ∈ ids, ∃ name params hasBlock, s.kind? id = some (.atRule name params hasBlock))
    (h : composeAll options ids s = (t, .ok ())) :
    t.Linked ∧ (∀ x p, t.parent? x = some p → s.parent? x = some p) ∧
      (∀ x ∉ ids, t.kind? x = s.kind? x) ∧
      ∀ x ∈ ids, ∃ key, t.kind? x = some (composition options key) := by
  induction ids generalizing s with
  | nil =>
    cases h
    exact ⟨hs, fun _ _ => id, fun _ _ => rfl, by simp⟩
  | cons id ids ih =>
    rw [composeAll] at h
    cases hat : composeAt options s id with
    | error e =>
      rw [hat] at h
      cases h
    | ok u =>
      rw [hat] at h
      obtain ⟨hid, hnodup⟩ := List.nodup_cons.1 hnodup
      obtain ⟨name, params, hasBlock, hk⟩ := hids id List.mem_cons_self
      obtain ⟨key, rfl⟩ := composeAt_atRule hk hat
      have hkind := kind?_replace hk (composition options key)
      have hne : ∀ x ∈ ids, x ≠ id := fun x hx heq => hid (heq ▸ hx)
      obtain ⟨hlinked, hparent, hothers, hcomposed⟩ := ih (hs.replace id _) hnodup
        (fun x hx => by
          rw [hkind, if_neg (hne x hx)]
          exact hids x (List.mem_cons_of_mem id hx)) h
      refine ⟨hlinked, fun x p hp => ?_, fun x hx => ?_, fun x hx => ?_⟩
      · have hp := hparent x p hp
        rw [parent?_replace] at hp
        split at hp
        · cases hp
        · exact hp
      · rw [List.mem_cons, not_or] at hx
        rw [hothers x hx.2, hkind, if_neg hx.1]
      · rcases List.mem_cons.1 hx with rfl | hx
        · exact ⟨key, by rw [hothers x hid, hkind, if_pos rfl]⟩
        · exact hcomposed x hx

theorem compose_settles (h : compose options s = (t, .ok n)) :
    Loses s t ∧ t.atRulesNamed root options.contextKeyword = [] ∧
      t.atRulesNamed root (options.contextKeyword ++ ":") = [] ∧ (EndsPlain s → EndsPlain t) := by
  rw [compose] at h
  split at h
  · cases h
  rename_i hcolon
  obtain ⟨hsheet, hresult⟩ := Prod.mk.inj h
  obtain ⟨_, hall, -⟩ := map_eq_ok.1 hresult
  obtain ⟨hlinked, hparent, hothers, hcomposed⟩ := composeAll_settles hs
    ((hs.nodup_descendants root).filter _)
    (fun id hid => by
      obtain ⟨-, params, hasBlock, hk⟩ := exists_of_mem_atRulesNamed hid
      exact ⟨_, params, hasBlock, hk⟩)
    (Prod.ext hsheet hall)
  have hkind : ∀ {x name params hasBlock}, t.kind? x = some (.atRule name params hasBlock) →
      x ∉ s.atRulesNamed root options.contextKeyword ∧
        s.kind? x = some (.atRule name params hasBlock) := by
    intro x name params hasBlock hk
    have hx : x ∉ s.atRulesNamed root options.contextKeyword := by
      intro hx
      obtain ⟨key, hk'⟩ := hcomposed x hx
      rw [hk, composition] at hk'
      cases hk'
    exact ⟨hx, (hothers x hx).symm.trans hk⟩
  have hloses : Loses s t := ⟨hlinked, hparent, fun x name params hasBlock hk =>
    ⟨params, (hkind hk).2⟩⟩
  refine ⟨hloses, ?_, hloses.atRulesNamed_eq_nil hs (rejectColon_eq_ok hcolon), ?_⟩
  · apply List.eq_nil_iff_forall_not_mem.2
    intro x hx
    obtain ⟨-, params, hasBlock, hk⟩ := exists_of_mem_atRulesNamed hx
    exact (hkind hk).1 (hloses.mem_atRulesNamed hs hx)
  · intro hplain x hx property value important hk
    by_cases hmem : x ∈ s.atRulesNamed root options.contextKeyword
    · obtain ⟨key, hk'⟩ := hcomposed x hmem
      rw [hk, composition] at hk'
      obtain ⟨-, rfl, -⟩ := by simpa using hk'
      rw [String.toList_append, List.getLast?_append]
      simp
    · have hk' := (hothers x hmem).symm.trans hk
      exact hplain x (mem_declarations.2
        ⟨hloses.mem_descendants hs (mem_declarations.1 hx).1, _, _, _, hk'⟩) property value
        important hk'

/-! ## Referring -/

theorem loses_refer (h : refer options s = (t, .ok usages)) : Loses s t := by
  obtain ⟨-, hedited⟩ := refer_eq_ok hs h
  have htree := hedited.sameTree
  refine ⟨htree.linked hs, fun x p hp => by rwa [← htree.parent?_eq], ?_⟩
  intro x name params hasBlock hk'
  by_cases hx : x ∈ s.declarations root
  · obtain ⟨-, property, value, important, hk⟩ := mem_declarations.1 hx
    obtain ⟨k, hk'', hrefers⟩ := hedited.each x hx _ hk
    obtain rfl := Option.some.inj (hk'.symm.trans hk'')
    cases hrefers.isDeclaration
  · exact ⟨params, (hedited.others x hx).symm.trans hk'⟩

theorem refer_settles (h : refer options s = (t, .ok usages))
    (hvar : options.configKeyword ≠ referenceFunction) (hplain : EndsPlain s) :
    Loses s t ∧ ∀ id ∈ t.declarations root, referAt options t id = .ok (t, []) := by
  obtain ⟨-, hedited⟩ := refer_eq_ok hs h
  have htree := hedited.sameTree
  have hkind : ∀ {x k'}, t.kind? x = some k' → ∃ k, s.kind? x = some k ∧
      (x ∈ s.declarations root ∧ Refers options s x (usagesAt options s x) k k' ∨
        x ∉ s.declarations root ∧ k' = k) := by
    intro x k' hk'
    obtain ⟨k, hk⟩ := htree.exists_kind? hk'
    by_cases hx : x ∈ s.declarations root
    · obtain ⟨k'', hk'', hrefers⟩ := hedited.each x hx k hk
      obtain rfl := Option.some.inj (hk'.symm.trans hk'')
      exact ⟨k, hk, .inl ⟨hx, hrefers⟩⟩
    · have hsame := (hedited.others x hx).symm.trans hk'
      exact ⟨k', hsame, .inr ⟨hx, rfl⟩⟩
  have hisRule : ∀ x, t.isRule x = s.isRule x := by
    intro x
    rw [isRule, isRule]
    by_cases hx : x ∈ s.declarations root
    · obtain ⟨-, property, value, important, hk⟩ := mem_declarations.1 hx
      obtain ⟨k', hk', hrefers⟩ := hedited.each x hx _ hk
      rw [hk, hk', Option.any_some, Option.any_some]
      cases k' with
      | declaration => rfl
      | _ => cases hrefers.isDeclaration
    · rw [hedited.others x hx]
  refine ⟨loses_refer hs h, fun x hx => ?_⟩
  obtain ⟨hmem, property, value', important, hk'⟩ := mem_declarations.1 hx
  rw [htree.descendants_eq hs] at hmem
  obtain ⟨k, hk, ⟨hdeclaration, hrefers⟩ | ⟨hnot, rfl⟩⟩ := hkind hk'
  · obtain ⟨-, property₁, value, important₁, hk₁⟩ := mem_declarations.1 hdeclaration
    obtain rfl := Option.some.inj (hk.symm.trans hk₁)
    rw [referAt, hk']
    dsimp only
    split
    · rename_i hcontains
      rcases hrefers with ⟨hnone, heq, -⟩ | ⟨-, rule, value₁, keys, hrule, hvalue, heq, -⟩
      · cases heq
        rw [hnone] at hcontains
        cases hcontains
      · cases heq
        have hrule' : enclosingRule? t x = some rule := by
          rw [enclosingRule?, htree.parent?_eq, funext hisRule]
          exact hrule
        rw [hrule']
        dsimp only
        rw [referValue_referValue hvar (hplain x hdeclaration _ _ _ hk) hvalue]
        simp [Except.map, setValue_self hk']
    · rfl
  · exact absurd (mem_declarations.2 ⟨hmem, _, _, _, hk⟩) hnot

end Steps

/-- What rewriting makes of a stylesheet is settled. -/
theorem settled_rewrite (hs : s.Linked) (hvar : options.configKeyword ≠ referenceFunction)
    (hplain : EndsPlain s) (h : rewrite options s = .ok (s', usages, n)) : Settled options s' := by
  obtain ⟨t, u, hexpand, hcompose, hrefer⟩ := rewrite_eq_ok h
  obtain ⟨ht, hcomponent, hcomponentColon, hplain_t⟩ := expand_settles hs hexpand
  obtain ⟨hu, hcontext, hcontextColon, hplain_u⟩ := compose_settles ht.linked hcompose
  obtain ⟨hs', hdeclaration⟩ := refer_settles hu.linked hrefer hvar (hplain_u (hplain_t hplain))
  refine ⟨?_, ?_, ?_, ?_, hdeclaration⟩
  · exact hs'.atRulesNamed_eq_nil hu.linked (hu.atRulesNamed_eq_nil ht.linked hcomponent)
  · exact hs'.atRulesNamed_eq_nil hu.linked (hu.atRulesNamed_eq_nil ht.linked hcomponentColon)
  · exact hs'.atRulesNamed_eq_nil hu.linked hcontext
  · exact hs'.atRulesNamed_eq_nil hu.linked hcontextColon

/-- Rewriting a stylesheet again succeeds, changes nothing and records nothing. The values must not
end in a backslash, and what refers to a key must not be a config call itself. -/
theorem rewrite_rewrite (hs : s.Linked) (hvar : options.configKeyword ≠ "var")
    (hplain : EndsPlain s) (h : rewrite options s = .ok (s', usages, n)) :
    rewrite options s' = .ok (s', [], 0) :=
  (settled_rewrite hs hvar hplain h).rewrite_eq

/-- Calls in a value that is not closed, next to a string and a `url` that look like calls. -/
theorem rewrite_rewrite_nested :
    let s := ofStatements "a.css"
      [.mk (.rule "a") nowhere [.mk (.atRule "component" "x" false) nowhere [],
        .mk (.atRule "context" "" false) nowhere [],
        .mk (.declaration "top" "f('cfg(' url(cfg(k) cfg(k) cfg(" false) nowhere []]]
    ∃ s' usages, rewrite {} s = .ok (s', usages, 1) ∧ usages.map Usage.key = ["x.k", "x.top"] ∧
      s'.kind? 4 = some (.declaration "top"
        "f('cfg(' url(cfg(k) var(--makeup-x\\.k) var(--makeup-x\\.top))" false) ∧
      rewrite {} s' = .ok (s', [], 0) := by
  intro s
  let p := (rewrite {} s).toOption.getD default
  obtain ⟨hrewrite, hkeys, hkind, hdeclarations⟩ : rewrite {} s = .ok (p.1, p.2.1, 1) ∧
      p.2.1.map Usage.key = ["x.k", "x.top"] ∧
      p.1.kind? 4 = some (.declaration "top"
        "f('cfg(' url(cfg(k) var(--makeup-x\\.k) var(--makeup-x\\.top))" false) ∧
      (s.declarations root).map s.kind? = [some (.declaration "top"
        "f('cfg(' url(cfg(k) cfg(k) cfg(" false)] := by decide +kernel
  refine ⟨_, _, hrewrite, hkeys, hkind,
    rewrite_rewrite (linked_ofStatements _ _) (by decide) ?_ hrewrite⟩
  intro id hid property value important hk
  have hmem := List.mem_map_of_mem (f := s.kind?) hid
  rw [hdeclarations, hk, List.mem_singleton] at hmem
  cases hmem
  decide

end CssTheming.Compile
