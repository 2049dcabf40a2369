import CssTheming.Proofs.Compile.Reference
import CssTheming.Proofs.Sheet.Parsed
import CssTheming.Proofs.Value.Parsed

/-!
# Config calls outside of rules

A declaration outside of all rules must not call the config function. Whether it does is asked of
its text: the keyword and a parenthesis behind it are enough, also in a string, in a comment or at
the end of a longer name. In a rule such a text is no fault.
-/

namespace CssTheming

namespace Value

variable {function : String}

mutual
theorem Node.allCallsOf_eq_nil_iff :
    ∀ n : Node, n.allCallsOf function = [] ↔ n.callsOf function = []
  | .call name before after args key => by
    rw [Node.allCallsOf, Node.callsOf]
    split
    · simp
    · rw [List.nil_append, allCallsOf_eq_nil_iff args]
  | .word _ | .string _ _ | .divider _ _ _ | .space _ | .comment _ => .rfl

/-- A value without outermost calls has none at all. -/
theorem allCallsOf_eq_nil_iff :
    ∀ ns : List Node, allCallsOf function ns = [] ↔ callsOf function ns = []
  | [] => .rfl
  | n :: ns => by
    rw [allCallsOf, callsOf, List.append_eq_nil_iff, List.append_eq_nil_iff,
      Node.allCallsOf_eq_nil_iff n, allCallsOf_eq_nil_iff ns]
end

end Value

namespace Compile

open Value Sheet

variable {options : Options} {s s' t : Sheet} {id : Nat} {ids : List Nat} {usages : List Usage}
  {location : Location} {property value : String} {important : Bool} {e : Error}

/-! ## The first fault -/

theorem fault?_referAt_congr (h : SameRules s t) (hk : t.kind? id = s.kind? id) :
    fault? (referAt options t id) = fault? (referAt options s id) := by
  rw [referAt, referAt, hk, h.enclosingRule?_eq, h.sameTree.location_eq]
  split
  · split
    · cases enclosingRule? s id with
      | none => rfl
      | some rule => rw [fault?_map, fault?_map]
    · rfl
  · rfl

/-- What is made of the declarations in front of one does not change whether it fails. -/
theorem fault?_referAll (hrules : SameRules s t) (hnodup : ids.Nodup)
    (hids : ∀ id ∈ ids, t.kind? id = s.kind? id ∧
      ∃ k, s.kind? id = some k ∧ k.isDeclaration = true) :
    fault? (referAll options usages ids t).2 =
      ids.findSome? fun id => fault? (referAt options s id) := by
  induction ids generalizing t usages with
  | nil => rfl
  | cons id ids ih =>
    obtain ⟨hsame, k, hk, hdeclaration⟩ := hids id List.mem_cons_self
    obtain ⟨hid, hnodup⟩ := List.nodup_cons.1 hnodup
    rw [referAll, List.findSome?_cons, ← fault?_referAt_congr hrules hsame]
    cases hat : referAt options t id with
    | error e => rfl
    | ok p =>
      obtain ⟨u, new⟩ := p
      have hkt := hsame.trans hk
      obtain ⟨k', hk', hrefers, htree, hothers⟩ := referAt_eq_ok hkt hdeclaration hat
      refine ih (hrules.trans (sameRules_of_refers htree hothers hkt hk' hrefers)) hnodup ?_
      intro i hi
      obtain ⟨hsame', hkind⟩ := hids i (List.mem_cons_of_mem id hi)
      exact ⟨(hothers i fun heq => hid (heq ▸ hi)).trans hsame', hkind⟩

theorem fault?_refer (hs : s.Linked) : fault? (refer options s).2 =
    (s.declarations root).findSome? fun id => fault? (referAt options s id) := by
  refine fault?_referAll ⟨.refl s, fun _ => rfl, fun _ => rfl⟩
    ((hs.nodup_descendants root).filter _) fun id hid => ?_
  obtain ⟨k, hk, hdeclaration⟩ := (Option.any_eq_true _ _).1 (List.mem_filter.1 hid).2
  exact ⟨rfl, k, hk, hdeclaration⟩

/-! ## Faults of one declaration -/

theorem ne_outsideRule_of_referCall {n : Value.Node} {keys : List String}
    (h : (referCall options location property n).run keys = .error e) (location' : Location)
    (function : String) : e ≠ .source location' (.outsideRule function) := by
  rintro rfl
  have hkey : ∀ key, checkKey location key ≠
      .error (.source location' (.outsideRule function)) := by
    intro key hcheck
    rw [checkKey] at hcheck
    split at hcheck
    · cases hcheck
    · split at hcheck <;> cases hcheck
  have hargument : ∀ n, keyArgument location n ≠
      .error (.source location' (.outsideRule function)) := by
    intro n hn
    rw [keyArgument.eq_def] at hn
    dsimp only at hn
    repeat' split at hn
    all_goals cases hn
  cases n with
  | call name before after args key =>
    rw [referCall] at h
    split at h
    · rcases bind_run_eq_error.1 h with h | ⟨argument, keys₁, -, h⟩
      · exact hargument _ (lift_run_eq_error.1 h)
      · rcases bind_run_eq_error.1 h with h | ⟨_, keys₂, -, h⟩
        · exact hkey _ (lift_run_eq_error.1 h)
        · cases h
    · cases h
  | _ => cases h

theorem ne_outsideRule_of_referValue
    (h : referValue options location property value = .error e) (location' : Location)
    (function : String) : e ≠ .source location' (.outsideRule function) := by
  rw [referValue] at h
  cases hwalk : (Value.walk (referCall options location property) (parse value)).run [] with
  | ok p =>
    rw [hwalk] at h
    cases h
  | error e' =>
    rw [hwalk] at h
    cases h
    exact walk_run_eq_error (P := fun e => e ≠ .source location' (.outsideRule function))
      (fun n keys e he => ne_outsideRule_of_referCall he location' function) _ hwalk

/-- A declaration is told to be outside of all rules if it is and its text may have a call. -/
theorem fault?_referAt_eq_outsideRule :
    fault? (referAt options s id) = some (.source location (.outsideRule options.configKeyword)) ↔
      s.location id = location ∧ enclosingRule? s id = none ∧
        ∃ property value important, s.kind? id = some (.declaration property value important) ∧
          Text.contains value (callMarker options) = true := by
  rw [fault?_eq_some]
  constructor
  · intro h
    rw [referAt] at h
    split at h
    · rename_i property value important hk
      split at h
      · rename_i hcontains
        cases hrule : enclosingRule? s id with
        | none =>
          rw [hrule] at h
          cases h
          exact ⟨rfl, rfl, property, value, important, hk, hcontains⟩
        | some rule =>
          rw [hrule] at h
          cases hvalue : referValue options (s.location id) property value with
          | ok p =>
            rw [hvalue] at h
            cases h
          | error e =>
            rw [hvalue] at h
            cases h
            exact absurd rfl (ne_outsideRule_of_referValue hvalue _ _)
      · cases h
    · cases h
  · rintro ⟨rfl, hrule, property, value, important, hk, hcontains⟩
    rw [referAt, hk]
    dsimp only
    rw [if_pos hcontains, hrule]

theorem referValue_of_callsOf (h : callsOf options.configKeyword (parse value) = []) :
    referValue options location property value = .ok (value ++ (unclosed value).close, []) := by
  have hwalk := walk_run_of_callsOf (visitsCalls_referCall options location property) _ [] h
  rw [referValue, bind_eq_ok]
  exact ⟨_, hwalk, congrArg (fun v => Except.ok (v, [])) (text_parse_eq value)⟩

/-! ## Stylesheets -/

/-- The first declaration that fails is told to be outside of all rules exactly if no rule encloses
it and the keyword stands in front of a parenthesis in its text, as it does in each value with a
call. A declaration of a rule that has no call does not fail, and at most its value is closed. -/
theorem refer_outsideRule (hs : s.Linked) :
    (∀ location, fault? (refer options s).2 =
        some (.source location (.outsideRule options.configKeyword)) ↔
      ∃ before id after, s.declarations root = before ++ id :: after ∧
        (∀ i ∈ before, fault? (referAt options s i) = none) ∧ s.location id = location ∧
        enclosingRule? s id = none ∧
        ∃ property value important, s.kind? id = some (.declaration property value important) ∧
          Text.contains value (callMarker options) = true) ∧
      ∀ id ∈ s.declarations root, ∀ property value important,
        s.kind? id = some (.declaration property value important) →
          (allCallsOf options.configKeyword (parse value) ≠ [] →
            Text.contains value (callMarker options) = true) ∧
          (allCallsOf options.configKeyword (parse value) = [] →
            (enclosingRule? s id ≠ none → fault? (referAt options s id) = none) ∧
            ∀ s' usages, refer options s = (s', .ok usages) →
              usagesAt options s id = [] ∧
                s'.kind? id = some (.declaration property
                  (if Text.contains value (callMarker options) then
                    value ++ (unclosed value).close else value) important)) := by
  refine ⟨fun location => ?_, fun id hid property value important hk =>
    ⟨fun hcalls => ?_, fun hnone => ?_⟩⟩
  · rw [fault?_refer hs, List.findSome?_eq_some_iff]
    simp only [fault?_referAt_eq_outsideRule]
    constructor
    · rintro ⟨before, id, after, hids, hfault, hbefore⟩
      exact ⟨before, id, after, hids, hbefore, hfault⟩
    · rintro ⟨before, id, after, hids, hbefore, hfault⟩
      exact ⟨before, id, after, hids, hfault, hbefore⟩
  · rw [Ne, allCallsOf_eq_nil_iff] at hcalls
    exact contains_of_callsOf hcalls
  · rw [allCallsOf_eq_nil_iff] at hnone
    refine ⟨fun hrule => ?_, fun s' usages h => ?_⟩
    · obtain ⟨rule, hrule⟩ := Option.ne_none_iff_exists'.1 hrule
      rw [referAt, hk]
      dsimp only
      split
      · rw [hrule]
        dsimp only
        rw [fault?_map, referValue_of_callsOf hnone]
        rfl
      · rfl
    · obtain ⟨-, hedited⟩ := refer_eq_ok hs h
      obtain ⟨k', hk', hrefers⟩ := hedited.each id hid _ hk
      rcases hrefers with ⟨hcontains, rfl, hnew⟩ |
        ⟨hcontains, rule, value', keys, -, hvalue, rfl, hnew⟩
      · refine ⟨hnew, ?_⟩
        rwa [hcontains]
      · rw [referValue_of_callsOf hnone] at hvalue
        cases hvalue
        refine ⟨hnew, ?_⟩
        rwa [if_pos hcontains]

/-- A string and calls in a rule and in an at-rule, in the two stylesheets that are read below. -/
theorem referAt_strings :
    let source := ".a\x7bb:'cfg(';c:f(cfg(k))\x7d@media x\x7bd:1;e:cfg(l)\x7d"
    let s := (Sheet.parse source "a.css").toOption.getD default
    let source' := "@media print \x7b content: 'cfg('; \x7d"
    let s' := (Sheet.parse source' "test.css").toOption.getD default
    (Sheet.parse source "a.css" = .ok s ∧ s.declarations root = [2, 3, 5, 6] ∧
        s.kind? 2 = some (.declaration "b" "'cfg('" false) ∧
        s.kind? 6 = some (.declaration "e" "cfg(l)" false) ∧ enclosingRule? s 2 ≠ none ∧
        enclosingRule? s 6 = none ∧ (∀ i ∈ [3, 5], fault? (referAt {} s i) = none) ∧
        allCallsOf "cfg" (Value.parse "'cfg('") = [] ∧
        allCallsOf "cfg" (Value.parse "cfg(l)") ≠ []) ∧
      Sheet.parse source' "test.css" = .ok s' ∧ s'.declarations root = [2] ∧
        s'.kind? 2 = some (.declaration "content" "'cfg('" false) ∧
        fault? (refer {} s').2 = some (.source (s'.location 2) (.outsideRule "cfg")) := by
  decide +kernel

/-- The string in the rule is no fault; the call in the at-rule is. -/
theorem refer_outsideRule_media :
    let source := ".a\x7bb:'cfg(';c:f(cfg(k))\x7d@media x\x7bd:1;e:cfg(l)\x7d"
    let s := (Sheet.parse source "a.css").toOption.getD default
    Sheet.parse source "a.css" = .ok s ∧ s.kind? 2 = some (.declaration "b" "'cfg('" false) ∧
      fault? (referAt {} s 2) = none ∧
      fault? (refer {} s).2 = some (.source (s.location 6) (.outsideRule "cfg")) := by
  intro source s
  obtain ⟨⟨hparse, hids, hstring, hcall, hrule, hnoRule, hbefore, hnone, hcalls⟩, -⟩ :=
    referAt_strings
  obtain ⟨hs, -⟩ := linked_showsChildren_of_parse hparse
  obtain ⟨htold, hdeclared⟩ := @refer_outsideRule {} s hs
  have hfine := ((hdeclared 2 (by rw [hids]; decide) _ _ _ hstring).2 hnone).1 hrule
  have hmarked := (hdeclared 6 (by rw [hids]; decide) _ _ _ hcall).1 hcalls
  have hbefore' : ∀ i ∈ [2, 3, 5], fault? (referAt {} s i) = none :=
    List.forall_mem_cons.2 ⟨hfine, hbefore⟩
  exact ⟨hparse, hstring, hfine, (htold (s.location 6)).2
    ⟨[2, 3, 5], 6, [], hids, hbefore', rfl, hnoRule, _, _, _, hcall, hmarked⟩⟩

/-- A string is taken for a call outside of a rule. -/
theorem refer_outsideRule_string :
    let source := "@media print \x7b content: 'cfg('; \x7d"
    let s := (Sheet.parse source "test.css").toOption.getD default
    Sheet.parse source "test.css" = .ok s ∧ s.declarations root = [2] ∧
      s.kind? 2 = some (.declaration "content" "'cfg('" false) ∧
      allCallsOf "cfg" (Value.parse "'cfg('") = [] ∧
      fault? (refer {} s).2 = some (.source (s.location 2) (.outsideRule "cfg")) := by
  obtain ⟨⟨-, -, -, -, -, -, -, hnone, -⟩, hparse, hids, hstring, hfault⟩ := referAt_strings
  exact ⟨hparse, hids, hstring, hnone, hfault⟩

end Compile

end CssTheming
