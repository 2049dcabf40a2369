import CssTheming.Proofs.Resolver.Shared

/-!
# Forgotten styles

A resolver that has forgotten some of the styles that it kept computes them when they are looked up
the next time. In a run that is current that does not show: the resolver goes on as the one that
kept them, and every lookup answers the same.
-/

namespace CssTheming.Resolver

variable {r r' : Resolver} {context : Option String}

theorem SameButCache.symm (h : SameButCache r r') : SameButCache r' r := by
  rw [SameButCache] at h ⊢
  rw [h]

/-! ## Runs, whatever styles are kept -/

/-- A change forgets the kept styles before it does anything else, unless it does nothing. -/
theorem SameButCache.change (h : SameButCache r r') (name : String) (loading : Loading) :
    (r'.change name loading).resolver = (r.change name loading).resolver ∨
      (r.change name loading).resolver = r ∧ (r'.change name loading).resolver = r' := by
  have hthemes := h.settings_eq.1
  rw [SameButCache] at h
  have hbegin (url : String) : r'.begin url = r.begin url := by
    rw [h]
    rfl
  have hhandle (url : String) : r'.host.nextHandle url = r.host.nextHandle url := by rw [h]
  unfold Resolver.change
  rw [hthemes]
  cases r.themes.find? fun e => e.name = name with
  | none => exact .inr ⟨rfl, rfl⟩
  | some entry =>
    dsimp only
    rw [hbegin, hhandle]
    left
    cases loading with
    | isAbandoned => rfl
    | ends => cases (r.begin entry.url).host.load (r.host.nextHandle entry.url) <;> rfl

theorem SameButCache.step (h : SameButCache r r') (s : Step) :
    SameButCache (r.step s) (r'.step s) := by
  have hchange (name : String) (loading : Loading) :
      SameButCache (r.change name loading).resolver (r'.change name loading).resolver := by
    rcases h.change name loading with heq | ⟨heq, heq'⟩
    · rw [heq]
      exact .refl
    · rw [heq, heq']
      exact h
  have hlookup {r₁ r₁' : Resolver} (hr : SameButCache r r₁) (hr' : SameButCache r' r₁') :
      SameButCache r₁ r₁' :=
    (hr.symm.trans h).trans hr'
  have hother := h
  rw [SameButCache] at hother
  cases s with
  | host a =>
    rw [hother]
    rfl
  | own a =>
    cases a with
    | setTheme name => exact hchange name .ends
    | abandonTheme name => exact hchange name .isAbandoned
    | property key context =>
      exact hlookup (looksUp_property key context).same (looksUp_property key context).same
    | contextClass key context =>
      exact hlookup (looksUp_property key context).same (looksUp_property key context).same
    | classNames classes =>
      exact hlookup (looksUp_classNames classes).same (looksUp_classNames classes).same
    | subscribe | unsubscribe id | register url source =>
      rw [hother]
      rfl

theorem SameButCache.through (h : SameButCache r r') (steps : List Step) :
    SameButCache (r.through steps) (r'.through steps) := by
  induction steps generalizing r r' with
  | nil => exact h
  | cons s steps ih => exact ih (h.step s)

/-- The second resolver has forgotten some of the styles that the first one keeps. -/
structure Forgets (r r' : Resolver) : Prop where
  same : SameButCache r r'
  kept : ∀ context, ∀ style ∈ r'.cache.lookup context, r.cache.lookup context = some style

/-- A resolver that keeps no styles. -/
def emptied (r : Resolver) : Resolver := { r with cache := [] }

theorem sameButCache_emptied : SameButCache r r.emptied := rfl

theorem forgets_emptied (r : Resolver) : Forgets r r.emptied where
  same := rfl
  kept := by
    intro context style hstyle
    cases hstyle

namespace Forgets

theorem refl (r : Resolver) : Forgets r r := ⟨.refl, fun _ _ hstyle => hstyle⟩

/-! ## Lookups -/

theorem probeClass_eq (h : Forgets r r') : r'.probeClass context = r.probeClass context := by
  have hoptions := h.same.settings_eq.2
  rw [probeClass, hoptions, probeClass]

theorem styleOf_result (h : Forgets r r') (hnow : r.KeepsStyle context) :
    (r'.styleOf context).result = (r.styleOf context).result := by
  cases hlookup : r'.cache.lookup context with
  | some style =>
    rw [styleOf_of_lookup hlookup, styleOf_of_lookup (h.kept context style hlookup)]
  | none =>
    rw [styleOf_of_lookup_eq_none hlookup, hnow.styleOf_result, h.same.host_eq, h.probeClass_eq]

theorem styleOf (h : Forgets r r') (hnow : r.KeepsStyle context) :
    Forgets (r.styleOf context).resolver (r'.styleOf context).resolver where
  same := ((looksUp_styleOf context).same.symm.trans h.same).trans (looksUp_styleOf context).same
  kept := by
    intro context' style hstyle
    by_cases heq : context' = context
    · subst heq
      rwa [lookup_styleOf, h.styleOf_result hnow, ← lookup_styleOf] at hstyle
    · rw [lookup_styleOf_of_ne heq] at hstyle ⊢
      exact h.kept context' style hstyle

theorem property_result (h : Forgets r r') (hnow : r.KeepsStyle context) (key : String) :
    (r'.property key context).result = (r.property key context).result := by
  rw [Resolver.property_result, Resolver.property_result, h.same.ready_eq, h.styleOf_result hnow,
    h.same.valueIn_eq]

theorem property (h : Forgets r r') (hnow : r.KeepsStyle context) (key : String) :
    Forgets (r.property key context).resolver (r'.property key context).resolver := by
  rw [property_resolver, property_resolver, h.same.ready_eq]
  split
  · exact h.styleOf hnow
  · exact h

theorem contextClass_result (h : Forgets r r') (hnow : r.KeepsStyle context) (key : String) :
    (r'.contextClass key context).result = (r.contextClass key context).result := by
  have hoptions := h.same.settings_eq.2
  unfold Resolver.contextClass
  dsimp only
  rw [h.property_result hnow, hoptions]

/-- Classes are looked up on the root, one after the other. -/
theorem resolveClasses (h : Forgets r r') (hnow : r.KeepsStyle none) (names : List String) :
    (r'.resolveClasses names).result = (r.resolveClasses names).result ∧
      Forgets (r.resolveClasses names).resolver (r'.resolveClasses names).resolver := by
  induction names generalizing r r' with
  | nil => exact ⟨rfl, h⟩
  | cons name rest ih =>
    have hoptions := h.same.settings_eq.2
    rw [Resolver.resolveClasses, Resolver.resolveClasses, hoptions]
    cases hstrip : Text.stripStart? r.options.contextClassPrefix name with
    | none =>
      obtain ⟨hresult, hresolver⟩ := ih h hnow
      dsimp only
      exact ⟨congrArg (Except.map _) hresult, hresolver⟩
    | some key =>
      have hkey : Forgets (r.contextClass key none).resolver (r'.contextClass key none).resolver :=
        h.property hnow key
      obtain ⟨hresult, hresolver⟩ := ih hkey (hnow.of_looksUp (looksUp_property key none))
      dsimp only
      rw [h.contextClass_result hnow]
      cases (r.contextClass key none).result with
      | error fault => exact ⟨rfl, hkey⟩
      | ok value =>
        cases value with
        | none => exact ⟨rfl, hkey⟩
        | some resolved => exact ⟨congrArg (Except.map _) hresult, hresolver⟩

theorem classNames (h : Forgets r r') (hnow : r.KeepsStyle none) (classes : String) :
    (r'.classNames classes).result = (r.classNames classes).result ∧
      Forgets (r.classNames classes).resolver (r'.classNames classes).resolver := by
  have hcontexts : r'.hasContexts classes = r.hasContexts classes := by
    have hoptions := h.same.settings_eq.2
    rw [hasContexts, hoptions, hasContexts]
  unfold Resolver.classNames
  rw [hcontexts]
  split
  · obtain ⟨hresult, hresolver⟩ :=
      h.resolveClasses hnow ((splitSpaces classes.toList).map String.ofList)
    dsimp only
    exact ⟨congrArg (Except.map _) hresult, hresolver⟩
  · exact ⟨rfl, h⟩

theorem answer?_eq (h : Forgets r r') {lookup : Action}
    (hnow : ∀ context ∈ (Step.own lookup).context?, r.KeepsStyle context) :
    r'.answer? lookup = r.answer? lookup := by
  cases lookup with
  | property key context => exact congrArg some (h.property_result (hnow context rfl) key)
  | contextClass key context => exact congrArg some (h.contextClass_result (hnow context rfl) key)
  | classNames classes => exact congrArg some (h.classNames (hnow none rfl) classes).1
  | setTheme name => rfl
  | abandonTheme name => rfl
  | subscribe => rfl
  | unsubscribe id => rfl
  | register url source => rfl

/-! ## Current runs -/

theorem change (h : Forgets r r') (name : String) (loading : Loading) :
    Forgets (r.change name loading).resolver (r'.change name loading).resolver := by
  rcases h.same.change name loading with heq | ⟨heq, heq'⟩
  · rw [heq]
    exact .refl _
  · rw [heq, heq']
    exact h

theorem step (h : Forgets r r') {s : Step} (hnow : ∀ context ∈ s.context?, r.KeepsStyle context) :
    Forgets (r.step s) (r'.step s) := by
  cases s with
  | host a => exact ⟨h.same.step (.host a), h.kept⟩
  | own a =>
    cases a with
    | setTheme name => exact h.change name .ends
    | abandonTheme name => exact h.change name .isAbandoned
    | property key context => exact h.property (hnow context rfl) key
    | contextClass key context => exact h.property (hnow context rfl) key
    | classNames classes => exact (h.classNames (hnow none rfl) classes).2
    | subscribe => exact ⟨h.same.step (.own .subscribe), h.kept⟩
    | unsubscribe id => exact ⟨h.same.step (.own (.unsubscribe id)), h.kept⟩
    | register url source => exact ⟨h.same.step (.own (.register url source)), h.kept⟩

theorem through (h : Forgets r r') {steps : List Step} (hc : r.Current steps) :
    Forgets (r.through steps) (r'.through steps) := by
  induction steps generalizing r r' with
  | nil => exact h
  | cons s steps ih => exact ih (h.step hc.1) hc.2

/-- After a run a lookup answers the same if neither it nor the run meets a style that is out of
date. -/
theorem answer?_through (h : Forgets r r') {steps : List Step} {lookup : Action}
    (hc : r.Current (steps ++ [.own lookup])) :
    (r'.through steps).answer? lookup = (r.through steps).answer? lookup := by
  obtain ⟨hsteps, hlookup, -⟩ := (current_append r steps [.own lookup]).1 hc
  exact (h.through hsteps).answer?_eq hlookup

end Forgets

end CssTheming.Resolver
