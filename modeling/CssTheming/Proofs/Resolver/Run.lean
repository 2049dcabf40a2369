import CssTheming.Proofs.Resolver.Host
import CssTheming.Resolver.Basic

/-!
# Runs of resolvers

What a resolver itself can be asked to do, as actions that a run performs one after the other. What
an action does to the resolver and what an observer sees are those of the operation it stands for.
Of its host an action replaces sources only. That others attach stylesheets to the host of a
resolver, load them and take them off is left out here; `Resolver.Step` has it.
-/

namespace CssTheming

namespace Resolver

/-- What a resolver can be asked to do. -/
inductive Action where
  | setTheme (name : String)
  /-- A change of theme that is given up while the stylesheet loads. -/
  | abandonTheme (name : String)
  | property (key : String) (context : Option String)
  | contextClass (key : String) (context : Option String)
  | classNames (classes : String)
  | subscribe
  | unsubscribe (id : Nat)
  | register (url : String) (source : Host.Source)

variable (r : Resolver)

def perform : Action → Resolver
  | .setTheme name => (r.setTheme name).resolver
  | .abandonTheme name => (r.abandonTheme name).resolver
  | .property key context => (r.property key context).resolver
  | .contextClass key context => (r.contextClass key context).resolver
  | .classNames classes => (r.classNames classes).resolver
  | .subscribe => r.subscribe
  | .unsubscribe id => r.unsubscribe id
  | .register url source => r.register url source

/-- What an observer sees while an action is performed. -/
def seen : Action → List Event
  | .setTheme name => (r.setTheme name).events
  | .abandonTheme name => (r.abandonTheme name).events
  | .property key context => (r.property key context).events
  | .contextClass key context => (r.contextClass key context).events
  | .classNames classes => (r.classNames classes).events
  | .subscribe | .unsubscribe _ | .register _ _ => []

/-- The theme that an action changes to, if it is a change. -/
def Action.target? : Action → Option String
  | .setTheme name | .abandonTheme name => some name
  | _ => none

/-- What is attached while a load is awaited. -/
def Event.awaited? : Event → Option (List String)
  | .awaited attached => some attached
  | _ => none

/-- Who is told of what, and how the resolver stands meanwhile. -/
def Event.notified? : Event → Option (Nat × Notice)
  | .notified subscription notice => some (subscription, notice)
  | _ => none

/-- Styles are computed, and nothing else happens. -/
def StylesOnly (events : List Event) : Prop := ∀ e ∈ events, ∃ name, e = .styled name

theorem StylesOnly.nil : StylesOnly [] := by
  intro e he
  cases he

theorem StylesOnly.append {events₁ events₂ : List Event} (h₁ : StylesOnly events₁)
    (h₂ : StylesOnly events₂) : StylesOnly (events₁ ++ events₂) := by
  intro e he
  rcases List.mem_append.1 he with he | he
  · exact h₁ e he
  · exact h₂ e he

/-- No other kind of event is found where only styles are computed. -/
theorem StylesOnly.filterMap_eq_nil {α : Type} {f : Event → Option α} {events : List Event}
    (h : StylesOnly events) (hf : ∀ name, f (.styled name) = none) : events.filterMap f = [] := by
  apply List.filterMap_eq_nil_iff.2
  intro e he
  obtain ⟨name, rfl⟩ := h e he
  exact hf name

/-- The resolver after a run. -/
def after (actions : List Action) : Resolver := actions.foldl perform r

@[simp] theorem after_nil : r.after [] = r := rfl

@[simp] theorem after_cons (a : Action) (actions : List Action) :
    r.after (a :: actions) = (r.perform a).after actions :=
  rfl

/-- The entry that a theme's name selects. -/
def named? (name : String) : Option Entry := r.themes.find? fun e => e.name = name

/-! ## Changing the theme -/

/-- The host once a stylesheet is attached behind the others and declares what is told. -/
def hostWith (url : String) (p : CustomProperties) : Host :=
  { r.host with
    attached := r.host.attached ++ [⟨r.host.nextId, url, some p⟩]
    nextId := r.host.nextId + 1 }

/-- The awaiting of a stylesheet, with what is attached meanwhile. -/
def awaiting (url : String) : Event := .awaited (r.host.attachedUrls ++ [url])

section Change

variable {r} {name : String} {entry : Entry}

theorem attachedUrls_begin (url : String) :
    (r.begin url).host.attachedUrls = r.host.attachedUrls ++ [url] :=
  List.map_append

/-- A stylesheet that is attached and taken off again has used a number up. -/
theorem withdraw_begin (hf : r.host.Fresh) (url : String) :
    (r.begin url).withdraw (r.host.nextHandle url) =
      { r with
        host := { r.host with nextId := r.host.nextId + 1 }
        cache := []
        ready := r.active.isSome } := by
  have hhost : (r.host.insert url).remove (r.host.nextHandle url) =
      { r.host with nextId := r.host.nextId + 1 } := hf.remove_insert url
  simp only [withdraw, begin, hhost]

theorem change_of_unknown (h : r.named? name = none) (loading : Loading) :
    r.change name loading = ⟨r, [], .error (.unknownTheme name (r.themes.map (·.name)))⟩ := by
  rw [named?] at h
  simp only [change, h]

theorem abandonTheme_of_entry (h : r.named? name = some entry) :
    r.abandonTheme name =
      ⟨(r.begin entry.url).withdraw (r.host.nextHandle entry.url),
          [r.awaiting entry.url], .ok ()⟩ := by
  rw [named?] at h
  simp only [abandonTheme, change, h, attachedUrls_begin, awaiting]

theorem setTheme_of_entry (hf : r.host.Fresh) (h : r.named? name = some entry) :
    r.setTheme name = match r.host.fetch entry.url with
      | .error message =>
        ⟨(r.begin entry.url).withdraw (r.host.nextHandle entry.url), [r.awaiting entry.url],
          .error (.load entry.name entry.url message)⟩
      | .ok p =>
        let changed := (r.begin entry.url).commit entry.name (r.host.nextHandle entry.url) <|
          r.hostWith entry.url p
        ⟨changed, r.awaiting entry.url :: changed.notifications ⟨entry.name, r.currentTheme⟩,
          .ok ()⟩ := by
  have hload : (r.begin entry.url).host.load (r.host.nextHandle entry.url) =
      (r.host.fetch entry.url).map fun p => r.hostWith entry.url p := hf.load_insert entry.url
  rw [named?] at h
  simp only [setTheme, change, h, hload, attachedUrls_begin, awaiting]
  cases r.host.fetch entry.url with
  | error message => rfl
  | ok p => rfl

/-- A change of theme does nothing, takes the stylesheet off again that it attached, or leaves it in
the place of the previous one. -/
theorem setTheme_cases (hf : r.host.Fresh) (name : String) :
    (r.named? name = none ∧
      r.setTheme name = ⟨r, [], .error (.unknownTheme name (r.themes.map (·.name)))⟩) ∨
    ∃ entry, r.named? name = some entry ∧
      ((∃ message, r.host.fetch entry.url = .error message ∧ r.setTheme name =
        ⟨(r.begin entry.url).withdraw (r.host.nextHandle entry.url), [r.awaiting entry.url],
          .error (.load entry.name entry.url message)⟩) ∨
      ∃ p, r.host.fetch entry.url = .ok p ∧ r.setTheme name =
        let changed := (r.begin entry.url).commit entry.name (r.host.nextHandle entry.url) <|
          r.hostWith entry.url p
        ⟨changed, r.awaiting entry.url :: changed.notifications ⟨entry.name, r.currentTheme⟩,
          .ok ()⟩) := by
  cases hentry : r.named? name with
  | none => exact .inl ⟨rfl, change_of_unknown hentry .ends⟩
  | some entry =>
    refine .inr ⟨entry, rfl, ?_⟩
    rw [setTheme_of_entry hf hentry]
    cases r.host.fetch entry.url with
    | error message => exact .inl ⟨message, rfl, rfl⟩
    | ok p => exact .inr ⟨p, rfl, rfl⟩

theorem abandonTheme_cases (name : String) :
    (r.named? name = none ∧
      r.abandonTheme name = ⟨r, [], .error (.unknownTheme name (r.themes.map (·.name)))⟩) ∨
    ∃ entry, r.named? name = some entry ∧ r.abandonTheme name =
      ⟨(r.begin entry.url).withdraw (r.host.nextHandle entry.url), [r.awaiting entry.url],
        .ok ()⟩ := by
  cases hentry : r.named? name with
  | none => exact .inl ⟨rfl, change_of_unknown hentry .isAbandoned⟩
  | some entry => exact .inr ⟨entry, rfl, abandonTheme_of_entry hentry⟩

theorem name_of_named? (h : r.named? name = some entry) : entry.name = name := by
  simpa using List.find?_some h

theorem awaited_notifications (change : Change) :
    (r.notifications change).filterMap Event.awaited? = [] := by
  unfold notifications
  rw [List.filterMap_map]
  exact List.filterMap_eq_nil_iff.2 fun _ _ => rfl

theorem awaited_awaiting (url : String) :
    (r.awaiting url).awaited? = some (r.host.attachedUrls ++ [url]) :=
  rfl

/-- A change awaits the stylesheet of the theme that it names, once and behind the others. -/
theorem awaited_setTheme (hf : r.host.Fresh) (name : String) :
    (r.setTheme name).events.filterMap Event.awaited? =
      (r.named? name).toList.map fun entry => r.host.attachedUrls ++ [entry.url] := by
  rcases setTheme_cases hf name with ⟨hentry, hc⟩ | ⟨entry, hentry, ⟨message, -, hc⟩ | ⟨p, -, hc⟩⟩
  · rw [hc, hentry]
    rfl
  · rw [hc, hentry, List.filterMap_cons_some (awaited_awaiting entry.url)]
    rfl
  · rw [hc, hentry, List.filterMap_cons_some (awaited_awaiting entry.url), awaited_notifications]
    rfl

theorem awaited_abandonTheme (name : String) :
    (r.abandonTheme name).events.filterMap Event.awaited? =
      (r.named? name).toList.map fun entry => r.host.attachedUrls ++ [entry.url] := by
  rcases abandonTheme_cases name with ⟨hentry, hc⟩ | ⟨entry, hentry, hc⟩
  · rw [hc, hentry]
    rfl
  · rw [hc, hentry, List.filterMap_cons_some (awaited_awaiting entry.url)]
    rfl

end Change

/-! ## Looking keys up -/

/-- A resolver that differs from another at most in the styles it keeps. -/
def SameButCache (r r' : Resolver) : Prop := r' = { r with cache := r'.cache }

variable {r}

theorem SameButCache.refl : SameButCache r r := rfl

theorem SameButCache.trans {r₁ r₂ : Resolver} (h₁ : SameButCache r r₁) (h₂ : SameButCache r₁ r₂) :
    SameButCache r r₂ := by
  rw [SameButCache] at h₁ h₂ ⊢
  rw [h₂, h₁]

theorem SameButCache.settings_eq {r' : Resolver} (h : SameButCache r r') :
    r'.themes = r.themes ∧ r'.options = r.options := by
  rw [SameButCache] at h
  rw [h]
  exact ⟨rfl, rfl⟩

theorem SameButCache.host_eq {r' : Resolver} (h : SameButCache r r') : r'.host = r.host := by
  rw [SameButCache] at h
  rw [h]

theorem SameButCache.ready_eq {r' : Resolver} (h : SameButCache r r') : r'.ready = r.ready := by
  rw [SameButCache] at h
  rw [h]

theorem styleOf_of_lookup {context : Option String} {style : Table String}
    (h : r.cache.lookup context = some style) : r.styleOf context = ⟨r, [], style⟩ := by
  rw [styleOf, h]

theorem styleOf_of_lookup_eq_none {context : Option String} (h : r.cache.lookup context = none) :
    r.styleOf context =
      ⟨{ r with cache := (context, r.host.style (r.probeClass context)) :: r.cache },
        [.styled (r.probeClass context)], r.host.style (r.probeClass context)⟩ := by
  rw [styleOf, h]

/-- A style that was looked up is kept. -/
theorem lookup_styleOf (r : Resolver) (context : Option String) :
    (r.styleOf context).resolver.cache.lookup context = some (r.styleOf context).result := by
  cases h : r.cache.lookup context with
  | some style => rw [styleOf_of_lookup h, h]
  | none =>
    rw [styleOf_of_lookup_eq_none h]
    simp

theorem lookup_styleOf_of_ne {context context' : Option String} (hne : context' ≠ context) :
    (r.styleOf context).resolver.cache.lookup context' = r.cache.lookup context' := by
  cases h : r.cache.lookup context with
  | some style => rw [styleOf_of_lookup h]
  | none =>
    rw [styleOf_of_lookup_eq_none h, List.lookup_cons, beq_false_of_ne hne]

/-- A lookup keeps what was kept, and besides at most styles that the host shows. -/
structure LooksUp (r r' : Resolver) : Prop where
  same : SameButCache r r'
  kept : ∀ context, ∀ style ∈ r'.cache.lookup context,
    style ∈ r.cache.lookup context ∨ style = r.host.style (r.probeClass context)

theorem LooksUp.refl : LooksUp r r := ⟨.refl, fun _ _ hstyle => .inl hstyle⟩

theorem LooksUp.style_eq {r' : Resolver} (h : LooksUp r r') (context : Option String) :
    r'.host.style (r'.probeClass context) = r.host.style (r.probeClass context) := by
  rw [h.same.host_eq, probeClass, h.same.settings_eq.2, probeClass]

theorem LooksUp.trans {r₁ r₂ : Resolver} (h₁ : LooksUp r r₁) (h₂ : LooksUp r₁ r₂) :
    LooksUp r r₂ where
  same := h₁.same.trans h₂.same
  kept := by
    intro context style hstyle
    rcases h₂.kept context style hstyle with hkept | hshown
    · exact h₁.kept context style hkept
    · exact .inr (hshown.trans (h₁.style_eq context))

theorem looksUp_styleOf (context : Option String) : LooksUp r (r.styleOf context).resolver where
  same := by
    unfold styleOf
    split <;> rfl
  kept := by
    intro context' style hstyle
    by_cases heq : context' = context
    · subst heq
      rw [lookup_styleOf] at hstyle
      obtain rfl := Option.some.inj hstyle
      cases h : r.cache.lookup context' with
      | some style => exact .inl (by rw [styleOf_of_lookup h]; rfl)
      | none => exact .inr (by rw [styleOf_of_lookup_eq_none h])
    · rw [lookup_styleOf_of_ne heq] at hstyle
      exact .inl hstyle

theorem stylesOnly_styleOf (context : Option String) :
    StylesOnly (r.styleOf context).events := by
  unfold styleOf
  split
  · exact .nil
  · intro e he
    exact ⟨_, List.mem_singleton.1 he⟩

theorem looksUp_property (key : String) (context : Option String) :
    LooksUp r (r.property key context).resolver := by
  have hs := looksUp_styleOf (r := r) context
  unfold property
  split
  · dsimp only
    split <;> exact hs
  · exact .refl

theorem stylesOnly_property (key : String) (context : Option String) :
    StylesOnly (r.property key context).events := by
  have hs := stylesOnly_styleOf (r := r) context
  unfold property
  split
  · dsimp only
    split <;> exact hs
  · exact .nil

theorem looksUp_resolveClasses (names : List String) :
    LooksUp r (r.resolveClasses names).resolver := by
  induction names generalizing r with
  | nil => exact .refl
  | cons name rest ih =>
    have hp (key : String) := looksUp_property (r := r) key none
    unfold resolveClasses
    split
    · exact ih
    · rename_i key _
      dsimp only
      split
      · exact hp key
      · exact hp key
      · exact (hp key).trans ih

theorem stylesOnly_resolveClasses (names : List String) :
    StylesOnly (r.resolveClasses names).events := by
  induction names generalizing r with
  | nil => exact .nil
  | cons name rest ih =>
    have hp (key : String) : StylesOnly (r.contextClass key none).events :=
      stylesOnly_property key none
    unfold resolveClasses
    split
    · exact ih
    · rename_i key _
      dsimp only
      split
      · exact hp key
      · exact hp key
      · exact (hp key).append ih

theorem looksUp_classNames (classes : String) :
    LooksUp r (r.classNames classes).resolver := by
  unfold classNames
  split
  · exact looksUp_resolveClasses _
  · exact .refl

theorem stylesOnly_classNames (classes : String) : StylesOnly (r.classNames classes).events := by
  unfold classNames
  split
  · exact stylesOnly_resolveClasses _
  · exact .nil

/-! ## Actions -/

/-- What an action can do to a resolver. -/
inductive Effect (r : Resolver) : Resolver → Prop where
  | looksUp {r' : Resolver} (h : LooksUp r r') : Effect r r'
  | withdraws (url : String) : Effect r ((r.begin url).withdraw (r.host.nextHandle url))
  | commits (name url : String) (p : CustomProperties) :
    Effect r ((r.begin url).commit name (r.host.nextHandle url) (r.hostWith url p))
  | listens (listeners : Listeners) : Effect r { r with listeners := listeners }
  | registers (url : String) (source : Host.Source) : Effect r (r.register url source)

theorem effect_perform (hf : r.host.Fresh) (a : Action) : Effect r (r.perform a) := by
  cases a with
  | setTheme name =>
    rw [perform]
    rcases setTheme_cases hf name with
      ⟨-, hc⟩ | ⟨entry, -, ⟨message, -, hc⟩ | ⟨p, -, hc⟩⟩ <;> rw [hc]
    · exact .looksUp .refl
    · exact .withdraws entry.url
    · exact .commits entry.name entry.url p
  | abandonTheme name =>
    rw [perform]
    rcases abandonTheme_cases name with ⟨-, hc⟩ | ⟨entry, -, hc⟩ <;> rw [hc]
    · exact .looksUp .refl
    · exact .withdraws entry.url
  | property key context => exact .looksUp (looksUp_property key context)
  | contextClass key context => exact .looksUp (looksUp_property key context)
  | classNames classes => exact .looksUp (looksUp_classNames classes)
  | subscribe => exact .listens r.listeners.subscribe
  | unsubscribe id => exact .listens (r.listeners.unsubscribe id)
  | register url source => exact .registers url source

/-- What a resolver is created with besides its host stays. -/
theorem settings_perform (a : Action) :
    (r.perform a).themes = r.themes ∧ (r.perform a).options = r.options := by
  have hchange (name : String) (loading : Loading) :
      (r.change name loading).resolver.themes = r.themes ∧
        (r.change name loading).resolver.options = r.options := by
    unfold change
    split
    · exact ⟨rfl, rfl⟩
    · dsimp only
      split
      · exact ⟨rfl, rfl⟩
      · split <;> exact ⟨rfl, rfl⟩
  cases a with
  | setTheme name => exact hchange name .ends
  | abandonTheme name => exact hchange name .isAbandoned
  | property key context => exact (looksUp_property key context).same.settings_eq
  | contextClass key context => exact (looksUp_property key context).same.settings_eq
  | classNames classes => exact (looksUp_classNames classes).same.settings_eq
  | subscribe => exact ⟨rfl, rfl⟩
  | unsubscribe id => exact ⟨rfl, rfl⟩
  | register url source => exact ⟨rfl, rfl⟩

theorem settings_after (actions : List Action) :
    (r.after actions).themes = r.themes ∧ (r.after actions).options = r.options := by
  induction actions generalizing r with
  | nil => exact ⟨rfl, rfl⟩
  | cons a actions ih =>
    obtain ⟨hthemes, hoptions⟩ := ih (r := r.perform a)
    obtain ⟨hthemes', hoptions'⟩ := settings_perform (r := r) a
    exact ⟨hthemes.trans hthemes', hoptions.trans hoptions'⟩

end Resolver

end CssTheming
