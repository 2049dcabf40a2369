import CssTheming.Proofs.Resolver.Run

/-!
# Kept styles

A resolver answers from the styles that it keeps. In every state that a run leads to these are the
styles that its host would compute, so that what a lookup answers depends on the host alone. What
does not speak of styles, that the numbers in use are below the next one and that the resolver is
ready exactly if a theme is active, is an invariant of its own. The host may have other stylesheets
attached to it from the start.
-/

namespace CssTheming.Resolver

variable {r : Resolver} {context : Option String}

/-- The style that is kept for a context, if one is, is the host's. -/
def KeepsStyle (r : Resolver) (context : Option String) : Prop :=
  ∀ style ∈ r.cache.lookup context, style = r.host.style (r.probeClass context)

instance (r : Resolver) (context : Option String) : Decidable (r.KeepsStyle context) :=
  inferInstanceAs (Decidable (∀ style ∈ r.cache.lookup context, _))

/-- The kept styles are the host's. -/
def KeepsStyles (r : Resolver) : Prop := ∀ context, r.KeepsStyle context

/-- Numbers and readiness are as they should be, whatever styles are kept. -/
structure Sound (r : Resolver) : Prop where
  fresh : r.host.Fresh
  active : ∀ a ∈ r.active, a.2.id < r.host.nextId
  ready : r.ready = r.active.isSome

structure Consistent (r : Resolver) : Prop extends Sound r where
  keeps : r.KeepsStyles

/-! ## Lookups -/

/-- What the host shows for a key in a context, computed anew. -/
def shown (r : Resolver) (key : String) (context : Option String) :
    Except Fault (Option String) :=
  if r.ready then
    match r.valueIn (r.host.style (r.probeClass context)) key with
    | some value => .ok (some value)
    | none => .error (.unresolvable key context)
  else .ok none

theorem SameButCache.shown_eq {r' : Resolver} (h : SameButCache r r') : r'.shown = r.shown := by
  rw [SameButCache] at h
  rw [h]
  rfl

theorem SameButCache.valueIn_eq {r' : Resolver} (h : SameButCache r r') (style : Table String)
    (key : String) : r'.valueIn style key = r.valueIn style key := by
  rw [valueIn, h.settings_eq.2, valueIn]

/-- The answer for a key, from the style that is kept or computed. -/
theorem property_result (key : String) (context : Option String) :
    (r.property key context).result =
      if r.ready then
        match r.valueIn (r.styleOf context).result key with
        | some value => .ok (some value)
        | none => .error (.unresolvable key context)
      else .ok none := by
  have hvalue : (r.styleOf context).resolver.valueIn (r.styleOf context).result key =
      r.valueIn (r.styleOf context).result key :=
    (looksUp_styleOf context).same.valueIn_eq _ key
  unfold property
  split
  · dsimp only
    rw [hvalue]
    cases r.valueIn (r.styleOf context).result key <;> rfl
  · rfl

theorem property_resolver (key : String) (context : Option String) :
    (r.property key context).resolver =
      if r.ready then (r.styleOf context).resolver else r := by
  unfold property
  split
  · dsimp only
    split <;> rfl
  · rfl

namespace KeepsStyle

theorem styleOf_result (h : r.KeepsStyle context) :
    (r.styleOf context).result = r.host.style (r.probeClass context) := by
  cases hlookup : r.cache.lookup context with
  | some style =>
    rw [styleOf_of_lookup hlookup]
    exact h style hlookup
  | none => rw [styleOf_of_lookup_eq_none hlookup]

/-- The answer for a key is what the host shows. -/
theorem property_result (h : r.KeepsStyle context) (key : String) :
    (r.property key context).result = r.shown key context := by
  rw [Resolver.property_result, h.styleOf_result]
  rfl

/-- A lookup does not put a style out of date. -/
theorem of_looksUp {r' : Resolver} (h : r.KeepsStyle context) (hr : LooksUp r r') :
    r'.KeepsStyle context := by
  intro style hkept
  rw [hr.style_eq]
  exact (hr.kept context style hkept).elim (h style) id

end KeepsStyle

/-! ## Runs -/

theorem sound_create {host : Host} (hf : host.Fresh) (themes : List Entry) (options : Options) :
    Sound (create host themes options) where
  fresh := hf
  active := by simp [create]
  ready := rfl

theorem keepsStyles_of_cache_eq_nil (h : r.cache = []) : r.KeepsStyles := by
  intro context style hlookup
  rw [h] at hlookup
  cases hlookup

theorem consistent_create {host : Host} (hf : host.Fresh) (themes : List Entry)
    (options : Options) : Consistent (create host themes options) :=
  ⟨sound_create hf themes options, keepsStyles_of_cache_eq_nil rfl⟩

theorem Sound.of_sameButCache {r' : Resolver} (h : Sound r) (hs : SameButCache r r') :
    Sound r' := by
  rw [SameButCache] at hs
  rw [hs]
  exact ⟨h.fresh, h.active, h.ready⟩

theorem Sound.withdraw (h : Sound r) (url : String) :
    Sound ((r.begin url).withdraw (r.host.nextHandle url)) := by
  rw [withdraw_begin h.fresh]
  refine ⟨fun a ha => ?_, fun a ha => ?_, rfl⟩
  · exact Nat.lt_succ_of_lt (h.fresh a ha)
  · exact Nat.lt_succ_of_lt (h.active a ha)

theorem nextId_commit (name url : String) (p : CustomProperties) :
    ((r.begin url).commit name (r.host.nextHandle url) (r.hostWith url p)).host.nextId =
      r.host.nextId + 1 := by
  unfold commit
  dsimp only
  split <;> rfl

theorem Sound.commit (h : Sound r) (name url : String) (p : CustomProperties) :
    Sound ((r.begin url).commit name (r.host.nextHandle url) (r.hostWith url p)) := by
  have hf : (r.hostWith url p).Fresh := by
    intro a ha
    rcases List.mem_append.1 ha with ha | ha
    · exact Nat.lt_succ_of_lt (h.fresh a ha)
    · rw [List.mem_singleton.1 ha]
      exact Nat.lt_succ_self _
  refine ⟨?_, ?_, rfl⟩
  · unfold Resolver.commit
    dsimp only
    split
    · exact hf.remove _
    · exact hf
  · intro a ha
    obtain rfl := Option.some.inj ha
    rw [nextId_commit]
    exact Nat.lt_succ_self _

theorem Effect.sound {r' : Resolver} (he : Effect r r') (h : Sound r) : Sound r' := by
  cases he with
  | looksUp hlookup => exact h.of_sameButCache hlookup.same
  | withdraws url => exact h.withdraw url
  | commits name url p => exact h.commit name url p
  | listens listeners => exact ⟨h.fresh, h.active, h.ready⟩
  | registers url source => exact ⟨h.fresh, h.active, h.ready⟩

theorem Sound.perform (h : Sound r) (a : Action) : Sound (r.perform a) :=
  (effect_perform h.fresh a).sound h

/-- An action forgets all kept styles, or the host shows what it did and at most styles that it
shows are kept besides. -/
theorem Effect.kept {r' : Resolver} (he : Effect r r') : r'.cache = [] ∨
    ∀ context, r'.host.style (r'.probeClass context) = r.host.style (r.probeClass context) ∧
      ∀ style ∈ r'.cache.lookup context,
        style ∈ r.cache.lookup context ∨ style = r.host.style (r.probeClass context) := by
  cases he with
  | looksUp hlookup =>
    exact .inr fun context => ⟨hlookup.style_eq context, hlookup.kept context⟩
  | withdraws url => exact .inl rfl
  | commits name url p => exact .inl rfl
  | listens listeners => exact .inr fun _ => ⟨rfl, fun _ => .inl⟩
  | registers url source => exact .inr fun _ => ⟨rfl, fun _ => .inl⟩

theorem KeepsStyles.perform (h : r.KeepsStyles) (hf : r.host.Fresh) (a : Action) :
    (r.perform a).KeepsStyles := by
  rcases (effect_perform hf a).kept with hnone | hkept
  · exact keepsStyles_of_cache_eq_nil hnone
  · intro context style hstyle
    rw [(hkept context).1]
    exact ((hkept context).2 style hstyle).elim (h context style) id

theorem Consistent.perform (h : Consistent r) (a : Action) : Consistent (r.perform a) :=
  ⟨h.toSound.perform a, h.keeps.perform h.fresh a⟩

theorem Sound.after (h : Sound r) (actions : List Action) : Sound (r.after actions) := by
  induction actions generalizing r with
  | nil => exact h
  | cons a actions ih => exact ih (h.perform a)

theorem Consistent.after (h : Consistent r) (actions : List Action) :
    Consistent (r.after actions) := by
  induction actions generalizing r with
  | nil => exact h
  | cons a actions ih => exact ih (h.perform a)

end CssTheming.Resolver
