import CssTheming.Proofs.Resolver.Run

/-!
# The attached stylesheet

Over a host that nothing else is attached to, a resolver keeps exactly the stylesheet of its active
theme attached, and while another one loads it stands behind that. The invariant names the theme and
the declarations that the last successful change brought.
-/

namespace CssTheming.Resolver

/-- What a change of theme that succeeds brings: the theme and what its stylesheet declares at that
moment. -/
def brought? (r : Resolver) : Action → Option (Entry × CustomProperties)
  | .setTheme name =>
    match (r.setTheme name).result, r.named? name with
    | .ok (), some entry => (r.host.fetch entry.url).toOption.map (entry, ·)
    | _, _ => none
  | _ => none

/-- What the last change that succeeds in a run brings. -/
def lastBrought? (r : Resolver) : List Action → Option (Entry × CustomProperties)
  | [] => none
  | a :: actions => ((r.perform a).lastBrought? actions).or (r.brought? a)

/-- Nothing but the stylesheet of the active theme is attached, and that is loaded. -/
structure Settled (r : Resolver) (last : Option (Entry × CustomProperties)) : Prop where
  ready : r.ready = last.isSome
  active : ∃ id, r.active = last.map (fun l => (l.1.name, ⟨id, l.1.url⟩)) ∧
    r.host.attached = (last.map fun l => ⟨id, l.1.url, some l.2⟩).toList
  selected : ∀ l ∈ last, r.named? l.1.name = some l.1
  fresh : r.host.Fresh

variable {r : Resolver} {last : Option (Entry × CustomProperties)}

theorem settled_create {host : Host} (hEmpty : host.attached = []) (themes : List Entry)
    (options : Options) :
    Settled (create host themes options) none where
  ready := rfl
  active := ⟨0, rfl, hEmpty⟩
  selected := by simp
  fresh := by intro a ha; simp [create, hEmpty] at ha

/-- Lookups do not touch what the invariant speaks of. -/
theorem Settled.of_sameButCache {r' : Resolver} (h : Settled r last) (hs : SameButCache r r') :
    Settled r' last := by
  rw [hs]
  exact ⟨h.ready, h.active, h.selected, h.fresh⟩

/-- A stylesheet that does not stay leaves nothing behind. -/
theorem Settled.withdraw (h : Settled r last) (url : String) :
    Settled ((r.begin url).withdraw (r.host.nextHandle url)) last := by
  obtain ⟨id, hactive, hattached⟩ := h.active
  rw [withdraw_begin h.fresh]
  refine ⟨?_, ⟨id, hactive, hattached⟩, h.selected, fun a ha => Nat.lt_succ_of_lt (h.fresh a ha)⟩
  change r.active.isSome = last.isSome
  rw [hactive, Option.isSome_map]

/-- A stylesheet that has loaded takes the place of the one before. -/
theorem Settled.commit (h : Settled r last) {entry : Entry}
    (hentry : r.named? entry.name = some entry) (p : CustomProperties) :
    Settled ((r.begin entry.url).commit entry.name (r.host.nextHandle entry.url)
        (r.hostWith entry.url p))
      (some (entry, p)) := by
  have hhost : ((r.begin entry.url).commit entry.name (r.host.nextHandle entry.url)
        (r.hostWith entry.url p)).host =
      { r.host with
        attached := [⟨r.host.nextId, entry.url, some p⟩]
        nextId := r.host.nextId + 1 } := by
    obtain ⟨id, hactive, hattached⟩ := h.active
    have hfresh := h.fresh
    cases last with
    | none =>
      simp only [Option.map_none, Option.toList_none] at hactive hattached
      simp [Resolver.commit, begin, hostWith, hactive, hattached]
    | some l =>
      simp only [Option.map_some, Option.toList_some] at hactive hattached
      have hlt : id < r.host.nextId := hfresh ⟨id, l.1.url, some l.2⟩ (by simp [hattached])
      simp [Resolver.commit, begin, hostWith, hactive, hattached, Host.remove, Nat.ne_of_gt hlt]
  refine ⟨rfl, ⟨r.host.nextId, rfl, ?_⟩, ?_, ?_⟩
  · rw [hhost]
    rfl
  · intro l hl
    obtain rfl : (entry, p) = l := by simpa using hl
    exact hentry
  · rw [hhost]
    intro a ha
    simp only [List.mem_singleton] at ha
    rw [ha]
    exact Nat.lt_succ_self _

/-! ## Runs -/

theorem Settled.setTheme (h : Settled r last) (name : String) :
    Settled (r.setTheme name).resolver ((r.brought? (.setTheme name)).or last) := by
  rcases setTheme_cases h.fresh name with
    ⟨-, hc⟩ | ⟨entry, hentry, ⟨message, -, hc⟩ | ⟨p, hfetch, hc⟩⟩
  · simp only [brought?, hc]
    exact h
  · simp only [brought?, hc]
    exact h.withdraw entry.url
  · simp only [brought?, hc, hentry, hfetch]
    exact h.commit ((name_of_named? hentry).symm ▸ hentry) p

theorem Settled.abandonTheme (h : Settled r last) (name : String) :
    Settled (r.abandonTheme name).resolver last := by
  rcases abandonTheme_cases name with ⟨-, hc⟩ | ⟨entry, -, hc⟩ <;> rw [hc]
  · exact h
  · exact h.withdraw entry.url

theorem Settled.perform (h : Settled r last) (a : Action) :
    Settled (r.perform a) ((r.brought? a).or last) := by
  cases a with
  | setTheme name => exact h.setTheme name
  | abandonTheme name => exact h.abandonTheme name
  | property key context => exact h.of_sameButCache (looksUp_property key context).same
  | contextClass key context => exact h.of_sameButCache (looksUp_property key context).same
  | classNames classes => exact h.of_sameButCache (looksUp_classNames classes).same
  | subscribe => exact ⟨h.ready, h.active, h.selected, h.fresh⟩
  | unsubscribe id => exact ⟨h.ready, h.active, h.selected, h.fresh⟩
  | register url source => exact ⟨h.ready, h.active, h.selected, h.fresh⟩

theorem Settled.after (h : Settled r last) (actions : List Action) :
    Settled (r.after actions) ((r.lastBrought? actions).or last) := by
  induction actions generalizing r last with
  | nil => exact h
  | cons a actions ih =>
    have hstep := ih (h.perform a)
    rw [after_cons, lastBrought?, Option.or_assoc]
    exact hstep

/-- Whatever an action awaits, it does so once, with the previous stylesheet still in front of the
new one. -/
theorem Settled.awaited_seen (h : Settled r last) (a : Action) :
    (r.seen a).filterMap Event.awaited? =
      (a.target?.bind r.named?).toList.map fun entry =>
        (last.map (·.1.url)).toList ++ [entry.url] := by
  have hurls : r.host.attachedUrls = (last.map (·.1.url)).toList := by
    obtain ⟨id, -, hattached⟩ := h.active
    rw [Host.attachedUrls, hattached]
    cases last <;> rfl
  rw [← hurls]
  cases a with
  | setTheme name => exact awaited_setTheme h.fresh name
  | abandonTheme name => exact awaited_abandonTheme name
  | property key context => exact (stylesOnly_property key context).filterMap_eq_nil fun _ => rfl
  | contextClass key context =>
    exact (stylesOnly_property key context).filterMap_eq_nil fun _ => rfl
  | classNames classes => exact (stylesOnly_classNames classes).filterMap_eq_nil fun _ => rfl
  | subscribe => rfl
  | unsubscribe id => rfl
  | register url source => rfl

/-- After every run the resolver is ready exactly if a theme is active, that theme is the one of the
last change that succeeded, and exactly its stylesheet is attached, loaded. While a further load is
awaited, the new stylesheet stands behind that one. -/
theorem attached_after {host : Host} (hEmpty : host.attached = []) (themes : List Entry)
    (options : Options) (actions : List Action) :
    let r := (create host themes options).after actions
    let last := (create host themes options).lastBrought? actions
    r.ready = r.currentTheme.isSome ∧ r.currentTheme = last.map (·.1.name) ∧
      (∀ l ∈ last, themes.find? (fun e => e.name = l.1.name) = some l.1) ∧
      ∃ id, r.active.map (·.2) = last.map (fun l => ⟨id, l.1.url⟩) ∧
        r.host.attached = (last.map fun l => ⟨id, l.1.url, some l.2⟩).toList ∧
        ∀ a, (r.seen a).filterMap Event.awaited? =
            ((a.target?.bind fun name => themes.find? fun e => e.name = name).toList.map
              fun entry => (last.map (·.1.url)).toList ++ [entry.url]) ∧
          ∀ entry : Entry, (r.begin entry.url).host.attached =
            (last.map fun l => ⟨id, l.1.url, some l.2⟩).toList ++
              [⟨r.host.nextId, entry.url, none⟩] := by
  intro r last
  have hthemes : r.themes = themes := (settings_after actions).1
  have hs : Settled r last := by
    have hrun := (settled_create hEmpty themes options).after actions
    rwa [Option.or_none] at hrun
  obtain ⟨id, hactive, hattached⟩ := hs.active
  have hcurrent : r.currentTheme = last.map (·.1.name) := by
    rw [currentTheme, hactive, Option.map_map]
    rfl
  refine ⟨?_, hcurrent, ?_, id, ?_, hattached, fun a => ⟨?_, fun entry => ?_⟩⟩
  · rw [hs.ready, hcurrent, Option.isSome_map]
  · exact hthemes ▸ hs.selected
  · rw [hactive, Option.map_map]
    rfl
  · exact hthemes ▸ hs.awaited_seen a
  · rw [← hattached]
    rfl

/-- A host that serves one theme and fails for another. -/
def brokenDark : Host :=
  (Host.empty.register "/light.css" (.css ":root \x7b --makeup-gap: 4px; \x7d")).register
    "/dark.css" (.failing "404")

/-- A theme that is selected twice, with a failed, an abandoned and an unknown change in between. -/
def lightAgain : List Action :=
  [.setTheme "light", .setTheme "dark", .abandonTheme "light", .setTheme "sepia", .setTheme "light"]

theorem attached_after_lightAgain :
    brokenDark.attached = [] ∧
      let r :=
        (create brokenDark [⟨"light", "/light.css"⟩, ⟨"dark", "/dark.css"⟩] {}).after lightAgain
      r.ready = true ∧ r.currentTheme = some "light" ∧ r.host.attachedUrls = ["/light.css"] := by
  obtain ⟨hready, hcurrent, -, id, -, hattached, -⟩ :=
    attached_after (rfl : brokenDark.attached = [])
      [⟨"light", "/light.css"⟩, ⟨"dark", "/dark.css"⟩] {} lightAgain
  have hlast : ((create brokenDark [⟨"light", "/light.css"⟩, ⟨"dark", "/dark.css"⟩] {}).lastBrought?
      lightAgain).map (·.1) = some ⟨"light", "/light.css"⟩ := by
    decide +kernel
  obtain ⟨l, hl, hentry⟩ := Option.map_eq_some_iff.1 hlast
  rw [hl] at hcurrent hattached
  refine ⟨rfl, ?_, ?_, ?_⟩
  · rw [hready, hcurrent]
    rfl
  · rw [hcurrent, Option.map_some, hentry]
  · rw [Host.attachedUrls, hattached, Option.map_some, hentry]
    rfl

end CssTheming.Resolver
