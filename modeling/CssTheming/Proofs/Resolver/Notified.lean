import CssTheming.Proofs.Resolver.Overlay

/-!
# What subscriptions are told

A subscription is told of exactly the changes of theme that succeed while it lasts, and of each one
only when it is complete. One lemma says what a single action tells everyone and what it does to the
subscriptions; what a run tells one of them follows by induction, from the number that it was given
to the first action that ends it.
-/

namespace CssTheming

/-! ## Subscriptions -/

namespace Listeners

/-- The numbers in use were given out before, and stand in the order of the subscriptions. -/
structure Ordered (l : Listeners) : Prop where
  ascending : l.ids.Pairwise (· < ·)
  below : ∀ id ∈ l.ids, id < l.nextId

variable {l : Listeners}

theorem ordered_empty : empty.Ordered := ⟨.nil, by simp [empty]⟩

theorem Ordered.subscribe (h : l.Ordered) : l.subscribe.Ordered where
  ascending := by
    apply List.pairwise_append.2
    refine ⟨h.ascending, List.pairwise_singleton _ _, fun id hid next hnext => ?_⟩
    rw [List.mem_singleton.1 hnext]
    exact h.below id hid
  below := by
    intro id hid
    rcases List.mem_append.1 hid with hid | hid
    · exact Nat.lt_succ_of_lt (h.below id hid)
    · rw [List.mem_singleton.1 hid]
      exact Nat.lt_succ_self _

theorem Ordered.unsubscribe (h : l.Ordered) (id : Nat) : (l.unsubscribe id).Ordered where
  ascending := h.ascending.filter _
  below := fun id' hid' => h.below id' (List.mem_filter.1 hid').1

@[simp] theorem isSubscribed_unsubscribe (id id' : Nat) :
    (l.unsubscribe id).isSubscribed id' = (l.isSubscribed id' && id' ≠ id) := by
  apply Bool.eq_iff_iff.2
  simp [isSubscribed, unsubscribe]

theorem isSubscribed_iff_size_ne (id : Nat) :
    l.isSubscribed id = true ↔ (l.unsubscribe id).size ≠ l.size := by
  simp [isSubscribed, unsubscribe, size, List.length_filter_eq_length_iff]

@[simp] theorem isSubscribed_subscribe (id : Nat) :
    l.subscribe.isSubscribed id = (l.isSubscribed id || id = l.nextId) := by
  simp [isSubscribed, subscribe]

/-- Each subscription is told of an event once. -/
theorem Ordered.filter_deliver {α : Type} (h : l.Ordered) (id : Nat) (event : α) :
    ((l.deliver event).filter (·.1 = id)).map (·.2) =
      if l.isSubscribed id then [event] else [] := by
  have hnodup : l.ids.Nodup := h.ascending.imp Nat.ne_of_lt
  have hcount : l.ids.filter (fun id' => decide (id' = id)) =
      List.replicate (if id ∈ l.ids then 1 else 0) id := by
    rw [← hnodup.count, List.filter_eq]
  calc
    _ = (l.ids.filter (fun id' => decide (id' = id))).map fun _ => event := by
      rw [deliver, List.filter_map, List.map_map]
      rfl
    _ = _ := by
      rw [hcount]
      by_cases hmem : id ∈ l.ids <;> simp [isSubscribed, hmem]

end Listeners

namespace Resolver

def Action.isSubscribe : Action → Bool
  | .subscribe => true
  | _ => false

/-- Whether an action asks for the end of a subscription. -/
def Action.unsubscribes (id : Nat) : Action → Bool
  | .unsubscribe id' => id' = id
  | _ => false

variable {r : Resolver}

theorem listeners_change (name : String) (loading : Loading) :
    (r.change name loading).resolver.listeners = r.listeners := by
  unfold change
  split
  · rfl
  · dsimp only
    split
    · rfl
    · split <;> rfl

theorem SameButCache.listeners_eq {r' : Resolver} (h : SameButCache r r') :
    r'.listeners = r.listeners := by
  rw [SameButCache] at h
  rw [h]

/-- Only subscribing and unsubscribing changes who is told. -/
theorem listeners_perform (a : Action) :
    (r.perform a).listeners = match a with
      | .subscribe => r.listeners.subscribe
      | .unsubscribe id => r.listeners.unsubscribe id
      | _ => r.listeners := by
  cases a with
  | setTheme name => exact listeners_change name .ends
  | abandonTheme name => exact listeners_change name .isAbandoned
  | property key context => exact (looksUp_property key context).same.listeners_eq
  | contextClass key context => exact (looksUp_property key context).same.listeners_eq
  | classNames classes => exact (looksUp_classNames classes).same.listeners_eq
  | subscribe => rfl
  | unsubscribe id => rfl
  | register url source => rfl

theorem ordered_perform (h : r.listeners.Ordered) (a : Action) :
    (r.perform a).listeners.Ordered := by
  rw [listeners_perform]
  split
  · exact h.subscribe
  · exact h.unsubscribe _
  · exact h

theorem nextId_perform (a : Action) :
    (r.perform a).listeners.nextId = r.listeners.nextId + a.isSubscribe.toNat := by
  rw [listeners_perform]
  cases a <;> rfl

/-- A subscription begins with its number and lasts until its end is asked for. -/
theorem isSubscribed_perform (a : Action) (id : Nat) :
    (r.perform a).listeners.isSubscribed id =
      (r.listeners.isSubscribed id && !a.unsubscribes id ||
        a.isSubscribe && id = r.listeners.nextId) := by
  rw [listeners_perform]
  cases a with
  | unsubscribe id' => simp [Action.unsubscribes, Action.isSubscribe, eq_comm]
  | _ => simp [Action.unsubscribes, Action.isSubscribe]

/-! ## One action -/

/-- The theme that an action changes to, if it succeeds in that. -/
def changedTo? (r : Resolver) : Action → Option String
  | .setTheme name => (r.setTheme name).result.toOption.map fun _ => name
  | _ => none

theorem notified_notifications (change : Change) :
    (r.notifications change).filterMap Event.notified? = r.listeners.deliver ⟨change, r⟩ := by
  unfold notifications
  rw [List.filterMap_map]
  exact List.filterMap_some

theorem Sound.changedTo?_eq (h : Sound r) (a : Action) :
    r.changedTo? a = (r.brought? a).map (·.1.name) := by
  cases a with
  | setTheme name =>
    rcases setTheme_cases h.fresh name with
      ⟨-, hc⟩ | ⟨entry, hentry, ⟨message, -, hc⟩ | ⟨p, hfetch, hc⟩⟩
    · simp [changedTo?, brought?, hc, Except.toOption]
    · simp [changedTo?, brought?, hc, Except.toOption]
    · simp [changedTo?, brought?, hc, hentry, hfetch, Except.toOption, name_of_named? hentry]
  | _ => rfl

/-- A change that succeeds tells everyone of itself, in turn, and finds the resolver as it leaves
it. Nothing else tells anyone anything. -/
theorem Sound.notified_seen (h : Sound r) (a : Action) :
    (r.seen a).filterMap Event.notified? = (r.changedTo? a).toList.flatMap fun theme =>
      r.listeners.deliver ⟨⟨theme, r.currentTheme⟩, r.perform a⟩ := by
  cases a with
  | setTheme name =>
    rw [seen, changedTo?, Resolver.perform]
    rcases setTheme_cases h.fresh name with
      ⟨-, hc⟩ | ⟨entry, hentry, ⟨message, -, hc⟩ | ⟨p, -, hc⟩⟩ <;> rw [hc]
    · rfl
    · rfl
    · rw [List.filterMap_cons_none rfl, notified_notifications, name_of_named? hentry]
      exact (List.append_nil _).symm
  | abandonTheme name =>
    rw [seen]
    rcases abandonTheme_cases name with ⟨-, hc⟩ | ⟨entry, -, hc⟩ <;> rw [hc] <;> rfl
  | property key context => exact (stylesOnly_property key context).filterMap_eq_nil fun _ => rfl
  | contextClass key context =>
    exact (stylesOnly_property key context).filterMap_eq_nil fun _ => rfl
  | classNames classes => exact (stylesOnly_classNames classes).filterMap_eq_nil fun _ => rfl
  | subscribe => rfl
  | unsubscribe id => rfl
  | register url source => rfl

theorem Sound.currentTheme_perform (h : Sound r) (a : Action) :
    (r.perform a).currentTheme = (r.changedTo? a).or r.currentTheme := by
  rw [h.changedTo?_eq]
  rcases h.perform_cases a with ⟨hnone, hsame⟩ | ⟨entry, p, hbrought, hcommit⟩
  · rw [hnone, currentTheme, hsame.active]
    rfl
  · rw [hbrought, hcommit]
    rfl

/-- A change of theme is told of when it is complete: the new theme is active and the resolver
ready, the previous theme's stylesheet is off, and the new one is loaded and stands last. -/
structure Completes (r : Resolver) (notice : Notice) : Prop where
  previous : notice.previous = r.currentTheme
  ready : notice.during.ready = true
  attached : ∃ entry p, r.named? notice.theme = some entry ∧
    notice.during.active = some (notice.theme, ⟨r.host.nextId, entry.url⟩) ∧
    notice.during.host.attached =
      (r.host.attached.filter fun a => r.active.all fun x => a.id ≠ x.2.id) ++
        [⟨r.host.nextId, entry.url, some p⟩]

theorem Sound.completes (h : Sound r) {a : Action} {theme : String}
    (ha : r.changedTo? a = some theme) :
    r.Completes ⟨⟨theme, r.currentTheme⟩, r.perform a⟩ := by
  cases a with
  | setTheme name =>
    rw [changedTo?] at ha
    rw [Resolver.perform]
    rcases setTheme_cases h.fresh name with
      ⟨-, hc⟩ | ⟨entry, hentry, ⟨message, -, hc⟩ | ⟨p, -, hc⟩⟩ <;> rw [hc] at ha ⊢
    · cases ha
    · cases ha
    · obtain rfl : name = theme := Option.some.inj ha
      have hactive : ((r.begin entry.url).commit entry.name (r.host.nextHandle entry.url)
          (r.hostWith entry.url p)).active = some (name, ⟨r.host.nextId, entry.url⟩) := by
        rw [name_of_named? hentry]
        rfl
      exact ⟨rfl, rfl, entry, p, hentry, hactive, h.attached_commit entry.name entry.url p⟩
  | _ => cases ha

/-- Whoever is told of a change finds it complete. -/
theorem Sound.completes_of_mem_seen (h : Sound r) {a : Action} {subscription : Nat}
    {notice : Notice} (hmem : .notified subscription notice ∈ r.seen a) : r.Completes notice := by
  have htold : (subscription, notice) ∈ (r.seen a).filterMap Event.notified? :=
    List.mem_filterMap.2 ⟨_, hmem, rfl⟩
  rw [h.notified_seen, List.mem_flatMap] at htold
  obtain ⟨theme, htheme, hdelivered⟩ := htold
  obtain ⟨other, -, hnotice⟩ := List.mem_map.1 hdelivered
  obtain rfl := (Prod.mk.inj hnotice).2
  exact h.completes (Option.mem_toList.1 htheme)

/-! ## Runs -/

/-- The changes of theme in a run that succeed, each with the resolver as it leaves it. -/
def changes (r : Resolver) : List Action → List Notice
  | [] => []
  | a :: actions =>
    ((r.changedTo? a).toList.map fun theme => ⟨⟨theme, r.currentTheme⟩, r.perform a⟩) ++
      (r.perform a).changes actions

/-- What a subscription is told during a run. -/
def told (r : Resolver) (id : Nat) : List Action → List Notice
  | [] => []
  | a :: actions =>
    (((r.seen a).filterMap Event.notified?).filter (·.1 = id)).map (·.2) ++
      (r.perform a).told id actions

/-- What a run is answered where it asks for the end of a subscription. -/
def answers (r : Resolver) (id : Nat) : List Action → List Bool
  | [] => []
  | a :: actions =>
    (if a.unsubscribes id then [r.listeners.isSubscribed id] else []) ++
      (r.perform a).answers id actions

/-- The numbers that a run is given for its subscriptions. -/
def given (r : Resolver) : List Action → List Nat
  | [] => []
  | a :: actions =>
    (if a.isSubscribe then [r.listeners.nextId] else []) ++ (r.perform a).given actions

theorem given_eq_range' (actions : List Action) :
    r.given actions = List.range' r.listeners.nextId (actions.countP (·.isSubscribe)) := by
  induction actions generalizing r with
  | nil => rfl
  | cons a actions ih =>
    rw [given, ih, nextId_perform, List.countP_cons]
    cases a.isSubscribe <;> simp [List.range'_succ]

theorem nextId_after (actions : List Action) :
    (r.after actions).listeners.nextId =
      r.listeners.nextId + actions.countP (·.isSubscribe) := by
  induction actions generalizing r with
  | nil => rfl
  | cons a actions ih =>
    rw [after_cons, ih, nextId_perform, List.countP_cons]
    cases a.isSubscribe <;> simp
    omega

theorem ordered_after (h : r.listeners.Ordered) (actions : List Action) :
    (r.after actions).listeners.Ordered := by
  induction actions generalizing r with
  | nil => exact h
  | cons a actions ih => exact ih (ordered_perform h a)

/-- Who is subscribed is told of what an action changes. -/
theorem Sound.told_cons (h : Sound r) (ho : r.listeners.Ordered) (id : Nat) (a : Action)
    (actions : List Action) :
    r.told id (a :: actions) =
      (if r.listeners.isSubscribed id then
        (r.changedTo? a).toList.map fun theme => ⟨⟨theme, r.currentTheme⟩, r.perform a⟩
        else []) ++ (r.perform a).told id actions := by
  rw [told, h.notified_seen]
  cases r.changedTo? a with
  | none => simp
  | some theme => simp [ho.filter_deliver]

/-- Nobody is told anything under a number that is not in use. -/
theorem Sound.told_of_not_isSubscribed (h : Sound r) (ho : r.listeners.Ordered) {id : Nat}
    (hnot : r.listeners.isSubscribed id = false) {actions : List Action}
    (hid : id ∉ r.given actions) :
    r.told id actions = [] ∧
      r.answers id actions = List.replicate (actions.countP (·.unsubscribes id)) false := by
  induction actions generalizing r with
  | nil => exact ⟨rfl, rfl⟩
  | cons a actions ih =>
    rw [given, List.mem_append, not_or] at hid
    have hnot' : (r.perform a).listeners.isSubscribed id = false := by
      rw [isSubscribed_perform, hnot]
      cases ha : a.isSubscribe with
      | false => simp
      | true => simpa [ha] using hid.1
    obtain ⟨htold, hanswers⟩ := ih (h.perform a) (ordered_perform ho a) hnot' hid.2
    constructor
    · simp [h.told_cons ho, hnot, htold]
    · rw [answers, hanswers, hnot, List.countP_cons]
      cases a.unsubscribes id <;> simp [List.replicate_succ]

theorem changedTo?_of_unsubscribes {a : Action} {id : Nat} (h : a.unsubscribes id = true) :
    r.changedTo? a = none := by
  cases a with
  | unsubscribe id' => rfl
  | _ => cases h

/-- Until its end is asked for a subscription is told of every change. After that there is nothing
left of it. -/
theorem Sound.told_of_isSubscribed (h : Sound r) (ho : r.listeners.Ordered) {id : Nat}
    (hsub : r.listeners.isSubscribed id = true) (actions : List Action) :
    r.told id actions = r.changes (actions.takeWhile fun a => !a.unsubscribes id) ∧
      ∀ n, actions.countP (·.unsubscribes id) = n + 1 →
        r.answers id actions = true :: List.replicate n false := by
  induction actions generalizing r with
  | nil => exact ⟨rfl, fun n hn => by cases hn⟩
  | cons a actions ih =>
    have hlt : id < r.listeners.nextId := by
      apply ho.below
      simpa [Listeners.isSubscribed] using hsub
    have hsub' := isSubscribed_perform (r := r) a id
    rw [h.told_cons ho, if_pos hsub, answers, List.countP_cons]
    cases ha : a.unsubscribes id with
    | false =>
      obtain ⟨htold, hanswers⟩ :=
        ih (h.perform a) (ordered_perform ho a) (by simp [hsub', hsub, ha])
      rw [List.takeWhile_cons_of_pos (by simp [ha]), changes, htold]
      exact ⟨rfl, hanswers⟩
    | true =>
      have hgone : (r.perform a).listeners.isSubscribed id = false := by
        simp [hsub', ha, Nat.ne_of_lt hlt]
      have hid : id ∉ (r.perform a).given actions := by
        rw [given_eq_range', nextId_perform, List.mem_range'_1]
        omega
      obtain ⟨htold, hanswers⟩ :=
        (h.perform a).told_of_not_isSubscribed (ordered_perform ho a) hgone hid
      rw [List.takeWhile_cons_of_neg (by simp [ha]), changedTo?_of_unsubscribes ha, htold, hanswers,
        hsub]
      refine ⟨rfl, fun n hn => ?_⟩
      rw [Nat.succ.inj hn]
      rfl

/-- Each change names the theme that the one before it made active. -/
theorem Sound.previous_changes (h : Sound r) (actions : List Action) :
    (r.changes actions).map (·.previous) ++ [(r.after actions).currentTheme] =
      r.currentTheme :: (r.changes actions).map fun notice => some notice.theme := by
  induction actions generalizing r with
  | nil => rfl
  | cons a actions ih =>
    have hrest := ih (h.perform a)
    rw [h.currentTheme_perform] at hrest
    rw [changes, after_cons, List.map_append, List.append_assoc, hrest, List.map_append]
    cases r.changedTo? a <;> rfl

/-- Whatever a run did before, a new subscription gets a number of its own. It is told, in order, of
exactly the changes that succeed until its end is asked for; each names the theme that was active
just before. The first request for its end is answered with true, every other one with false.
Those who are subscribed are told of a change in the order of their subscriptions. Whoever is told
finds the new theme active and ready and the previous stylesheet off. -/
theorem told_after {host : Host} (hf : host.Fresh) (themes : List Entry) (options : Options)
    (before actions : List Action) :
    let start := create host themes options
    let r := start.after before
    let id := r.listeners.nextId
    let lasting := actions.takeWhile fun a => !a.unsubscribes id
    let told := r.subscribe.told id actions
    (start.given before = List.range id ∧ r.listeners.ids.Pairwise (· < ·)) ∧
    (start.told id before = [] ∧ told = r.subscribe.changes lasting ∧
      told.map (·.previous) ++ [(r.subscribe.after lasting).currentTheme] =
        r.currentTheme :: told.map fun notice => some notice.theme) ∧
    (start.answers id before = List.replicate (before.countP (·.unsubscribes id)) false ∧
      (∀ n, actions.countP (·.unsubscribes id) = n + 1 →
        r.subscribe.answers id actions = true :: List.replicate n false) ∧
      ∀ ended, (r.listeners.isSubscribed ended = true ↔
          (r.unsubscribe ended).listeners.size ≠ r.listeners.size) ∧
        ∀ other, (r.unsubscribe ended).listeners.isSubscribed other =
          (r.listeners.isSubscribed other && other ≠ ended)) ∧
    (∀ a, (r.seen a).filterMap Event.notified? = (r.changedTo? a).toList.flatMap fun theme =>
      r.listeners.ids.map fun other => (other, ⟨⟨theme, r.currentTheme⟩, r.perform a⟩)) ∧
    ∀ a subscription notice, .notified subscription notice ∈ r.seen a →
      notice.previous = r.currentTheme ∧ notice.during.ready = true ∧
      ∃ entry p, themes.find? (fun e => e.name = notice.theme) = some entry ∧
        notice.during.active = some (notice.theme, ⟨r.host.nextId, entry.url⟩) ∧
        notice.during.host.attached =
          (r.host.attached.filter fun a => r.active.all fun x => a.id ≠ x.2.id) ++
            [⟨r.host.nextId, entry.url, some p⟩] := by
  intro start r id lasting told
  have hstart : Sound start := sound_create hf themes options
  have h : Sound r := hstart.after before
  have hbegun : Sound r.subscribe := h.perform .subscribe
  have ho : r.listeners.Ordered := ordered_after Listeners.ordered_empty before
  have hgiven : start.given before = List.range id := by
    have hid : id = 0 + before.countP (·.isSubscribe) := nextId_after before
    rw [given_eq_range', hid, Nat.zero_add, List.range_eq_range']
    rfl
  obtain ⟨hearlier, hrefused⟩ := hstart.told_of_not_isSubscribed Listeners.ordered_empty rfl
    (show id ∉ start.given before by simp [hgiven])
  have hsub : r.subscribe.listeners.isSubscribed id = true := by simp [subscribe, id]
  obtain ⟨htold, hanswers⟩ := hbegun.told_of_isSubscribed ho.subscribe hsub actions
  refine ⟨⟨hgiven, ho.ascending⟩, ⟨hearlier, htold, ?_⟩, ⟨hrefused, hanswers, fun ended => ?_⟩,
    h.notified_seen, fun a subscription notice hmem => ?_⟩
  · rw [show told = _ from htold]
    exact hbegun.previous_changes lasting
  · exact ⟨Listeners.isSubscribed_iff_size_ne ended, Listeners.isSubscribed_unsubscribe ended⟩
  · have hthemes : r.themes = themes := (settings_after before).1
    obtain ⟨hprevious, hready, hattached⟩ := h.completes_of_mem_seen hmem
    rw [named?, hthemes] at hattached
    exact ⟨hprevious, hready, hattached⟩

/-- Two themes with the same stylesheet, and one whose stylesheet does not load. -/
def paleAndLight : List Entry :=
  [⟨"light", "/light.css"⟩, ⟨"pale", "/light.css"⟩, ⟨"dark", "/dark.css"⟩]

/-- Changes that succeed, fail and are given up, until the end of the second subscription and
after. -/
def endingSecond : List Action :=
  [.setTheme "pale", .setTheme "dark", .unsubscribe 0, .abandonTheme "light", .setTheme "light",
    .unsubscribe 1, .setTheme "pale", .unsubscribe 1]

theorem told_after_endingSecond :
    brokenDark.Fresh ∧
      let r := (create brokenDark paleAndLight {}).after [.subscribe, .setTheme "light"]
      (r.subscribe.told 1 endingSecond).map (·.toChange) =
          [⟨"pale", some "light"⟩, ⟨"light", some "pale"⟩] ∧
        ((r.subscribe.told 1 endingSecond).map fun notice =>
            (notice.during.currentTheme, notice.during.host.attached.map (·.id))) =
          [(some "pale", [1]), (some "light", [4])] ∧
        r.subscribe.answers 1 endingSecond = [true, false] := by
  have hf : brokenDark.Fresh := by
    intro a ha
    cases ha
  have hnext : ((create brokenDark paleAndLight {}).after
      [.subscribe, .setTheme "light"]).listeners.nextId = 1 := nextId_after _
  obtain ⟨-, ⟨-, htold, -⟩, ⟨-, hanswers, -⟩, -⟩ :=
    told_after hf paleAndLight {} [.subscribe, .setTheme "light"] endingSecond
  rw [hnext] at htold hanswers
  refine ⟨hf, ?_, ?_, hanswers 1 ?_⟩
  · rw [htold]
    decide +kernel
  · rw [htold]
    decide +kernel
  · decide +kernel

end Resolver
end CssTheming
