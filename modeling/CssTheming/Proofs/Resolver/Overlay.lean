import CssTheming.Proofs.Resolver.Attachment
import CssTheming.Proofs.Resolver.Cascade
import CssTheming.Proofs.Resolver.Shared

/-!
# The theme's stylesheet among others

A host may have stylesheets of its own. Only a change that succeeds changes what a resolver attaches
to it: it takes the previous theme's stylesheet off and puts the new one last. There it stays, one
among the others, until the next such change, whatever others do with theirs.
-/

namespace CssTheming

/-! ## One stylesheet of a host -/

namespace Host

variable {h : Host} {a : Attached} {act : Action}

/-- A stylesheet is attached, and no other one has its number. -/
def Holds (h : Host) (a : Attached) : Prop :=
  ∃ front back, h.attached = front ++ a :: back ∧ ∀ b ∈ front ++ back, b.id ≠ a.id

/-- An action does nothing with the stylesheet of a number. -/
def Action.Spares (id : Nat) : Action → Prop
  | .load handle | .remove handle => handle.id ≠ id
  | _ => True

instance (id : Nat) (act : Action) : Decidable (act.Spares id) :=
  match act with
  | .load handle | .remove handle => inferInstanceAs (Decidable (handle.id ≠ id))
  | .register _ _ | .insert _ => inferInstanceAs (Decidable True)

theorem Holds.fill (hh : h.Holds a) {id : Nat} (hne : a.id ≠ id) (p : CustomProperties) :
    (h.fill id p).Holds a := by
  obtain ⟨front, back, hattached, hothers⟩ := hh
  have hfill : (h.fill id p).attached =
      front.map (fun b => if b.id = id then { b with properties := some p } else b) ++
        a :: back.map (fun b => if b.id = id then { b with properties := some p } else b) := by
    rw [Host.fill, hattached, List.map_append, List.map_cons, if_neg hne]
  refine ⟨_, _, hfill, fun b hb => ?_⟩
  rw [← List.map_append] at hb
  obtain ⟨b', hb', rfl⟩ := List.mem_map.1 hb
  have hne' : b'.id ≠ a.id := hothers b' hb'
  split <;> exact hne'

theorem Holds.insert (hh : h.Holds a) (hlt : a.id < h.nextId) (url : String) :
    (h.insert url).Holds a := by
  obtain ⟨front, back, hattached, hothers⟩ := hh
  refine ⟨front, back ++ [⟨h.nextId, url, none⟩], ?_, fun b hb => ?_⟩
  · rw [Host.insert, hattached, List.append_assoc, List.cons_append]
  · rw [← List.append_assoc] at hb
    rcases List.mem_append.1 hb with hb | hb
    · exact hothers b hb
    · rw [List.mem_singleton.1 hb]
      exact Nat.ne_of_gt hlt

theorem Holds.remove (hh : h.Holds a) {handle : Handle} (hne : handle.id ≠ a.id) :
    (h.remove handle).Holds a := by
  obtain ⟨front, back, hattached, hothers⟩ := hh
  refine ⟨front.filter (·.id ≠ handle.id), back.filter (·.id ≠ handle.id), ?_, fun b hb => ?_⟩
  · have hkeep : (a :: back).filter (·.id ≠ handle.id) = a :: back.filter (·.id ≠ handle.id) :=
      List.filter_cons_of_pos (decide_eq_true hne.symm)
    rw [Host.remove, hattached, List.filter_append, hkeep]
  · rw [← List.filter_append] at hb
    exact hothers b (List.mem_of_mem_filter hb)

theorem Holds.perform (hh : h.Holds a) (hlt : a.id < h.nextId) (hs : act.Spares a.id) :
    (h.perform act).Holds a := by
  cases act with
  | register url source => exact hh
  | insert url => exact hh.insert hlt url
  | remove handle => exact hh.remove hs
  | load handle =>
    rw [perform_load]
    cases h.sheetAt? handle.url with
    | none => exact hh
    | some s => exact hh.fill (Ne.symm hs) (.ofSheet s)

end Host

namespace Resolver

variable {r : Resolver} {s : Step} {steps : List Step}

/-! ## Steps -/

/-- The same stylesheets are attached, and the same theme is active. -/
structure SameAttachment (r r' : Resolver) : Prop where
  active : r'.active = r.active
  ready : r'.ready = r.ready
  attached : r'.host.attached = r.host.attached

theorem SameButCache.sameAttachment {r' : Resolver} (h : SameButCache r r') :
    SameAttachment r r' := by
  rw [SameButCache] at h
  rw [h]
  exact ⟨rfl, rfl, rfl⟩

theorem Sound.sameAttachment_withdraw (h : Sound r) (url : String) :
    SameAttachment r ((r.begin url).withdraw (r.host.nextHandle url)) := by
  rw [withdraw_begin h.fresh]
  exact ⟨rfl, h.ready.symm, rfl⟩

/-- Only a change that succeeds changes what is attached. -/
theorem Sound.perform_cases (h : Sound r) (a : Action) :
    r.brought? a = none ∧ SameAttachment r (r.perform a) ∨
      ∃ entry p, r.brought? a = some (entry, p) ∧ r.perform a =
        (r.begin entry.url).commit entry.name (r.host.nextHandle entry.url)
          (r.hostWith entry.url p) := by
  cases a with
  | setTheme name =>
    rcases setTheme_cases h.fresh name with
      ⟨-, hc⟩ | ⟨entry, hentry, ⟨message, -, hc⟩ | ⟨p, hfetch, hc⟩⟩
    · refine .inl ⟨by simp only [brought?, hc], ?_⟩
      rw [Resolver.perform, hc]
      exact ⟨rfl, rfl, rfl⟩
    · refine .inl ⟨by simp only [brought?, hc], ?_⟩
      rw [Resolver.perform, hc]
      exact h.sameAttachment_withdraw entry.url
    · refine .inr ⟨entry, p, ?_, by rw [Resolver.perform, hc]⟩
      simp only [brought?, hc, hentry, hfetch]
      rfl
  | abandonTheme name =>
    refine .inl ⟨rfl, ?_⟩
    rw [Resolver.perform]
    rcases abandonTheme_cases name with ⟨-, hc⟩ | ⟨entry, -, hc⟩ <;> rw [hc]
    · exact ⟨rfl, rfl, rfl⟩
    · exact h.sameAttachment_withdraw entry.url
  | property key context => exact .inl ⟨rfl, (looksUp_property key context).same.sameAttachment⟩
  | contextClass key context =>
    exact .inl ⟨rfl, (looksUp_property key context).same.sameAttachment⟩
  | classNames classes => exact .inl ⟨rfl, (looksUp_classNames classes).same.sameAttachment⟩
  | subscribe => exact .inl ⟨rfl, rfl, rfl, rfl⟩
  | unsubscribe id => exact .inl ⟨rfl, rfl, rfl, rfl⟩
  | register url source => exact .inl ⟨rfl, rfl, rfl, rfl⟩

/-- A change to a theme whose stylesheet can be read succeeds and brings what is read. -/
theorem setTheme_of_fetch {entry : Entry} {p : CustomProperties} (hf : r.host.Fresh)
    (hentry : r.named? entry.name = some entry) (hfetch : r.host.fetch entry.url = .ok p) :
    (r.setTheme entry.name).result = .ok () ∧ (r.setTheme entry.name).resolver =
      (r.begin entry.url).commit entry.name (r.host.nextHandle entry.url)
        (r.hostWith entry.url p) := by
  rw [setTheme_of_entry hf hentry, hfetch]
  exact ⟨rfl, rfl⟩

/-- The stylesheet of a theme takes the place of the previous one and stands last. -/
theorem Sound.attached_commit (h : Sound r) (name url : String) (p : CustomProperties) :
    ((r.begin url).commit name (r.host.nextHandle url) (r.hostWith url p)).host.attached =
      (r.host.attached.filter fun a => r.active.all fun x => a.id ≠ x.2.id) ++
        [⟨r.host.nextId, url, some p⟩] := by
  unfold Resolver.commit begin
  dsimp only
  cases hactive : r.active with
  | none =>
    have hall : r.host.attached.filter (fun _ => true) = r.host.attached :=
      List.filter_eq_self.2 fun _ _ => rfl
    simp [hostWith, hall]
  | some x =>
    have hlt : x.2.id < r.host.nextId := h.active x hactive
    simp [hostWith, Host.remove, Nat.ne_of_gt hlt]

/-! ## The active theme's stylesheet -/

/-- The stylesheet of the active theme is attached and declares what is told. -/
def Wears (r : Resolver) (p : CustomProperties) : Prop :=
  ∃ x, r.active = some x ∧ r.host.Holds ⟨x.2.id, x.2.url, some p⟩

theorem Sound.wears_commit (h : Sound r) (name url : String) (p : CustomProperties) :
    Wears ((r.begin url).commit name (r.host.nextHandle url) (r.hostWith url p)) p := by
  refine ⟨(name, r.host.nextHandle url), rfl, _, [], h.attached_commit name url p, fun b hb => ?_⟩
  rw [List.append_nil] at hb
  exact Nat.ne_of_lt (h.fresh b (List.mem_of_mem_filter hb))

/-- A step brings no other theme, and does nothing with the active one's stylesheet. -/
def Step.Spares (r : Resolver) : Step → Prop
  | .own a => r.brought? a = none
  | .host a => ∀ x ∈ r.active, a.Spares x.2.id

instance (r : Resolver) (s : Step) : Decidable (s.Spares r) :=
  match s with
  | .own a => inferInstanceAs (Decidable (r.brought? a = none))
  | .host a => inferInstanceAs (Decidable (∀ x ∈ r.active, a.Spares x.2.id))

theorem Wears.step {p : CustomProperties} (hw : r.Wears p) (h : Sound r) (hs : s.Spares r) :
    (r.step s).Wears p := by
  obtain ⟨x, hactive, hholds⟩ := hw
  cases s with
  | own a =>
    rcases h.perform_cases a with ⟨-, hsame⟩ | ⟨entry, q, hbrought, -⟩
    · refine ⟨x, hsame.active.trans hactive, ?_⟩
      rw [Host.Holds, step, hsame.attached]
      exact hholds
    · have hnone : r.brought? a = none := hs
      rw [hnone] at hbrought
      cases hbrought
  | host a => exact ⟨x, hactive, hholds.perform (h.active x hactive) (hs x hactive)⟩

/-- Of the loaded stylesheets only the active theme's may declare anything for a key in a
context. -/
def OthersSilent (r : Resolver) (key : String) (context : Option String) : Prop :=
  ∀ a ∈ r.host.attached, (∀ x ∈ r.active, a.id ≠ x.2.id) → ∀ p ∈ a.properties,
    p.IsSilent ("--" ++ r.options.propertyPrefix ++ key) (r.probeClass context)

instance (r : Resolver) (key : String) (context : Option String) :
    Decidable (r.OthersSilent key context) :=
  List.decidableBAll (fun a : Host.Attached => (∀ x ∈ r.active, a.id ≠ x.2.id) →
    ∀ p ∈ a.properties,
      p.IsSilent ("--" ++ r.options.propertyPrefix ++ key) (r.probeClass context))
    r.host.attached

variable {key : String} {context : Option String}

theorem OthersSilent.loaded {p : CustomProperties} (hsilent : r.OthersSilent key context)
    (hw : r.Wears p) :
    ∃ front back, r.host.loaded = front ++ p :: back ∧ ∀ q ∈ front ++ back,
      q.IsSilent ("--" ++ r.options.propertyPrefix ++ key) (r.probeClass context) := by
  obtain ⟨x, hactive, front, back, hattached, hothers⟩ := hw
  refine ⟨front.filterMap (·.properties), back.filterMap (·.properties), ?_, fun q hq => ?_⟩
  · rw [Host.loaded, hattached, List.filterMap_append]
    rfl
  · rw [← List.filterMap_append] at hq
    obtain ⟨a, ha, hq⟩ := List.mem_filterMap.1 hq
    have hmem : a ∈ r.host.attached := by
      rw [hattached]
      exact (List.perm_middle.mem_iff).2 (List.mem_cons_of_mem _ ha)
    refine hsilent a hmem (fun y hy => ?_) q hq
    rw [hactive] at hy
    obtain rfl := Option.some.inj hy
    exact hothers a ha

/-- The whole run spares the active theme's stylesheet, and nothing else that is loaded meanwhile
declares anything for a key in a context. -/
def Undisturbed (r : Resolver) (key : String) (context : Option String) : List Step → Prop
  | [] => r.OthersSilent key context
  | s :: steps =>
    r.OthersSilent key context ∧ s.Spares r ∧ (r.step s).Undisturbed key context steps

instance decidableUndisturbed (r : Resolver) (key : String) (context : Option String) :
    (steps : List Step) → Decidable (r.Undisturbed key context steps)
  | [] => inferInstanceAs (Decidable (r.OthersSilent key context))
  | s :: steps =>
    have := decidableUndisturbed (r.step s) key context steps
    inferInstanceAs (Decidable (_ ∧ _ ∧ _))

end Resolver

end CssTheming
