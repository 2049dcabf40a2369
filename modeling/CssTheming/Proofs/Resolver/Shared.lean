import CssTheming.Proofs.Resolver.Consistent

/-!
# Shared hosts

A host is not its resolver's alone: others attach stylesheets to it, load them and take them off, by
the handles that it gives them. What happens to a resolver is then a step of its own or one of
theirs, and a style that the resolver keeps need not be the host's any more. A run is current if
none of its lookups meets such a style. Where others leave the stylesheets alone every run is.
-/

namespace CssTheming.Resolver

/-- A resolver acts, or others do something with its host. -/
inductive Step where
  | own (a : Action)
  | host (a : Host.Action)

variable {r : Resolver} {s : Step} {steps : List Step}

def step (r : Resolver) : Step → Resolver
  | .own a => r.perform a
  | .host a => { r with host := r.host.perform a }

/-- The resolver after a run of steps. -/
def through (r : Resolver) (steps : List Step) : Resolver := steps.foldl step r

@[simp] theorem through_cons (r : Resolver) (s : Step) (steps : List Step) :
    r.through (s :: steps) = (r.step s).through steps :=
  rfl

theorem through_own (r : Resolver) (actions : List Action) :
    r.through (actions.map .own) = r.after actions :=
  List.foldl_map

theorem settings_through (r : Resolver) (steps : List Step) :
    (r.through steps).themes = r.themes ∧ (r.through steps).options = r.options := by
  induction steps generalizing r with
  | nil => exact ⟨rfl, rfl⟩
  | cons s steps ih =>
    obtain ⟨hthemes, hoptions⟩ := ih (r.step s)
    rw [through_cons, hthemes, hoptions]
    cases s with
    | own a => exact settings_perform a
    | host a => exact ⟨rfl, rfl⟩

theorem Sound.step (h : Sound r) (s : Step) : Sound (r.step s) := by
  cases s with
  | own a => exact h.perform a
  | host a =>
    refine ⟨h.fresh.perform a, fun x hx => ?_, h.ready⟩
    exact Nat.lt_of_lt_of_le (h.active x hx) (r.host.nextId_le_perform a)

theorem Sound.through (h : Sound r) (steps : List Step) : Sound (r.through steps) := by
  induction steps generalizing r with
  | nil => exact h
  | cons s steps ih => exact ih (h.step s)

theorem Effect.nextId_le {r' : Resolver} (he : Effect r r') : r.host.nextId ≤ r'.host.nextId := by
  cases he with
  | looksUp hlookup => exact Nat.le_of_eq (congrArg Host.nextId hlookup.same.host_eq.symm)
  | withdraws url => exact Nat.le_succ r.host.nextId
  | commits name url p =>
    rw [nextId_commit]
    exact Nat.le_succ _
  | listens listeners => exact Nat.le_refl _
  | registers url source => exact Nat.le_refl _

theorem nextId_le_step (hf : r.host.Fresh) (s : Step) :
    r.host.nextId ≤ (r.step s).host.nextId := by
  cases s with
  | own a => exact (effect_perform hf a).nextId_le
  | host a => exact r.host.nextId_le_perform a

/-! ## Lookups -/

/-- What a lookup answers. -/
def answer? (r : Resolver) : Action → Option (Except Fault (Option String))
  | .property key context => some (r.property key context).result
  | .contextClass key context => some (r.contextClass key context).result
  | .classNames classes => some (r.classNames classes).result
  | _ => none

/-- The context of whose style a lookup needs the values. -/
def Step.context? : Step → Option (Option String)
  | .own (.property _ context) | .own (.contextClass _ context) => some context
  | .own (.classNames _) => some none
  | _ => none

/-- No lookup of a run meets a kept style that the host does not show any more. -/
def Current (r : Resolver) : List Step → Prop
  | [] => True
  | s :: steps => (∀ context ∈ s.context?, r.KeepsStyle context) ∧ (r.step s).Current steps

instance decidableCurrent (r : Resolver) : (steps : List Step) → Decidable (r.Current steps)
  | [] => inferInstanceAs (Decidable True)
  | s :: steps =>
    have := decidableCurrent (r.step s) steps
    inferInstanceAs (Decidable (_ ∧ _))

theorem current_append (r : Resolver) (front back : List Step) :
    r.Current (front ++ back) ↔ r.Current front ∧ (r.through front).Current back := by
  induction front generalizing r with
  | nil => exact (and_iff_right trivial).symm
  | cons s front ih => rw [List.cons_append, Current, Current, ih, and_assoc, through_cons]

/-- The attached stylesheets are left to the resolver. -/
def Step.LeavesSheets : Step → Prop
  | .own _ | .host (.register _ _) => True
  | _ => False

theorem Consistent.step (h : Consistent r) (hs : s.LeavesSheets) : Consistent (r.step s) := by
  cases s with
  | own a => exact h.perform a
  | host a =>
    refine ⟨h.toSound.step (.host a), ?_⟩
    cases a with
    | register url source => exact h.keeps
    | _ => exact absurd hs id

theorem Consistent.through (h : Consistent r) (hs : ∀ s ∈ steps, s.LeavesSheets) :
    Consistent (r.through steps) := by
  induction steps generalizing r with
  | nil => exact h
  | cons s steps ih =>
    obtain ⟨hfirst, hrest⟩ := List.forall_mem_cons.1 hs
    exact ih (h.step hfirst) hrest

theorem Consistent.current (h : Consistent r) (hs : ∀ s ∈ steps, s.LeavesSheets) :
    r.Current steps := by
  induction steps generalizing r with
  | nil => trivial
  | cons s steps ih =>
    obtain ⟨hfirst, hrest⟩ := List.forall_mem_cons.1 hs
    exact ⟨fun context _ => h.keeps context, ih (h.step hfirst) hrest⟩

end CssTheming.Resolver
