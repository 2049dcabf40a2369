import CssTheming.Proofs.Resolver.Attachment
import CssTheming.Proofs.Resolver.Forgetting

/-!
# Resolvers that forget their styles

Kept styles save work and nothing else. In every state that a run leads to a lookup answers as if no
style were kept, that is, from the style that the host computes at that moment, and a resolver that
forgets its styles there goes through every further run with the same answers.
-/

namespace CssTheming.Resolver

variable {r : Resolver}

theorem Consistent.emptied (h : Consistent r) : Consistent r.emptied :=
  ⟨h.toSound.of_sameButCache sameButCache_emptied, keepsStyles_of_cache_eq_nil rfl⟩

/-- In every state that a run over a host with nothing attached leads to, whatever was registered
meanwhile, a lookup answers what a resolver without kept styles answers, which is the value in the
style that the host has now. Forgetting the kept styles there changes no later answer either. -/
theorem property_emptied_after {host : Host} (hEmpty : host.attached = []) (themes : List Entry)
    (options : Options) (actions : List Action) :
    let r := (create host themes options).after actions
    (∀ key context, (r.property key context).result = (r.emptied.property key context).result ∧
      (r.property key context).result =
        if r.ready then
          match r.valueIn (r.host.style (r.probeClass context)) key with
          | some value => .ok (some value)
          | none => .error (.unresolvable key context)
        else .ok none) ∧
      ∀ later lookup, (r.emptied.after later).answer? lookup = (r.after later).answer? lookup := by
  intro r
  have hfresh : host.Fresh := (settled_create hEmpty themes options).fresh
  have hr : Consistent r := (consistent_create hfresh themes options).after actions
  refine ⟨fun key context => ⟨?_, (hr.keeps context).property_result key⟩, fun later lookup => ?_⟩
  · rw [(hr.keeps context).property_result, (hr.emptied.keeps context).property_result,
      sameButCache_emptied.shown_eq]
  · have hleaves : ∀ s ∈ later.map Step.own ++ [.own lookup], s.LeavesSheets :=
      List.forall_mem_append.2
        ⟨List.forall_mem_map.2 fun _ _ => trivial, List.forall_mem_singleton.2 trivial⟩
    rw [← through_own, ← through_own]
    exact (forgets_emptied r).answer?_through (hr.current hleaves)

/-- A theme is active, one of its keys has been looked up and its source replaced. -/
def lightReplaced : List Action :=
  [.setTheme "light", .property "gap" none, .abandonTheme "light", .property "gap" (some "dark"),
    .register "/light.css" (.css ":root \x7b --makeup-gap: 8px; \x7d")]

theorem property_emptied_after_lightReplaced :
    brokenDark.attached = [] ∧
      let r := (create brokenDark [⟨"light", "/light.css"⟩] {}).after lightReplaced
      r.cache.map (·.1) = [some "dark"] ∧
        (r.property "gap" (some "dark")).result = (r.emptied.property "gap" (some "dark")).result ∧
        ((r.emptied.after [.setTheme "light"]).answer? (.property "gap" none)).map Except.toOption =
          some (some (some "8px")) := by
  obtain ⟨hnow, hlater⟩ := property_emptied_after (rfl : brokenDark.attached = [])
    [⟨"light", "/light.css"⟩] {} lightReplaced
  refine ⟨rfl, ?_, (hnow "gap" (some "dark")).1, ?_⟩
  · decide +kernel
  · rw [hlater]
    decide +kernel

end CssTheming.Resolver
