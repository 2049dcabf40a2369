import CssTheming.Proofs.Success
import CssTheming.Resolver.Host

/-!
# Runs of hosts

What can be done with a host, as actions. A host gives numbers out in ascending order, so that the
next one is above all that are in use; a load fills the stylesheet with its number, if that is still
attached.
-/

namespace CssTheming.Host

/-- The next number is above all that are in use. -/
def Fresh (h : Host) : Prop := ∀ a ∈ h.attached, a.id < h.nextId

inductive Action where
  | register (url : String) (source : Source)
  | insert (url : String)
  | load (handle : Handle)
  | remove (handle : Handle)

/-- A load that fails leaves the host as it is. -/
def perform (h : Host) : Action → Host
  | .register url source => h.register url source
  | .insert url => h.insert url
  | .load handle => (h.load handle).toOption.getD h
  | .remove handle => h.remove handle

def after (h : Host) (actions : List Action) : Host := actions.foldl perform h

variable {h : Host}

theorem after_append (h : Host) (front back : List Action) :
    h.after (front ++ back) = (h.after front).after back :=
  List.foldl_append

/-! ## Loads -/

/-- The stylesheet that an address serves. -/
def sheetAt? (h : Host) (url : String) : Option Sheet :=
  match h.sources.get? url with
  | some (.css text) => (Sheet.parse text url).toOption
  | _ => none

/-- Gives properties to the stylesheet with a number. -/
def fill (h : Host) (id : Nat) (p : CustomProperties) : Host :=
  { h with attached := h.attached.map fun a =>
      if a.id = id then { a with properties := some p } else a }

theorem fill_of_forall_ne {id : Nat} (hnone : ∀ a ∈ h.attached, a.id ≠ id)
    (p : CustomProperties) : h.fill id p = h := by
  have hmap : (h.attached.map fun a => if a.id = id then { a with properties := some p } else a) =
      h.attached := by
    rw [List.map_congr_left fun a ha => if_neg (hnone a ha), List.map_id']
  rw [fill, hmap]

theorem toOption_fetch (h : Host) (url : String) :
    (h.fetch url).toOption = (h.sheetAt? url).map .ofSheet := by
  unfold fetch sheetAt? CustomProperties.read
  cases h.sources.get? url with
  | none => rfl
  | some source =>
    cases source with
    | failing message => rfl
    | css text =>
      dsimp only
      cases Sheet.parse text url <;> rfl

/-- A load that succeeds gives its stylesheet what it has read. A number that is not attached
changes nothing. -/
theorem perform_load (h : Host) (handle : Handle) :
    h.perform (.load handle) =
      match h.sheetAt? handle.url with
      | some s => h.fill handle.id (.ofSheet s)
      | none => h := by
  have hfetch := toOption_fetch h handle.url
  rw [perform, load]
  cases hp : h.fetch handle.url with
  | error message =>
    rw [hp] at hfetch
    rw [Option.map_eq_none_iff.1 hfetch.symm]
    rfl
  | ok p =>
    rw [hp] at hfetch
    obtain ⟨s, hread, rfl⟩ := Option.map_eq_some_iff.1 hfetch.symm
    rw [hread]
    dsimp only [bind, Except.bind]
    split
    · rfl
    · rename_i hany
      have hnone (a : Attached) (ha : a ∈ h.attached) : a.id ≠ handle.id := fun heq =>
        hany (List.any_eq_true.2 ⟨a, ha, decide_eq_true heq⟩)
      exact (fill_of_forall_ne hnone _).symm

/-! ## Numbers -/

theorem nextId_le_perform (h : Host) (a : Action) : h.nextId ≤ (h.perform a).nextId := by
  cases a with
  | register url source => exact Nat.le_refl _
  | insert url => exact Nat.le_succ _
  | remove handle => exact Nat.le_refl _
  | load handle =>
    rw [perform_load]
    cases h.sheetAt? handle.url <;> exact Nat.le_refl _

theorem nextId_le_after (h : Host) (actions : List Action) :
    h.nextId ≤ (h.after actions).nextId := by
  induction actions generalizing h with
  | nil => exact Nat.le_refl _
  | cons a actions ih => exact Nat.le_trans (nextId_le_perform h a) (ih (h.perform a))

theorem fresh_empty : empty.Fresh := by
  intro a ha
  cases ha

theorem Fresh.insert (hf : h.Fresh) (url : String) : (h.insert url).Fresh := by
  intro a ha
  rcases List.mem_append.1 ha with ha | ha
  · exact Nat.lt_succ_of_lt (hf a ha)
  · rw [List.mem_singleton.1 ha]
    exact Nat.lt_succ_self _

theorem Fresh.remove (hf : h.Fresh) (handle : Handle) : (h.remove handle).Fresh :=
  fun a ha => hf a (List.mem_filter.1 ha).1

theorem Fresh.fill (hf : h.Fresh) (id : Nat) (p : CustomProperties) : (h.fill id p).Fresh := by
  intro a ha
  obtain ⟨b, hb, rfl⟩ := List.mem_map.1 ha
  have hlt : b.id < h.nextId := hf b hb
  split <;> exact hlt

theorem Fresh.perform (hf : h.Fresh) (a : Action) : (h.perform a).Fresh := by
  cases a with
  | register url source => exact hf
  | insert url => exact hf.insert url
  | remove handle => exact hf.remove handle
  | load handle =>
    rw [perform_load]
    cases h.sheetAt? handle.url with
    | none => exact hf
    | some s => exact hf.fill handle.id (.ofSheet s)

theorem Fresh.after (hf : h.Fresh) (actions : List Action) : (h.after actions).Fresh := by
  induction actions generalizing h with
  | nil => exact hf
  | cons a actions ih => exact ih (hf.perform a)

theorem Fresh.remove_insert (hf : h.Fresh) (url : String) :
    (h.insert url).remove (h.nextHandle url) = { h with nextId := h.nextId + 1 } := by
  have hkeep : h.attached.filter (fun a => decide (a.id ≠ h.nextId)) = h.attached := by
    apply List.filter_eq_self.2
    intro a ha
    exact decide_eq_true (Nat.ne_of_lt (hf a ha))
  unfold Host.remove Host.insert nextHandle
  dsimp only
  rw [List.filter_append, hkeep]
  simp

/-- A stylesheet that was just attached loads with what its address serves; the others stay as they
are. -/
theorem Fresh.load_insert (hf : h.Fresh) (url : String) :
    (h.insert url).load (h.nextHandle url) = (h.fetch url).map fun p =>
      { h with attached := h.attached ++ [⟨h.nextId, url, some p⟩], nextId := h.nextId + 1 } := by
  have hkeep (p : CustomProperties) :
      h.attached.map (fun a => if a.id = h.nextId then { a with properties := some p } else a) =
        h.attached := by
    calc
      _ = h.attached.map id := List.map_congr_left fun a ha => if_neg (Nat.ne_of_lt (hf a ha))
      _ = h.attached := List.map_id _
  have hfetch : (h.insert url).fetch url = h.fetch url := rfl
  unfold load
  rw [show (h.nextHandle url).url = url from rfl, hfetch]
  cases h.fetch url with
  | error message => rfl
  | ok p =>
    have hany : (h.insert url).attached.any (fun a => a.id = (h.nextHandle url).id) = true := by
      simp [Host.insert, nextHandle]
    simp only [bind, Except.bind, Except.map, pure, Except.pure, if_pos hany]
    simp [Host.insert, nextHandle]
    exact hkeep p

end CssTheming.Host
