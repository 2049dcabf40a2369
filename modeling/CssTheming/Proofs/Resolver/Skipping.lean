import CssTheming.Proofs.Resolver.Host

/-!
# Numbers that are left out

A host may have left out a number: it goes on as the host that did not, with every later number one
higher, and shows the same.
-/

namespace CssTheming

/-- Numbers with one of them left out. -/
def skip (n i : Nat) : Nat := if i < n then i else i + 1

theorem skip_of_lt {n i : Nat} (h : i < n) : skip n i = i := if_pos h

theorem skip_of_le {n i : Nat} (h : n ≤ i) : skip n i = i + 1 := if_neg (Nat.not_lt.2 h)

theorem skip_inj {n i j : Nat} : skip n i = skip n j ↔ i = j := by
  unfold skip
  split <;> split <;> omega

theorem skip_lt_skip {n i j : Nat} (h : i < j) : skip n i < skip n j := by
  unfold skip
  split <;> split <;> omega

namespace Host

variable {h : Host} {n : Nat}

def Handle.skipping (n : Nat) (handle : Handle) : Handle := { handle with id := skip n handle.id }

def Attached.skipping (n : Nat) (a : Attached) : Attached := { a with id := skip n a.id }

/-- A host that has left out a number. -/
def skipping (n : Nat) (h : Host) : Host :=
  { h with attached := h.attached.map (Attached.skipping n), nextId := skip n h.nextId }

/-- The action by other handles. -/
def Action.rename (f : Handle → Handle) : Action → Action
  | .load handle => .load (f handle)
  | .remove handle => .remove (f handle)
  | a => a

@[simp] theorem loaded_skipping : (h.skipping n).loaded = h.loaded := by
  simp only [loaded, skipping, List.filterMap_map]
  rfl

@[simp] theorem style_skipping (name : Option String) :
    (h.skipping n).style name = h.style name := by
  cases name <;> simp [style, probeStyle, rootStyle]

theorem insert_skipping (hn : n ≤ h.nextId) (url : String) :
    (h.skipping n).insert url = (h.insert url).skipping n := by
  simp only [insert, skipping, List.map_append, List.map_singleton, Attached.skipping,
    skip_of_le hn, skip_of_le (Nat.le_succ_of_le hn)]

theorem fill_skipping (h : Host) (n id : Nat) (p : CustomProperties) :
    (h.skipping n).fill (skip n id) p = (h.fill id p).skipping n := by
  simp only [fill, skipping, List.map_map]
  congr 1
  refine List.map_congr_left fun a _ => ?_
  simp only [Function.comp, Attached.skipping, skip_inj]
  split <;> rfl

theorem remove_skipping (handle : Handle) :
    (h.skipping n).remove (handle.skipping n) = (h.remove handle).skipping n := by
  have hkeep : (fun a => decide (a.id ≠ (handle.skipping n).id)) ∘ Attached.skipping n =
      fun a => decide (a.id ≠ handle.id) := by
    funext a
    simp [Attached.skipping, Handle.skipping, skip_inj]
  unfold remove skipping
  dsimp only
  rw [List.filter_map, hkeep]

/-- What is done with the host is done with the one that has left out a number. -/
theorem perform_skipping (hn : n ≤ h.nextId) (a : Action) :
    (h.skipping n).perform (a.rename (Handle.skipping n)) = (h.perform a).skipping n := by
  cases a with
  | register url source => rfl
  | insert url => exact insert_skipping hn url
  | remove handle => exact remove_skipping handle
  | load handle =>
    have hread : (h.skipping n).sheetAt? (handle.skipping n).url = h.sheetAt? handle.url := rfl
    rw [Action.rename, perform_load, perform_load, hread]
    cases h.sheetAt? handle.url with
    | none => rfl
    | some s => exact fill_skipping h n handle.id (.ofSheet s)

theorem Fresh.skipping (hf : h.Fresh) (n : Nat) : (h.skipping n).Fresh := by
  intro a ha
  obtain ⟨b, hb, rfl⟩ := List.mem_map.1 ha
  exact skip_lt_skip (hf b hb)

/-- Before a number is in use, leaving it out only moves the next one. -/
theorem Fresh.skipping_nextId (hf : h.Fresh) :
    h.skipping h.nextId = { h with nextId := h.nextId + 1 } := by
  have hattached : h.attached.map (Attached.skipping h.nextId) = h.attached := by
    calc
      _ = h.attached.map id := List.map_congr_left fun a ha => by
        rw [Attached.skipping, skip_of_lt (hf a ha)]
        rfl
      _ = h.attached := List.map_id _
  rw [Host.skipping, hattached, skip_of_le (Nat.le_refl _)]

/-- Numbers given out from the one left out on stay in step. -/
theorem next_skipping (hn : n ≤ h.nextId) :
    { h.skipping n with nextId := (h.skipping n).nextId + 1 } =
      { h with nextId := h.nextId + 1 }.skipping n := by
  simp only [skipping, skip_of_le hn, skip_of_le (Nat.le_succ_of_le hn)]

end Host

end CssTheming
