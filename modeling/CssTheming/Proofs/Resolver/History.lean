import CssTheming.Proofs.Resolver.Cascade
import CssTheming.Proofs.Resolver.Declarations
import CssTheming.Proofs.Resolver.Skipping

/-!
# Hosts after a run

What is attached to a host after a run, and what it has loaded, can be told from the run: the
handles that were returned and not removed, each with what its last load that succeeded read. A
stylesheet that was removed leaves no trace but its number. So the run without it, in which every
later stylesheet has the number before its own, shows the same styles.
-/

namespace CssTheming

namespace Host

variable {h h' : Host} {n : Nat} {given given' removed : List Handle}
  {last : Handle → Option Sheet} {a : Action} {actions : List Action}

/-! ## Runs by returned handles -/

def Attached.handle (a : Attached) : Handle := ⟨a.id, a.url⟩

/-- An action goes by one of these handles, if by any. -/
def Action.Uses (given : List Handle) : Action → Prop
  | .load handle | .remove handle => handle ∈ given
  | _ => True

instance (given : List Handle) (a : Action) : Decidable (a.Uses given) :=
  match a with
  | .load handle | .remove handle => inferInstanceAs (Decidable (handle ∈ given))
  | .register _ _ | .insert _ => inferInstanceAs (Decidable True)

/-- The handles that an action returns. -/
def Action.returns (h : Host) : Action → List Handle
  | .insert url => [h.nextHandle url]
  | _ => []

/-- Every handle that is used is given, or has been returned before. -/
def UsesReturned (h : Host) (given : List Handle) : List Action → Prop
  | [] => True
  | a :: actions => a.Uses given ∧ (h.perform a).UsesReturned (given ++ a.returns h) actions

instance decidableUsesReturned (h : Host) (given : List Handle) :
    (actions : List Action) → Decidable (h.UsesReturned given actions)
  | [] => inferInstanceAs (Decidable True)
  | a :: actions =>
    have := decidableUsesReturned (h.perform a) (given ++ a.returns h) actions
    inferInstanceAs (Decidable (_ ∧ _))

def returned (h : Host) : List Action → List Handle
  | [] => []
  | a :: actions => a.returns h ++ (h.perform a).returned actions

theorem returned_append (h : Host) (front back : List Action) :
    h.returned (front ++ back) = h.returned front ++ (h.after front).returned back := by
  induction front generalizing h with
  | nil => rfl
  | cons a front ih =>
    rw [List.cons_append, returned, returned, ih, List.append_assoc]
    rfl

theorem usesReturned_append (h : Host) (given : List Handle) (front back : List Action) :
    h.UsesReturned given (front ++ back) ↔ h.UsesReturned given front ∧
      (h.after front).UsesReturned (given ++ h.returned front) back := by
  induction front generalizing h given with
  | nil => simp [UsesReturned, returned, Host.after]
  | cons a front ih =>
    rw [List.cons_append, UsesReturned, UsesReturned, ih, and_assoc, returned, List.append_assoc]
    rfl

def Action.removed? : Action → Option Handle
  | .remove handle => some handle
  | _ => none

/-- What an action reads for a handle. -/
def Action.reads? (h : Host) (handle : Handle) : Action → Option Sheet
  | .load handle' => if handle' = handle then h.sheetAt? handle'.url else none
  | _ => none

/-- What the last load of a handle reads, of those whose address serves a stylesheet. -/
def lastRead? (h : Host) (handle : Handle) : List Action → Option Sheet
  | [] => none
  | a :: actions => ((h.perform a).lastRead? handle actions).or (a.reads? h handle)

/-! ## What a run leaves -/

theorem map_handle_fill (h : Host) (id : Nat) (p : CustomProperties) :
    (h.fill id p).attached.map Attached.handle = h.attached.map Attached.handle := by
  rw [fill, List.map_map]
  refine List.map_congr_left fun a _ => ?_
  rw [Function.comp]
  split <;> rfl

/-- A host with the handles that it has returned and those that it has been asked to remove, and
with what the last load of each has read. -/
structure Traced (given removed : List Handle) (last : Handle → Option Sheet) (h : Host) :
    Prop where
  numbers : given.map (·.id) = List.range h.nextId
  attached : h.attached.map Attached.handle = given.filter (· ∉ removed)
  removed : ∀ handle ∈ removed, handle.id < h.nextId
  read : ∀ handle, h.nextId ≤ handle.id → last handle = none
  contents : ∀ a ∈ h.attached, a.properties = (last a.handle).map .ofSheet

theorem traced_empty : Traced [] [] (fun _ => none) empty where
  numbers := rfl
  attached := rfl
  removed := fun _ hr => absurd hr List.not_mem_nil
  read := fun _ _ => rfl
  contents := fun _ ha => absurd ha List.not_mem_nil

namespace Traced

theorem lt (ht : Traced given removed last h) {handle : Handle} (hg : handle ∈ given) :
    handle.id < h.nextId := by
  have hmem : handle.id ∈ given.map (·.id) := List.mem_map.2 ⟨handle, hg, rfl⟩
  rwa [ht.numbers, List.mem_range] at hmem

theorem nodup_numbers (ht : Traced given removed last h) : (given.map (·.id)).Nodup :=
  ht.numbers ▸ List.nodup_range

theorem id_inj (ht : Traced given removed last h) {g g' : Handle} (hg : g ∈ given)
    (hg' : g' ∈ given) : g.id = g'.id ↔ g = g' :=
  ⟨fun heq => List.inj_on_of_nodup_map ht.nodup_numbers hg hg' heq, congrArg _⟩

theorem mem_given (ht : Traced given removed last h) {a : Attached} (ha : a ∈ h.attached) :
    a.handle ∈ given := by
  have hmem : a.handle ∈ h.attached.map Attached.handle := List.mem_map.2 ⟨a, ha, rfl⟩
  rw [ht.attached] at hmem
  exact List.mem_of_mem_filter hmem

theorem fresh (ht : Traced given removed last h) : h.Fresh := fun _ ha => ht.lt (ht.mem_given ha)

/-- No two attached stylesheets have the same number. -/
theorem nodup_ids (ht : Traced given removed last h) : (h.attached.map (·.id)).Nodup := by
  have hids : h.attached.map (·.id) = (given.filter (· ∉ removed)).map (·.id) := by
    rw [← ht.attached, List.map_map]
    rfl
  rw [hids]
  exact ht.nodup_numbers.sublist (List.filter_sublist.map _)

theorem insert (ht : Traced given removed last h) (url : String) :
    Traced (given ++ [h.nextHandle url]) removed last (h.insert url) where
  numbers := by
    rw [List.map_append, ht.numbers]
    exact List.range_succ.symm
  attached := by
    have hnew : h.nextHandle url ∉ removed := fun hr => Nat.lt_irrefl _ (ht.removed _ hr)
    have hkeep : [h.nextHandle url].filter (· ∉ removed) = [h.nextHandle url] :=
      List.filter_eq_self.2 fun g hmem => by simpa [List.mem_singleton.1 hmem] using hnew
    rw [Host.insert, List.map_append, ht.attached, List.filter_append, hkeep]
    rfl
  removed := fun handle hr => Nat.lt_succ_of_lt (ht.removed handle hr)
  read := fun handle hle => ht.read handle (Nat.le_of_succ_le hle)
  contents := by
    intro a ha
    rcases List.mem_append.1 ha with ha | ha
    · exact ht.contents a ha
    · rw [List.mem_singleton.1 ha]
      exact (congrArg (Option.map CustomProperties.ofSheet)
        (ht.read ⟨h.nextId, url⟩ (Nat.le_refl _))).symm

theorem remove (ht : Traced given removed last h) {handle : Handle} (hg : handle ∈ given) :
    Traced given (removed ++ [handle]) last (h.remove handle) where
  numbers := ht.numbers
  attached := by
    have hfilter : (h.remove handle).attached.map Attached.handle =
        (h.attached.map Attached.handle).filter fun g => g.id ≠ handle.id := by
      rw [List.filter_map]
      rfl
    rw [hfilter, ht.attached, List.filter_filter]
    refine List.filter_congr fun g hmem => ?_
    simp [ht.id_inj hmem hg, and_comm]
  removed := by
    intro g hr
    rcases List.mem_append.1 hr with hr | hr
    · exact ht.removed g hr
    · rw [List.mem_singleton.1 hr]
      exact ht.lt hg
  read := ht.read
  contents := fun a ha => ht.contents a (List.mem_of_mem_filter ha)

theorem load (ht : Traced given removed last h) {handle : Handle} (hg : handle ∈ given) :
    Traced given removed (fun g => (Action.reads? h g (.load handle)).or (last g))
      (h.perform (.load handle)) := by
  simp only [perform_load, Action.reads?]
  cases hread : h.sheetAt? handle.url with
  | none => simpa using ht
  | some s =>
    refine ⟨ht.numbers, (map_handle_fill h handle.id _).trans ht.attached, ht.removed, ?_, ?_⟩
    · intro g hle
      have hne : handle ≠ g := by
        rintro rfl
        exact absurd (ht.lt hg) (Nat.not_lt.2 hle)
      rw [if_neg hne, Option.none_or]
      exact ht.read g hle
    · intro a ha
      obtain ⟨b, hb, rfl⟩ := List.mem_map.1 ha
      by_cases heq : b.id = handle.id
      · have hhandle : handle = b.handle := (ht.id_inj hg (ht.mem_given hb)).1 heq.symm
        rw [if_pos heq]
        change some _ = ((if handle = b.handle then some s else none).or (last b.handle)).map _
        rw [if_pos hhandle]
        rfl
      · have hhandle : handle ≠ b.handle := fun h' => heq (congrArg Handle.id h').symm
        rw [if_neg heq, if_neg hhandle, Option.none_or]
        exact ht.contents b hb

theorem perform (ht : Traced given removed last h) (ha : a.Uses given) :
    Traced (given ++ a.returns h) (removed ++ a.removed?.toList)
      (fun g => (a.reads? h g).or (last g)) (h.perform a) := by
  cases a with
  | register url source =>
    simp only [Action.returns, Action.removed?, Option.toList_none, List.append_nil]
    exact ⟨ht.numbers, ht.attached, ht.removed, ht.read, ht.contents⟩
  | insert url =>
    simp only [Action.removed?, Option.toList_none, List.append_nil]
    exact ht.insert url
  | load handle =>
    simp only [Action.returns, Action.removed?, Option.toList_none, List.append_nil]
    exact ht.load ha
  | remove handle =>
    simp only [Action.returns, List.append_nil]
    exact ht.remove ha

/-- What is so after some actions is so after more. -/
theorem after (ht : Traced given removed last h) (hu : h.UsesReturned given actions) :
    Traced (given ++ h.returned actions) (removed ++ actions.filterMap Action.removed?)
      (fun g => (h.lastRead? g actions).or (last g)) (h.after actions) := by
  induction actions generalizing given removed last h with
  | nil => simpa [returned, lastRead?, Host.after] using ht
  | cons a actions ih =>
    have hrest := ih (ht.perform hu.1) hu.2
    simp only [List.append_assoc, ← Option.or_assoc] at hrest
    rw [List.filterMap_eq_flatMap_toList, List.flatMap_cons, ← List.filterMap_eq_flatMap_toList]
    exact hrest

end Traced

/-! ## Runs without a stylesheet -/

/-- A host without the stylesheet with some number. -/
def discard (h : Host) (n : Nat) : Host := { h with attached := h.attached.filter (·.id ≠ n) }

theorem discard_of_forall_ne (hgone : ∀ a ∈ h.attached, a.id ≠ n) : h.discard n = h := by
  rw [discard, List.filter_eq_self.2 fun a ha => decide_eq_true (hgone a ha)]

theorem ne_of_mem_discard {a : Attached} (ha : a ∈ (h.discard n).attached) : a.id ≠ n :=
  of_decide_eq_true (List.mem_filter.1 ha).2

theorem discard_fill (h : Host) (n id : Nat) (p : CustomProperties) :
    (h.fill id p).discard n = (h.discard n).fill id p := by
  have hkeep : (fun a : Attached => decide (a.id ≠ n)) ∘
      (fun a => if a.id = id then { a with properties := some p } else a) =
      fun a => decide (a.id ≠ n) := by
    funext a
    rw [Function.comp]
    split <;> rfl
  rw [discard, fill, discard, fill, List.filter_map, hkeep]

/-- It makes no difference when a stylesheet is taken off. -/
theorem discard_perform (hn : n ≠ h.nextId) (a : Action) :
    (h.perform a).discard n = (h.discard n).perform a := by
  cases a with
  | register url source => rfl
  | insert url =>
    have hkeep : [(⟨h.nextId, url, none⟩ : Attached)].filter (·.id ≠ n) = [⟨h.nextId, url, none⟩] :=
      List.filter_eq_self.2 fun a ha => by
        rw [List.mem_singleton.1 ha]
        exact decide_eq_true (Ne.symm hn)
    rw [perform, insert, discard, List.filter_append, hkeep]
    rfl
  | load handle =>
    have hread : (h.discard n).sheetAt? handle.url = h.sheetAt? handle.url := rfl
    rw [perform_load, perform_load, hread]
    cases h.sheetAt? handle.url with
    | none => rfl
    | some s => exact discard_fill h n handle.id (.ofSheet s)
  | remove handle =>
    simp only [perform, remove, discard, List.filter_filter, Bool.and_comm]

/-- The number that becomes this one where some number is left out. -/
def unskip (n i : Nat) : Nat := if i < n then i else i - 1

theorem skip_unskip {i : Nat} (hi : i ≠ n) : skip n (unskip n i) = i := by
  rcases Nat.lt_or_gt_of_ne hi with hlt | hgt
  · rw [unskip, if_pos hlt, skip_of_lt hlt]
  · rw [unskip, if_neg (Nat.lt_asymm hgt), skip_of_le (Nat.le_sub_one_of_lt hgt),
      Nat.sub_add_cancel (Nat.one_le_of_lt hgt)]

def Handle.unskip (n : Nat) (handle : Handle) : Handle :=
  { handle with id := Host.unskip n handle.id }

theorem Handle.skipping_unskip {handle : Handle} (hne : handle.id ≠ n) :
    (handle.unskip n).skipping n = handle := by
  rw [Handle.unskip, Handle.skipping, skip_unskip hne]

/-- What becomes of an action where a stylesheet has never been inserted. Later stylesheets have the
number before their own, and nothing is left of what is done with the one itself. -/
def Action.without? (n : Nat) : Action → Option Action
  | .load handle => if handle.id = n then none else some (.load (handle.unskip n))
  | .remove handle => if handle.id = n then none else some (.remove (handle.unskip n))
  | a => some a

theorem Action.without?_load {handle : Handle} {b : Action} :
    (Action.load handle).without? n = some b ↔ handle.id ≠ n ∧ .load (handle.unskip n) = b := by
  simp [Action.without?]

theorem Action.without?_remove {handle : Handle} {b : Action} :
    (Action.remove handle).without? n = some b ↔
      handle.id ≠ n ∧ .remove (handle.unskip n) = b := by
  simp [Action.without?]

theorem perform_of_without?_none (hgone : ∀ a ∈ h.attached, a.id ≠ n)
    (ha : a.without? n = none) : h.perform a = h := by
  cases a with
  | register url source => cases ha
  | insert url => cases ha
  | load handle =>
    have hid : handle.id = n := by simpa [Action.without?] using ha
    rw [perform_load]
    cases h.sheetAt? handle.url with
    | none => rfl
    | some s => exact fill_of_forall_ne (hid ▸ hgone) (.ofSheet s)
  | remove handle =>
    have hid : handle.id = n := by simpa [Action.without?] using ha
    exact discard_of_forall_ne (hid ▸ hgone)

/-- What is left of an action is the action where the stylesheet's number is left out. -/
theorem Action.rename_of_without? {b : Action} (ha : a.without? n = some b) :
    b.rename (Handle.skipping n) = a := by
  cases a with
  | register url source =>
    cases ha
    rfl
  | insert url =>
    cases ha
    rfl
  | load handle =>
    obtain ⟨hid, rfl⟩ := Action.without?_load.1 ha
    rw [Action.rename, Handle.skipping_unskip hid]
  | remove handle =>
    obtain ⟨hid, rfl⟩ := Action.without?_remove.1 ha
    rw [Action.rename, Handle.skipping_unskip hid]

/-- The second host is the first one without a stylesheet, and its handles are without that
stylesheet's. -/
structure LeavesOut (n : Nat) (given given' : List Handle) (h h' : Host) : Prop where
  discard : h.discard n = h'.skipping n
  le : n ≤ h'.nextId
  handles : ∀ handle ∈ given, handle.id ≠ n → handle.unskip n ∈ given'

namespace LeavesOut

theorem nextId (hl : LeavesOut n given given' h h') : h.nextId = h'.nextId + 1 :=
  (congrArg Host.nextId hl.discard).trans (skip_of_le hl.le)

theorem uses (hl : LeavesOut n given given' h h') {b : Action} (ha : a.Uses given)
    (hb : a.without? n = some b) : b.Uses given' := by
  cases a with
  | register url source =>
    cases hb
    trivial
  | insert url =>
    cases hb
    trivial
  | load handle =>
    obtain ⟨hid, rfl⟩ := Action.without?_load.1 hb
    exact hl.handles handle ha hid
  | remove handle =>
    obtain ⟨hid, rfl⟩ := Action.without?_remove.1 hb
    exact hl.handles handle ha hid

/-- Where nothing is left to discard the two hosts show the same. -/
theorem style_eq (hl : LeavesOut n given given' h h') (hgone : h.discard n = h)
    (place : Option String) : h.style place = h'.style place := by
  rw [← hgone, hl.discard, style_skipping]

/-- A stylesheet that comes later has the number before its own. -/
theorem returns (hl : LeavesOut n given given' h h') {b : Action} (hb : a.without? n = some b)
    {handle : Handle} (hmem : handle ∈ a.returns h) : handle.unskip n ∈ b.returns h' := by
  cases a with
  | insert url =>
    cases hb
    have hnumber : Host.unskip n h.nextId = h'.nextId := by
      rw [hl.nextId, Host.unskip, if_neg (Nat.not_lt.2 (Nat.le_succ_of_le hl.le)),
        Nat.add_sub_cancel]
    rw [List.mem_singleton.1 hmem, Handle.unskip, nextHandle, hnumber]
    exact List.mem_singleton_self _
  | register url source => cases hmem
  | load handle => cases hmem
  | remove handle => cases hmem

theorem perform (hl : LeavesOut n given given' h h') (a : Action) :
    LeavesOut n (given ++ a.returns h) (given' ++ h'.returned (a.without? n).toList) (h.perform a)
      (h'.after (a.without? n).toList) := by
  have hne : n ≠ h.nextId := by
    rw [hl.nextId]
    exact Nat.ne_of_lt (Nat.lt_succ_of_le hl.le)
  have hdiscard := discard_perform hne a
  cases hb : a.without? n with
  | none =>
    -- the action goes by the stylesheet that is left out, and finds nothing there
    have hgone : ∀ x ∈ (h.discard n).attached, x.id ≠ n := fun _ hx => ne_of_mem_discard hx
    rw [perform_of_without?_none hgone hb] at hdiscard
    have hreturns : a.returns h = [] := by
      cases a with
      | insert url => cases hb
      | _ => rfl
    simp only [hreturns, Option.toList_none, returned, List.append_nil]
    exact ⟨hdiscard.trans hl.discard, hl.le, hl.handles⟩
  | some b =>
    have hstep : (h.discard n).perform a = (h'.perform b).skipping n := by
      rw [hl.discard, ← Action.rename_of_without? hb, perform_skipping hl.le]
    have hle : n ≤ (h'.perform b).nextId := Nat.le_trans hl.le (nextId_le_perform h' b)
    refine ⟨hdiscard.trans hstep, hle, fun handle hmem hid => ?_⟩
    rcases List.mem_append.1 hmem with hmem | hmem
    · exact List.mem_append_left _ (hl.handles handle hmem hid)
    · refine List.mem_append_right _ (List.mem_append_left _ ?_)
      exact hl.returns hb hmem

theorem after (hl : LeavesOut n given given' h h') (actions : List Action) :
    LeavesOut n (given ++ h.returned actions)
      (given' ++ h'.returned (actions.filterMap (Action.without? n))) (h.after actions)
      (h'.after (actions.filterMap (Action.without? n))) := by
  induction actions generalizing given given' h h' with
  | nil => simpa [returned, Host.after] using hl
  | cons a actions ih =>
    have hrest := ih (hl.perform a)
    rw [List.append_assoc, List.append_assoc, ← returned_append, ← after_append] at hrest
    rw [List.filterMap_eq_flatMap_toList, List.flatMap_cons, ← List.filterMap_eq_flatMap_toList]
    exact hrest

theorem usesReturned (hl : LeavesOut n given given' h h') {actions : List Action}
    (hu : h.UsesReturned given actions) :
    h'.UsesReturned given' (actions.filterMap (Action.without? n)) := by
  induction actions generalizing given given' h h' with
  | nil => trivial
  | cons a actions ih =>
    rw [List.filterMap_eq_flatMap_toList, List.flatMap_cons, ← List.filterMap_eq_flatMap_toList,
      usesReturned_append]
    refine ⟨?_, ih (hl.perform a) hu.2⟩
    cases hb : a.without? n with
    | none => trivial
    | some b => exact ⟨hl.uses hu.1 hb, trivial⟩

end LeavesOut

theorem Fresh.leavesOut (hf : h.Fresh) (hgiven : ∀ handle ∈ given, handle.id < h.nextId)
    (url : String) :
    LeavesOut h.nextId (given ++ [h.nextHandle url]) given (h.insert url) h where
  discard := (hf.remove_insert url).trans hf.skipping_nextId.symm
  le := Nat.le_refl _
  handles := by
    intro handle hmem hne
    rcases List.mem_append.1 hmem with hmem | hmem
    · rwa [Handle.unskip, unskip, if_pos (hgiven handle hmem)]
    · exact absurd (congrArg Handle.id (List.mem_singleton.1 hmem)) hne

/-- A number that is not attached does not come back. -/
theorem discard_after (hn : n < h.nextId) (hgone : h.discard n = h) (actions : List Action) :
    (h.after actions).discard n = h.after actions := by
  induction actions generalizing h with
  | nil => exact hgone
  | cons a actions ih =>
    have hstep := discard_perform (Nat.ne_of_lt hn) a
    rw [hgone] at hstep
    exact ih (Nat.lt_of_lt_of_le hn (nextId_le_perform h a)) hstep

theorem discard_after_of_mem {handle : Handle} (hn : handle.id < h.nextId)
    (hmem : .remove handle ∈ actions) :
    (h.after actions).discard handle.id = h.after actions := by
  obtain ⟨front, back, rfl⟩ := List.append_of_mem hmem
  rw [after_append]
  have hgone : ((h.after front).remove handle).discard handle.id = (h.after front).remove handle :=
    discard_of_forall_ne fun _ ha => ne_of_mem_discard ha
  exact discard_after (h := (h.after front).remove handle)
    (Nat.lt_of_lt_of_le hn (nextId_le_after h front)) hgone back

/-! ## The cascade -/

/-- What an attached stylesheet declares at a place, if it has loaded. -/
def Attached.value? (a : Attached) (place : Option String) (property : String) : Option String :=
  a.properties.bind (·.value? place property)

/-- Of the attached stylesheets that declare a property at a place the last one gives this value. -/
def LastDeclares (h : Host) (place : Option String) (property value : String) : Prop :=
  ∃ front a back, h.attached = front ++ a :: back ∧ a.value? place property = some value ∧
    ∀ b ∈ back, b.value? place property = none

variable {place : Option String} {property value : String}

theorem findSome?_loaded (h : Host) (place : Option String) (property : String) :
    (h.loaded.reverse.findSome? fun p => p.value? place property) =
      h.attached.reverse.findSome? (·.value? place property) := by
  rw [loaded, ← List.filterMap_reverse, ← List.head?_filterMap, List.filterMap_filterMap,
    List.head?_filterMap]
  rfl

theorem findSome?_eq_some_iff_lastDeclares :
    h.attached.reverse.findSome? (·.value? place property) = some value ↔
      h.LastDeclares place property value := by
  rw [List.findSome?_eq_some_iff]
  constructor
  · rintro ⟨back, a, front, hattached, hvalue, hback⟩
    refine ⟨front.reverse, a, back.reverse, ?_, hvalue, fun b hb => hback b (List.mem_reverse.1 hb)⟩
    rw [← List.reverse_reverse h.attached, hattached, List.reverse_append, List.reverse_cons,
      List.append_assoc]
    rfl
  · rintro ⟨front, a, back, hattached, hvalue, hback⟩
    refine ⟨back.reverse, a, front.reverse, ?_, hvalue, fun b hb => hback b (List.mem_reverse.1 hb)⟩
    rw [hattached, List.reverse_append, List.reverse_cons, List.append_assoc]
    rfl

theorem get?_rootStyle_eq_some :
    h.rootStyle.get? property = some value ↔ h.LastDeclares none property value := by
  rw [get?_rootStyle, ← findSome?_eq_some_iff_lastDeclares, ← findSome?_loaded]
  rfl

theorem get?_probeStyle_eq_some {name : String} :
    (h.probeStyle name).get? property = some value ↔
      h.LastDeclares (some name) property value ∨
        (∀ a ∈ h.attached, a.value? (some name) property = none) ∧
          h.LastDeclares none property value := by
  have hclass : (h.loaded.reverse.findSome? fun p => (p.classes.get? name).bind (·.get? property)) =
      h.attached.reverse.findSome? (·.value? (some name) property) :=
    findSome?_loaded h (some name) property
  rw [get?_probeStyle, hclass, Option.or_eq_some_iff, get?_rootStyle_eq_some,
    findSome?_eq_some_iff_lastDeclares, List.findSome?_eq_none_iff]
  simp only [List.mem_reverse]

/-- A stylesheet that was removed has no part in what is shown. -/
theorem without_removed {before later : List Action} {url : String}
    (hu : empty.UsesReturned [] (before ++ .insert url :: later))
    (hremoved : .remove ((empty.after before).nextHandle url) ∈ later) :
    let others := before ++ later.filterMap (Action.without? (empty.after before).nextId)
    empty.UsesReturned [] others ∧ ∀ place,
      (empty.after (before ++ .insert url :: later)).style place =
        (empty.after others).style place := by
  intro others
  obtain ⟨hbefore, -, hlater⟩ := (usesReturned_append _ _ _ _).1 hu
  have ht := traced_empty.after hbefore
  have hl := ht.fresh.leavesOut (fun _ hg => ht.lt hg) url
  refine ⟨(usesReturned_append _ _ _ _).2 ⟨hbefore, hl.usesReturned hlater⟩, fun place => ?_⟩
  have hgone : (((empty.after before).insert url).after later).discard
      (empty.after before).nextId = ((empty.after before).insert url).after later :=
    discard_after_of_mem (Nat.lt_succ_self _) hremoved
  rw [after_append, after_append]
  exact (hl.after later).style_eq hgone place

/-- After any run by the handles that it returns, a host shows what the last stylesheet that
declares a property says, for the class of an element or else for the root. The handles that were
not removed are attached, each with what its last load that succeeded read, and no two have the
same number. A stylesheet that was removed changes nothing that is shown. -/
theorem styles_after (actions : List Action) (hu : empty.UsesReturned [] actions) :
    let h := empty.after actions
    (∀ property value, h.rootStyle.get? property = some value ↔
      h.LastDeclares none property value) ∧
    (∀ name property value, (h.probeStyle name).get? property = some value ↔
      h.LastDeclares (some name) property value ∨
        (∀ a ∈ h.attached, a.value? (some name) property = none) ∧
          h.LastDeclares none property value) ∧
    h.attached.map Attached.handle =
      (empty.returned actions).filter (· ∉ actions.filterMap Action.removed?) ∧
    (∀ a ∈ h.attached, ∀ place property, a.value? place property =
      (empty.lastRead? a.handle actions).bind fun s =>
        CustomProperties.lastValue? property (CustomProperties.declarations s place)) ∧
    (h.attached.map (·.id)).Nodup ∧
    ∀ before url later, actions = before ++ .insert url :: later →
      .remove ((empty.after before).nextHandle url) ∈ later →
      let others := before ++ later.filterMap (Action.without? (empty.after before).nextId)
      empty.UsesReturned [] others ∧ ∀ place, h.style place = (empty.after others).style place := by
  intro h
  have ht := traced_empty.after hu
  refine ⟨fun _ _ => get?_rootStyle_eq_some, fun _ _ _ => get?_probeStyle_eq_some, ht.attached,
    ?_, ht.nodup_ids, ?_⟩
  · intro a ha place property
    have hread := ht.contents a ha
    rw [Option.or_none] at hread
    rw [Attached.value?, hread]
    cases empty.lastRead? a.handle actions with
    | none => rfl
    | some s => exact CustomProperties.value?_ofSheet s place property
  · rintro before url later rfl hremoved
    exact without_removed hu hremoved

/-- A stylesheet is inserted and loaded, and again when its address serves another text. Then the
first one is removed. -/
def replaced : List Action :=
  [.register "a.css" (.css ":root \x7b --gap: 4px; \x7d"), .insert "a.css", .load ⟨0, "a.css"⟩,
    .register "a.css" (.css ".dark \x7b --gap: 8px; \x7d"), .insert "a.css", .load ⟨1, "a.css"⟩,
    .remove ⟨0, "a.css"⟩]

theorem styles_after_replaced :
    empty.UsesReturned [] replaced ∧
      (empty.after replaced).attached.map Attached.handle = [⟨1, "a.css"⟩] ∧
      ∀ place, (empty.after replaced).style place =
        (empty.after [.register "a.css" (.css ":root \x7b --gap: 4px; \x7d"),
          .register "a.css" (.css ".dark \x7b --gap: 8px; \x7d"), .insert "a.css",
          .load ⟨0, "a.css"⟩]).style place := by
  have hu : empty.UsesReturned [] replaced := by decide +kernel
  obtain ⟨-, -, hattached, -, -, hwithout⟩ := styles_after replaced hu
  have hothers := hwithout [.register "a.css" (.css ":root \x7b --gap: 4px; \x7d")] "a.css" _ rfl
    (by simp [after, perform, nextHandle, register, empty])
  refine ⟨hu, hattached.trans ?_, hothers.2⟩
  decide +kernel

end Host

end CssTheming
