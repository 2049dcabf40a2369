import CssTheming.Proofs.Success
import CssTheming.Proofs.Value.Calls

/-!
# Walks that replace calls

A walk whose visitor answers only the calls of one function is their replacement, if it succeeds; a
visitor that records something at each of them records it in the order of the text.
-/

namespace CssTheming.Value

variable {function : String} {repl : Node → Node}

def Node.IsCallOf (function : String) : Node → Prop
  | .call name _ _ _ _ => name = function
  | _ => False

theorem Node.IsCallOf.callsOf_eq {n : Node}
    (h : n.IsCallOf function) : n.callsOf function = [n] := by
  cases n with
  | call name before after args key => exact if_pos h
  | _ => exact absurd h id

theorem Node.IsCallOf.replaceCalls_eq {n : Node}
    (h : n.IsCallOf function) : n.replaceCalls function repl = repl n := by
  cases n with
  | call name before after args key => exact if_pos h
  | _ => exact absurd h id

mutual
theorem Node.callsOf_replaceCalls :
    ∀ n : Node, (∀ m ∈ n.callsOf function, (repl m).IsCallOf function) →
    (n.replaceCalls function repl).callsOf function = (n.callsOf function).map repl
  | .call name before after args key, h => by
    rw [Node.callsOf] at h ⊢
    rw [Node.replaceCalls]
    by_cases hname : name = function
    · rw [if_pos hname] at h ⊢
      rw [if_pos hname, (h _ List.mem_cons_self).callsOf_eq]
      rfl
    · rw [if_neg hname] at h ⊢
      rw [if_neg hname, Node.callsOf, if_neg hname, callsOf_replaceCalls args h]
  | .word v, _ | .string v _, _ | .divider v _ _, _ | .space v, _ | .comment v, _ => rfl

/-- Calls in the place of calls are the calls of the new value. -/
theorem callsOf_replaceCalls :
    ∀ ns : List Node, (∀ m ∈ callsOf function ns, (repl m).IsCallOf function) →
    callsOf function (replaceCalls function repl ns) = (callsOf function ns).map repl
  | [], _ => rfl
  | n :: ns, h => by
    rw [callsOf] at h ⊢
    rw [replaceCalls, callsOf, Node.callsOf_replaceCalls n fun m hm =>
      h m (List.mem_append_left _ hm),
      callsOf_replaceCalls ns fun m hm => h m (List.mem_append_right _ hm), List.map_append]
end

/-! ## Visitors with a state -/

/-- A visitor that answers the calls of a function only. What it answers is the replacement; what it
does to the state is what the call makes of it, unless it fails. -/
structure VisitsCalls {σ : Type} (function : String)
    (visit : Node → StateT σ (Except Error) (Option Node))
    (repl : Node → Node) (record : σ → Node → σ) (accepts : Node → Prop) : Prop where
  other : ∀ n, ¬n.IsCallOf function → visit n = pure none
  call : ∀ n s r s', n.IsCallOf function → (visit n).run s = .ok (r, s') → r = some (repl n) ∧
    s' = record s n ∧ accepts n

section State

variable {σ : Type} {visit : Node → StateT σ (Except Error) (Option Node)} {record : σ → Node → σ}
    {accepts : Node → Prop}

/-- A node without arguments is kept. -/
theorem Node.walk_run_leaf (hv : VisitsCalls function visit repl record accepts) {n n' : Node}
    {s s' : σ} (hn : ∀ name before after args key, n ≠ .call name before after args key)
    (h : (n.walk visit).run s = .ok (n', s')) : n' = n ∧ s' = s ∧ n.Plain function := by
  have hnot : ¬n.IsCallOf function := by
    intro hcall
    cases n with
    | call name before after args key => exact hn _ _ _ _ _ rfl
    | _ => exact hcall
  cases n with
  | call name before after args key => exact absurd rfl (hn _ _ _ _ _)
  | _ =>
    rw [Node.walk, hv.other _ hnot] at h
    · cases h
      exact ⟨rfl, rfl, rfl, fun _ => rfl⟩
    · exact hn

mutual
theorem Node.walk_run_eq_ok (hv : VisitsCalls function visit repl record accepts) : ∀ (n : Node)
    {s : σ} {n' : Node} {s' : σ}, (n.walk visit).run s = .ok (n', s') →
    n' = n.replaceCalls function repl ∧ s' = (n.callsOf function).foldl record s ∧
      ∀ m ∈ n.callsOf function, accepts m
  | .call name before after args key, s, n', s', h => by
    rw [Node.walk, bind_run_eq_ok] at h
    obtain ⟨r, s₁, hr, h⟩ := h
    by_cases hname : (Node.call name before after args key).IsCallOf function
    · obtain ⟨rfl, rfl, haccepts⟩ := hv.call _ _ _ _ hname hr
      cases h
      rw [hname.callsOf_eq, hname.replaceCalls_eq]
      exact ⟨rfl, rfl, by simpa using haccepts⟩
    · rw [hv.other _ hname] at hr
      cases hr
      obtain ⟨args', s₂, hargs, h⟩ := bind_run_eq_ok.1 h
      obtain ⟨rfl, rfl, haccepts⟩ := walk_run_eq_ok hv args hargs
      cases h
      have hne : name ≠ function := hname
      rw [Node.replaceCalls, Node.callsOf, if_neg hne, if_neg hne]
      exact ⟨rfl, rfl, haccepts⟩
  | .word v, s, n', s', h | .string v _, s, n', s', h | .divider v _ _, s, n', s', h |
    .space v, s, n', s', h
  | .comment v, s, n', s', h => by
    obtain ⟨rfl, rfl, hplain⟩ := Node.walk_run_leaf hv (by simp) h
    rw [hplain.1, hplain.2]
    exact ⟨rfl, rfl, by simp⟩

theorem walk_run_eq_ok (hv : VisitsCalls function visit repl record accepts) : ∀ (ns : List Node)
    {s : σ} {ns' : List Node} {s' : σ}, (walk visit ns).run s = .ok (ns', s') →
    ns' = replaceCalls function repl ns ∧ s' = (callsOf function ns).foldl record s ∧
      ∀ m ∈ callsOf function ns, accepts m
  | [], s, ns', s', h => by
    cases h
    exact ⟨rfl, rfl, by simp [callsOf]⟩
  | n :: ns, s, ns', s', h => by
    rw [walk] at h
    obtain ⟨n', s₁, hn, h⟩ := bind_run_eq_ok.1 h
    obtain ⟨ns', s₂, hns, h⟩ := bind_run_eq_ok.1 h
    obtain ⟨rfl, rfl, haccepts⟩ := Node.walk_run_eq_ok hv n hn
    obtain ⟨rfl, rfl, haccepts'⟩ := walk_run_eq_ok hv ns hns
    cases h
    refine ⟨rfl, by rw [callsOf, List.foldl_append], ?_⟩
    rw [callsOf]
    exact fun m hm => (List.mem_append.1 hm).elim (haccepts m) (haccepts' m)
end

mutual
theorem Node.walk_run_of_callsOf (hv : VisitsCalls function visit repl record accepts) :
    ∀ (n : Node) (s : σ), n.callsOf function = [] → (n.walk visit).run s = .ok (n, s)
  | .call name before after args key, s, h => by
    rw [Node.callsOf] at h
    split at h
    · cases h
    · rename_i hname
      have hcall : ¬(Node.call name before after args key).IsCallOf function := hname
      rw [Node.walk, hv.other _ hcall, pure_bind, bind_run_eq_ok]
      exact ⟨args, s, walk_run_of_callsOf hv args s h, rfl⟩
  | .word v, s, h | .string v _, s, h | .divider v _ _, s, h | .space v, s, h | .comment v, s, h => by
    rw [Node.walk, hv.other _ id]
    · rfl
    · simp

/-- A walk leaves a value without calls of the function alone. -/
theorem walk_run_of_callsOf (hv : VisitsCalls function visit repl record accepts) :
    ∀ (ns : List Node) (s : σ), callsOf function ns = [] → (walk visit ns).run s = .ok (ns, s)
  | [], s, _ => rfl
  | n :: ns, s, h => by
    obtain ⟨hn, hns⟩ := List.append_eq_nil_iff.1 h
    rw [walk, bind_run_eq_ok]
    refine ⟨n, s, Node.walk_run_of_callsOf hv n s hn, ?_⟩
    rw [bind_run_eq_ok]
    exact ⟨ns, s, walk_run_of_callsOf hv ns s hns, rfl⟩
end

mutual
theorem Node.walk_run_eq_error {P : Error → Prop}
    (hv : ∀ n s e, (visit n).run s = .error e → P e) :
    ∀ (n : Node) {s : σ} {e : Error}, (n.walk visit).run s = .error e → P e
  | .call name before after args key, s, e, h => by
    rw [Node.walk, bind_run_eq_error] at h
    rcases h with h | ⟨r, s₁, -, h⟩
    · exact hv _ _ _ h
    · cases r with
      | some n' => cases h
      | none =>
        rcases bind_run_eq_error.1 h with h | ⟨args', s₂, -, h⟩
        · exact walk_run_eq_error hv args h
        · cases h
  | .word v, s, e, h | .string v _, s, e, h | .divider v _ _, s, e, h | .space v, s, e, h
  | .comment v, s, e, h => by
    rw [Node.walk] at h
    · rcases bind_run_eq_error.1 h with h | ⟨r, s₁, -, h⟩
      · exact hv _ _ _ h
      · cases r <;> cases h
    · simp

/-- A walk fails with an error of its visitor. -/
theorem walk_run_eq_error {P : Error → Prop} (hv : ∀ n s e, (visit n).run s = .error e → P e) :
    ∀ (ns : List Node) {s : σ} {e : Error}, (walk visit ns).run s = .error e → P e
  | [], s, e, h => by cases h
  | n :: ns, s, e, h => by
    rw [walk] at h
    rcases bind_run_eq_error.1 h with h | ⟨n', s₁, -, h⟩
    · exact Node.walk_run_eq_error hv n h
    · rcases bind_run_eq_error.1 h with h | ⟨ns', s₂, -, h⟩
      · exact walk_run_eq_error hv ns h
      · cases h
end

end State

/-! ## Visitors without a state -/

section Except

variable {visit : Node → Except Error (Option Node)} {accepts : Node → Prop}

mutual
theorem Node.walk_lift : ∀ n : Node,
    n.walk (fun m => (StateT.lift (visit m) : StateT Unit (Except Error) (Option Node))) =
      StateT.lift (n.walk visit)
  | .call name before after args key => by
    rw [Node.walk, Node.walk, walk_lift args]
    funext s
    cases visit (.call name before after args key) with
    | error e => rfl
    | ok r =>
      cases r with
      | none => cases walk visit args <;> rfl
      | some n => rfl
  | .word v | .string v _ | .divider v _ _ | .space v | .comment v => by
    rw [Node.walk, Node.walk]
    · funext s
      generalize visit _ = x
      cases x with
      | error e => rfl
      | ok r => cases r <;> rfl
    all_goals simp

theorem walk_lift : ∀ ns : List Node,
    walk (fun m => (StateT.lift (visit m) : StateT Unit (Except Error) (Option Node))) ns =
      StateT.lift (walk visit ns)
  | [] => rfl
  | n :: ns => by
    rw [walk, walk, Node.walk_lift n, walk_lift ns]
    funext s
    cases n.walk visit with
    | error e => rfl
    | ok n' => cases walk visit ns <;> rfl
end

theorem walk_eq_ok (hother : ∀ n, ¬n.IsCallOf function → visit n = .ok none)
    (hcall : ∀ n r, n.IsCallOf function → visit n = .ok r → r = some (repl n) ∧ accepts n)
    {ns ns' : List Node}
    (h : walk visit ns = .ok ns') :
    ns' = replaceCalls function repl ns ∧ ∀ m ∈ callsOf function ns, accepts m := by
  have hv : VisitsCalls function (fun m =>
    (StateT.lift (visit m) : StateT Unit (Except Error) (Option Node))) repl
      (fun s _ => s) accepts := by
    refine ⟨fun n hn => ?_, fun n s r s' hn hr => ?_⟩
    · rw [hother n hn]
      rfl
    · cases hvisit : visit n with
      | error e =>
        rw [StateT.run, hvisit] at hr
        cases hr
      | ok r' =>
        rw [StateT.run, hvisit] at hr
        cases hr
        exact ⟨(hcall n r hn hvisit).1, rfl, (hcall n r hn hvisit).2⟩
  have hrun : (walk (fun m => (StateT.lift (visit m) : StateT Unit (Except Error) (Option Node)))
      ns).run () = .ok (ns', ()) := by
    rw [walk_lift, h]
    rfl
  obtain ⟨hns, -, haccepts⟩ := walk_run_eq_ok hv ns hrun
  exact ⟨hns, haccepts⟩

end Except

end CssTheming.Value
