import CssTheming.Compile.Context
import CssTheming.Proofs.Compile.Argument
import CssTheming.Proofs.Sheet.Changes

/-!
# Composed contexts

Composing the contexts of a stylesheet puts a declaration in the place of each `@context` at-rule
and leaves all else. Such a declaration calls no function that its class does not call.
-/

namespace CssTheming.Compile

open Sheet

variable {options : Options} {s s' t : Sheet} {id : Nat} {ids : List Nat}

/-- What becomes of a `@context` at-rule. -/
def Composes (options : Options) : Kind → Kind → Prop
  | .atRule _ params false, kind => Key.isValid (contextKey params) = true ∧
    kind = composition options (contextKey params)
  | _, _ => False

/-- A context at-rule that has nothing below it unless it has a block. -/
def IsContext (options : Options) (s : Sheet) (id : Nat) : Prop :=
  ∃ params hasBlock, s.kind? id = some (.atRule options.contextKeyword params hasBlock) ∧
    (hasBlock = false → s.children id = [])

theorem edited_composeAt (hid : IsContext options s id) (h : composeAt options s id = .ok s') :
    Edited (fun _ => Composes options) [id] s s' := by
  obtain ⟨params, hasBlock, hk, hleaf⟩ := hid
  rw [composeAt, hk] at h
  cases hasBlock with
  | true => cases h
  | false =>
    obtain ⟨_, hcheck, rfl⟩ := map_eq_ok.1 h
    refine edited_one (sameTree_replace (hleaf rfl) _) (fun i hi => ?_) hk ?_
      ⟨checkKey_eq_ok.1 hcheck, rfl⟩
    · rw [kind?_replace hk, if_neg hi]
    · rw [kind?_replace hk, if_pos rfl]

theorem composeAll_eq_ok (hnodup : ids.Nodup) (hids : ∀ id ∈ ids, IsContext options s id)
    (h : composeAll options ids s = (s', .ok ())) :
    Edited (fun _ => Composes options) ids s s' := by
  induction ids generalizing s with
  | nil =>
    cases h
    exact edited_nil _
  | cons id ids ih =>
    rw [composeAll] at h
    cases hat : composeAt options s id with
    | error e =>
      rw [hat] at h
      cases h
    | ok t =>
      rw [hat] at h
      obtain ⟨hid, hnodup⟩ := List.nodup_cons.1 hnodup
      have hone := edited_composeAt (hids id List.mem_cons_self) hat
      refine hone.cons hid (ih hnodup (fun i hi => ?_) h)
      obtain ⟨params, hasBlock, hk, hleaf⟩ := hids i (List.mem_cons_of_mem id hi)
      exact ⟨params, hasBlock, (hone.others_of_mem hid hi).trans hk,
        fun hb => (hone.sameTree.children_eq i).trans (hleaf hb)⟩

/-- Composing edits the context at-rules. -/
theorem compose_eq_ok {n : Nat} (hs : s.Linked)
    (hids : ∀ id ∈ s.atRulesNamed root options.contextKeyword, IsContext options s id)
    (h : compose options s = (s', .ok n)) :
    Edited (fun _ => Composes options) (s.atRulesNamed root options.contextKeyword) s s' := by
  rw [compose] at h
  split at h
  · cases h
  · obtain ⟨hsheet, hresult⟩ := Prod.mk.inj h
    obtain ⟨_, hall, -⟩ := map_eq_ok.1 hresult
    exact composeAll_eq_ok ((hs.nodup_descendants root).filter _) hids (Prod.ext hsheet hall)

/-- A call begins in the prefix of the class or nowhere, as no key has a parenthesis in it. -/
theorem contains_composition {key : String} (hkey : Key.isResolved key = true)
    (hclass : Text.contains options.contextClassPrefix (callMarker options) = false) :
    Text.contains (ContextClass.name options.contextClassPrefix key ++ " from global")
      (callMarker options) = false := by
  rw [Bool.eq_false_iff] at hclass ⊢
  intro h
  apply hclass
  rw [Text.contains, Text.occursIn_iff] at h ⊢
  obtain ⟨front, back, heq⟩ := h
  have htail : '(' ∉ key.toList ++ " from global".toList := by
    rw [List.mem_append, not_or]
    refine ⟨fun hmem => ?_, by decide⟩
    exact absurd (Key.isKeyChar_of_isResolved hkey _ hmem) (by decide)
  have hchars : options.contextClassPrefix.toList ++ (key.toList ++ " from global".toList) =
      (front ++ options.configKeyword.toList) ++ '(' :: back := by
    rw [ContextClass.name, callMarker] at heq
    simpa using heq
  obtain ⟨back', hstart⟩ := Text.exists_of_append_eq htail hchars
  exact ⟨front, back', by simpa [callMarker] using hstart⟩

end CssTheming.Compile
