import CssTheming.Compile.Argument
import CssTheming.Proofs.Text.Lexeme
import CssTheming.Proofs.Value.Walk

/-!
# Keys that authors name

What is known of a key that was accepted, and of a call that was: it names one key or none and has
no call in it.
-/

namespace CssTheming

namespace Key

variable {key : String}

theorem isKeyChar_of_isResolved (h : isResolved key = true) :
    ∀ c ∈ key.toList, isKeyChar c = true := by
  rw [isResolved, Bool.and_eq_true] at h
  exact List.all_eq_true.1 h.2

theorem isRooted_iff :
    isRooted key = true ↔ ∃ rest, key = "/" ++ rest ∧ isResolved rest = true := by
  rw [isRooted]
  constructor
  · intro h
    split at h
    · rename_i r hr
      refine ⟨String.ofList r, ?_, by simpa [isResolved] using h⟩
      rw [← String.toList_inj, hr]
      simp
    · simp at h
  · rintro ⟨rest, rfl, hrest⟩
    simpa [isResolved] using hrest

theorem unrooted_slash (rest : String) : unrooted ("/" ++ rest) = rest := by
  rw [unrooted, Text.stripStart?_eq_some.2 rfl]
  rfl

theorem unrooted_of_isResolved (h : isResolved key = true) : unrooted key = key := by
  cases hstrip : Text.stripStart? "/" key with
  | none => rw [unrooted, hstrip, Option.getD_none]
  | some rest =>
    obtain rfl := Text.stripStart?_eq_some.1 hstrip
    have : isKeyChar '/' = true := isKeyChar_of_isResolved h '/' (by simp)
    exact absurd this (by decide)

/-- An accepted key is resolved once its slash is gone. -/
theorem isResolved_unrooted (h : isValid key = true) : isResolved (unrooted key) = true := by
  rw [isValid, Bool.or_eq_true] at h
  rcases h with h | h
  · rwa [unrooted_of_isResolved h]
  · obtain ⟨rest, rfl, hrest⟩ := isRooted_iff.1 h
    rwa [unrooted_slash]

end Key

namespace Compile

open Value

variable {location : Location} {key : String}

theorem checkKey_eq_ok : checkKey location key = .ok () ↔ Key.isValid key = true := by
  rw [checkKey]
  split <;> simp_all

/-- The key that a call names, if it names one. -/
def givenKey? : Value.Node → Option String
  | .call _ _ _ args _ =>
    match args.filter fun n => !n.isTrivia with
    | [.word value] => some value
    | [.string value _] => some value
    | _ => none
  | _ => none

/-- The key that a call on a property names; an empty call names the property. -/
def calledKey (property : String) (n : Value.Node) : String := (givenKey? n).getD property

/-- The key that a config call on a property refers to. -/
def referredKey (property : String) (n : Value.Node) : String := Key.unrooted (calledKey property n)

/-- A call that names one key that an author may write, or none on a property that is one. -/
structure Accepted (property : String) (n : Value.Node) : Prop where
  valid : Key.isValid (calledKey property n) = true
  sole : n.args.filter (fun m => !m.isTrivia) = [] ∨
    (∃ value, n.args.filter (fun m => !m.isTrivia) = [.word value]) ∨
      ∃ value quote, n.args.filter (fun m => !m.isTrivia) = [.string value quote]

theorem keyArgument_eq_ok {n : Value.Node} {argument : Option String}
    (h : keyArgument location n = .ok argument) :
    argument = givenKey? n := by
  cases n with
  | call name before after args key =>
    rw [keyArgument] at h
    split at h
    · rename_i hempty
      cases h
      rw [givenKey?, List.isEmpty_iff.1 hempty]
    split at h
    · simp at h
    split at h <;> rename_i hargs
    · split at h
      · simp at h
      · cases h
        rw [givenKey?, hargs]
    · split at h
      · simp at h
      · cases h
        rw [givenKey?, hargs]
    · simp at h
  | _ =>
    cases h
    rfl

theorem accepted_of_keyArgument {n : Value.Node} {argument : Option String} {property : String}
    (h : keyArgument location n = .ok argument)
    (hvalid : Key.isValid (argument.getD property) = true) : Accepted property n := by
  refine ⟨by rwa [calledKey, ← keyArgument_eq_ok h], ?_⟩
  cases n with
  | call name before after args key =>
    rw [keyArgument] at h
    split at h
    · rename_i hempty
      exact .inl (List.isEmpty_iff.1 hempty)
    split at h
    · simp at h
    split at h <;> rename_i hargs
    · exact .inr (.inl ⟨_, hargs⟩)
    · exact .inr (.inr ⟨_, _, hargs⟩)
    · simp at h
  | _ => exact .inl rfl

/-- An accepted call has no call in it. -/
theorem Accepted.allCallsOf_args {n : Value.Node} {property : String} (h : Accepted property n)
    (function : String) : allCallsOf function n.args = [] := by
  have hall : ∀ m ∈ n.args.filter fun m => !m.isTrivia, m.allCallsOf function = [] := by
    rcases h.sole with hnone | ⟨value, hword⟩ | ⟨value, quote, hstring⟩
    · simp [hnone]
    · rw [hword]
      exact fun m hm => List.mem_singleton.1 hm ▸ rfl
    · rw [hstring]
      exact fun m hm => List.mem_singleton.1 hm ▸ rfl
  apply allCallsOf_eq_nil
  intro m hm
  cases m with
  | call name before after args key => exact hall _ (List.mem_filter.2 ⟨hm, rfl⟩)
  | _ => rfl

end Compile

end CssTheming
