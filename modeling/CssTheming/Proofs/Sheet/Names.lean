import CssTheming.Proofs.Identifier
import CssTheming.Proofs.Sheet.Printing
import CssTheming.Sheet.Selectors

/-!
# Written names in stylesheets

A written name stands for itself wherever it is put, as a property and as the class of a selector.
The reader takes off the space at its end and no more, and such a selector is no list.
-/

namespace CssTheming.Sheet

open Identifier

variable {c : Char} {w cs stops s : List Char}

/-! ## Standing names -/

theorem ne_of_continuesName_eq_false (hc : continuesName c = true) {d : Char}
    (hd : continuesName d = false) : c ≠ d := by
  rintro rfl
  rw [hc] at hd
  exact absurd hd (by decide)

theorem stands_plain (hc : continuesName c = true) (h : Stands propertyStops s) :
    Stands propertyStops (c :: s) := by
  have hne := fun d => ne_of_continuesName_eq_false hc (d := d)
  refine stands_cons (hne _ (by decide)) ?_ (hne _ (by decide)) ?_ ?_ h
  · simp [isQuote, hne '"' (by decide), hne '\'' (by decide)]
  · simp [depthAfter, hne '(' (by decide), hne '[' (by decide)]
  · simp [propertyStops, hne ':' (by decide), hne ';' (by decide), hne '{' (by decide),
      hne '}' (by decide)]

theorem stands_escape (hstop : '\\' ∉ stops) (c : Char) (h : Stands stops s) :
    Stands stops ('\\' :: c :: s) := by
  have hunit : unit '\\' (c :: s) = (['\\', c], s) := rfl
  have hdepth : depthAfter 0 '\\' = 0 := rfl
  refine ⟨?_, ?_⟩
  · rw [isClosed, closes, hunit, hdepth]
    exact h.1
  · rw [isFreeOf, readUntil_cons, if_neg fun hc => hstop hc.2, hunit, hdepth]
    exact h.2

theorem continuesName_digitChar {n : Nat} (h : n < 16) : continuesName n.digitChar = true := by
  revert n
  decide

theorem stands_code {n : Nat} (hn : n < 128) (h : Stands propertyStops s) :
    Stands propertyStops ('\\' :: (Nat.toDigits 16 n ++ s)) := by
  rcases toDigits_ascii hn with ⟨hdigits, -⟩ | ⟨hdigits, -⟩
  · rw [hdigits, List.singleton_append]
    exact stands_escape (by decide) _ h
  · rw [hdigits, List.cons_append, List.singleton_append]
    exact stands_escape (by decide) _
      (stands_plain (continuesName_digitChar (Nat.mod_lt _ (by decide))) h)

theorem stands_nil : Stands stops [] := by
  refine ⟨?_, ?_⟩
  · rw [isClosed, closes]
    rfl
  · rw [isFreeOf, readUntil]
    rfl

theorem stands_written (h : Written w cs) : Stands propertyStops w := by
  induction h with
  | nil => exact stands_nil
  | plain hc _ ih => exact stands_plain hc ih
  | escaped hc _ ih => exact stands_escape (by decide) _ ih
  | code hne hc _ ih =>
    rw [hexEscape, List.append_assoc]
    exact stands_code hc (stands_cons (by decide) (by decide) (by decide) (by decide) (by decide) ih)
  | lastCode hne hc =>
    have hstands := stands_code hc (stands_nil : Stands propertyStops [])
    rwa [List.append_nil] at hstands

/-! ## Properties -/

/-- A name behind two hyphens. -/
def hyphened (w : List Char) : List Char := '-' :: '-' :: w

theorem written_hyphened (h : Written w cs) : Written (hyphened w) (hyphened cs) :=
  .plain rfl (.plain rfl h)

theorem trim_hyphened (w : List Char) : Text.trim (hyphened w) = hyphened (Text.trimEnd w) := by
  rw [hyphened, Text.trim_cons_of_not (by decide), Text.trimEnd_cons_of_not (by decide), hyphened]

theorem readsAs_hyphened {v : List Char} (h : Written w cs) (hvalue : Stands headStops v)
    (pos : Text.Position) :
    ReadsAs true (hyphened w ++ (':' :: (v ++ [';']))) [.mk (declaration (hyphened w) v) pos []] :=
  readsAs_declarationText rfl (by decide) (stands_written (written_hyphened h)) rfl hvalue pos

theorem decode?_trim_hyphened (h : Written w cs) (hcs : IsSolid cs) :
    decode? (String.ofList (Text.trim (hyphened w))) = some (String.ofList (hyphened cs)) := by
  have hwritten := written_hyphened (h.trimEnd hcs)
  have hstart : startsIdentifier (hyphened (Text.trimEnd w)) = true :=
    startsIdentifier_hyphens (h.trimEnd hcs)
  rw [trim_hyphened, decode?, String.toList_ofList, hwritten.decodeChars? hstart, Option.map_some]

/-! ## Selectors -/

theorem opensAs_class (h : Written w cs) :
    OpensAs false ('.' :: w ++ [' ']) (rule ('.' :: w ++ [' '])) := by
  have hstands : Stands headStops ('.' :: w) :=
    (stands_cons (by decide) (by decide) (by decide) (by decide) (by decide)
      (stands_written h)).of_subset (by decide)
  exact opensAs_head (by decide) (hstands.append (by decide +kernel) (by decide)) rfl

theorem rule_class (h : Written w cs) (hcs : IsSolid cs) :
    rule ('.' :: w ++ [' ']) = .rule (String.ofList ('.' :: Text.trimEnd w)) := by
  have hspaced : Text.Spaced ('.' :: w) := Text.spaced_cons_of_not (by decide) (h.spaced hcs)
  rw [rule, Text.collapse_append_space (by decide), hspaced.collapse_eq_trim,
    Text.trim_cons_of_not (by decide)]

section Split

variable {current : List Char}

theorem splitFrom_escape (c : Char) (r : List Char) :
    Selectors.splitFrom 0 none current ('\\' :: c :: r) =
      Selectors.splitFrom 0 none (c :: '\\' :: current) r :=
  rfl

theorem splitFrom_single (hescape : c ≠ '\\') (hquote : isQuote c = false) (hcomma : c ≠ ',')
    (hdepth : depthAfter 0 c = 0) (r : List Char) :
    Selectors.splitFrom 0 none current (c :: r) = Selectors.splitFrom 0 none (c :: current) r := by
  rw [Selectors.splitFrom]
  · simp [hquote, hcomma, hdepth]
  · exact fun _ _ hc _ => hescape hc

theorem splitFrom_plain (hc : continuesName c = true) (r : List Char) :
    Selectors.splitFrom 0 none current (c :: r) = Selectors.splitFrom 0 none (c :: current) r := by
  have hne := fun d => ne_of_continuesName_eq_false hc (d := d)
  refine splitFrom_single (hne _ (by decide)) ?_ (hne _ (by decide)) ?_ r
  · simp [isQuote, hne '"' (by decide), hne '\'' (by decide)]
  · simp [depthAfter, hne '(' (by decide), hne '[' (by decide), hne ')' (by decide)]

theorem splitFrom_code {n : Nat} (hn : n < 128) (r : List Char) :
    Selectors.splitFrom 0 none current ('\\' :: (Nat.toDigits 16 n ++ r)) =
      Selectors.splitFrom 0 none (('\\' :: Nat.toDigits 16 n).reverse ++ current) r := by
  rcases toDigits_ascii hn with ⟨hdigits, -⟩ | ⟨hdigits, -⟩
  · rw [hdigits]
    rfl
  · rw [hdigits, List.cons_append, List.singleton_append, splitFrom_escape,
      splitFrom_plain (continuesName_digitChar (Nat.mod_lt _ (by decide)))]
    rfl

theorem splitFrom_written (h : Written w cs) (current : List Char) :
    Selectors.splitFrom 0 none current w =
      Selectors.splitFrom 0 none (w.reverse ++ current) [] := by
  induction h generalizing current with
  | nil => rfl
  | plain hc _ ih =>
    rw [splitFrom_plain hc, ih]
    simp
  | escaped hc _ ih =>
    rw [splitFrom_escape, ih]
    simp
  | code hne hc _ ih =>
    rw [hexEscape, List.append_assoc, List.cons_append, splitFrom_code hc, List.singleton_append,
      splitFrom_single (by decide) (by decide) (by decide) (by decide), ih]
    simp
  | @lastCode c hne hc =>
    have hcode : Selectors.splitFrom 0 none current ('\\' :: (Nat.toDigits 16 c.toNat ++ [])) = _ :=
      splitFrom_code hc []
    rwa [List.append_nil] at hcode

/-- The selector of one class is no list. -/
theorem split_class (h : Written w cs) :
    Selectors.split (String.ofList ('.' :: w)) = [String.ofList (Text.trim ('.' :: w))] := by
  have hne : (Text.trim ('.' :: w)).isEmpty = false := by
    rw [Text.trim_cons_of_not (by decide)]
    rfl
  rw [Selectors.split, String.toList_ofList,
    splitFrom_single (by decide) (by decide) (by decide) (by decide), splitFrom_written h,
    Selectors.splitFrom]
  simp [hne]

end Split

end CssTheming.Sheet
