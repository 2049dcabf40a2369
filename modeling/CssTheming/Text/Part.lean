/-!
# Parts of a text

What begins a text and what occurs in it, character for character.
-/

namespace CssTheming.Text

/-- What follows `start` in a text that begins with it. -/
def stripStart? (start text : String) : Option String := (start.toList.isPrefixOf? text.toList).map String.ofList

def startsWith (text start : String) : Bool := start.toList.isPrefixOf text.toList

def endsWith (text ending : String) : Bool := ending.toList.isSuffixOf text.toList

def occursIn (inner : List Char) : List Char → Bool
  | [] => inner.isEmpty
  | c :: r => inner.isPrefixOf (c :: r) || occursIn inner r

def contains (text inner : String) : Bool := occursIn inner.toList text.toList

theorem occursIn_iff {inner text : List Char} : occursIn inner text = true ↔ ∃ before after, text = before ++ inner ++ after := by
  induction text with
  | nil =>
    simp only [occursIn, List.isEmpty_iff]
    constructor
    · rintro rfl; exact ⟨[], [], rfl⟩
    · rintro ⟨b, a, h⟩; simp_all
  | cons c r ih =>
    simp only [occursIn, Bool.or_eq_true, List.isPrefixOf_iff_prefix, ih]
    constructor
    · rintro (⟨a, h⟩ | ⟨b, a, h⟩)
      · exact ⟨[], a, by simp [h]⟩
      · exact ⟨c :: b, a, by simp [h]⟩
    · rintro ⟨b, a, h⟩
      cases b with
      | nil => exact .inl ⟨a, by simpa using h.symm⟩
      | cons d b =>
        simp only [List.cons_append, List.cons.injEq] at h
        exact .inr ⟨b, a, h.2⟩

end CssTheming.Text
