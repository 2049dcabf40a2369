import CssTheming.ContextClass
import CssTheming.Proofs.Identifier
import CssTheming.Proofs.Table

/-!
# Names of keys and contexts read back

The name of a custom property gives back the key that it was made for, and the selector of a class
the context. Both are written names, so only U+0000 is lost; of the selector white space is trimmed,
which takes nothing away but the space behind a last code point. In front of another selector a class
is told from all others, up to U+0000.
-/

namespace CssTheming

open Identifier

variable {start key key' context : String}

theorem ne_zero_of_mem_append (hstart : '\x00' ∉ start.toList) (hkey : '\x00' ∉ key.toList) :
    ∀ c ∈ (start ++ key).toList, c ≠ '\x00' := by
  rintro c hc rfl
  rw [String.toList_append, List.mem_append] at hc
  exact hc.elim hstart hkey

namespace CustomProperty

theorem decode?_name (h : ∀ c ∈ (start ++ key).toList, c ≠ '\x00') :
    decode? (name start key) = some ("--" ++ (start ++ key)) := by
  have hwritten := written_encodeNameChars h
  have hname : Written (name start key).toList ('-' :: '-' :: (start ++ key).toList) := by
    rw [toList_name]
    exact .plain rfl (.plain rfl hwritten)
  have hstarts : startsIdentifier (name start key).toList = true := by
    rw [toList_name]
    exact startsIdentifier_hyphens hwritten
  rw [decode?, hname.decodeChars? hstarts, Option.map_some, Option.some.injEq,
    ← String.toList_inj]
  simp

theorem read?_name (h : ∀ c ∈ (start ++ key).toList, c ≠ '\x00') :
    read? (name start key) = some (start ++ key) := by
  rw [read?, decode?_name h, Option.bind_some]
  exact Text.stripStart?_eq_some.2 rfl

theorem key?_name (h : ∀ c ∈ (start ++ key).toList, c ≠ '\x00') :
    key? start (name start key) = some key ↔ key ≠ "" := by
  rw [key?_eq_some]
  exact and_iff_right (decode?_name h)

/-- Of keys with one prefix no two have the same name. -/
theorem name_injective (h : ∀ c ∈ (start ++ key).toList, c ≠ '\x00')
    (h' : ∀ c ∈ (start ++ key').toList, c ≠ '\x00') (heq : name start key = name start key') :
    key = key' := by
  have hread := congrArg read? heq
  rw [read?_name h, read?_name h', Option.some.injEq] at hread
  exact Table.append_inj_right hread

end CustomProperty

namespace ContextClass

theorem toList_selector (start context : String) :
    (selector start context).toList = '.' :: encodeChars (start ++ context).toList := by
  simp [selector, name, encode]

theorem context?_selector (hne : start ++ context ≠ "")
    (h : ∀ c ∈ (start ++ context).toList, c ≠ '\x00')
    (hlast : ∀ c ∈ (start ++ context).toList.getLast?, Text.isWhitespace c = false) :
    context? start (selector start context) = some context := by
  have htrims := (written_encodeChars h).trims hlast
  have hstarts := startsIdentifier_trimEnd htrims.space
    (startsIdentifier_encodeChars (by simpa using hne) h)
  have hdot : Text.trim (selector start context).toList =
      '.' :: Text.trimEnd (encodeChars (start ++ context).toList) := by
    rw [toList_selector, Text.trim_cons_of_not rfl]
  have hstrip : Text.stripStart? "." (String.ofList (Text.trim (selector start context).toList)) =
      some (String.ofList (Text.trimEnd (encodeChars (start ++ context).toList))) := by
    refine Text.stripStart?_eq_some.2 ?_
    rw [hdot, ← String.toList_inj]
    simp
  rw [context?, hstrip, Option.bind_some, decode?, String.toList_ofList,
    htrims.written.decodeChars? hstarts, Option.map_some, Option.bind_some, String.ofList_toList]
  exact Text.stripStart?_eq_some.2 rfl

/-- The name of a context as it is read from its class. -/
def legibleName (context : String) : String := String.ofList (context.toList.map legible)

theorem readName_selector (start context inner : String) :
    readName (selector start context ++ " " ++ inner).toList.tail =
      ((start ++ context).toList.map legible, ' ' :: inner.toList) := by
  rw [String.toList_append, String.toList_append, toList_selector]
  exact (congrArg readName (List.append_assoc _ _ _)).trans (readName_encodeChars_space _ _)

/-- A selector below a class gives away what is behind the class, and the context but for U+0000. -/
theorem selector_append_inj {context' inner inner' : String}
    (h : selector start context ++ " " ++ inner = selector start context' ++ " " ++ inner') :
    legibleName context = legibleName context' ∧ inner = inner' := by
  have hread := readName_selector start context inner
  rw [h, readName_selector, Prod.mk.injEq] at hread
  obtain ⟨hname, hinner⟩ := hread
  rw [String.toList_append, String.toList_append, List.map_append, List.map_append] at hname
  exact ⟨congrArg String.ofList (List.append_cancel_left hname).symm,
    String.toList_inj.1 (List.cons.inj hinner).2.symm⟩

end ContextClass

/-- Whatever a prefix and a key hold but U+0000 is read back from the name of their custom property,
so distinct keys have distinct names; and whatever a class holds that is not empty and does not end
in white space from its selector. -/
theorem read_back_written :
    (∀ start key : String, '\x00' ∉ start.toList → '\x00' ∉ key.toList →
      CustomProperty.read? (CustomProperty.name start key) = some (start ++ key) ∧
        (CustomProperty.key? start (CustomProperty.name start key) = some key ↔ key ≠ "")) ∧
      (∀ start key key' : String, '\x00' ∉ start.toList → '\x00' ∉ key.toList →
        '\x00' ∉ key'.toList → CustomProperty.name start key = CustomProperty.name start key' →
        key = key') ∧
      ∀ start context : String, start ++ context ≠ "" → '\x00' ∉ (start ++ context).toList →
        (∀ c ∈ (start ++ context).toList.getLast?, Text.isWhitespace c = false) →
        ContextClass.context? start (ContextClass.selector start context) = some context := by
  refine ⟨fun start key hstart hkey => ?_, fun start key key' hstart hkey hkey' heq => ?_,
    fun start context hne hzero hlast => ?_⟩
  · have h := ne_zero_of_mem_append hstart hkey
    exact ⟨CustomProperty.read?_name h, CustomProperty.key?_name h⟩
  · exact CustomProperty.name_injective (ne_zero_of_mem_append hstart hkey)
      (ne_zero_of_mem_append hstart hkey') heq
  · refine ContextClass.context?_selector hne (fun c hc hnul => ?_) hlast
    exact hzero (hnul ▸ hc)

/-- Names that end in a code point and in white space, and a class with a digit behind a hyphen. -/
theorem read_back_written_code :
    CustomProperty.name "" ">\x01\u00A0" = "--\\>\\1 \u00A0" ∧
      CustomProperty.read? "--\\>\\1 \u00A0" = some ">\x01\u00A0" ∧
      CustomProperty.key? "" "--\\>\\1 \u00A0" = some ">\x01\u00A0" ∧
      CustomProperty.name "" ">\x01\u00A0" ≠ CustomProperty.name "" ">1" ∧
      ContextClass.selector "-" "1 \x1f" = ".-\\31 \\ \\1f " ∧
      ContextClass.context? "-" ".-\\31 \\ \\1f " = some "1 \x1f" := by
  have hname : CustomProperty.name "" ">\x01\u00A0" = "--\\>\\1 \u00A0" := by decide +kernel
  have hselector : ContextClass.selector "-" "1 \x1f" = ".-\\31 \\ \\1f " := by decide +kernel
  obtain ⟨hread, hdistinct, hclass⟩ := read_back_written
  have hstart : '\x00' ∉ "".toList := by decide +kernel
  have hkey : '\x00' ∉ ">\x01\u00A0".toList := by decide +kernel
  have hkey' : '\x00' ∉ ">1".toList := by decide +kernel
  obtain ⟨hwhole, hpart⟩ := hread "" ">\x01\u00A0" hstart hkey
  rw [hname] at hwhole hpart
  refine ⟨hname, hwhole, hpart.2 (by decide), fun heq => ?_, hselector, ?_⟩
  · exact absurd (hdistinct _ _ _ hstart hkey hkey' heq) (by decide)
  · have hlast : ("-" ++ "1 \x1f").toList.getLast? = some '\x1f' := by decide +kernel
    rw [← hselector]
    refine hclass "-" "1 \x1f" (by decide) (by decide +kernel) fun c hc => ?_
    obtain rfl := Option.some.inj (hlast.symm.trans hc)
    rfl

end CssTheming
