import CssTheming.Fallback
import CssTheming.Proofs.Resolver.Overlay
import CssTheming.Proofs.Theme.Stylesheet

/-!
# Live themes and fallbacks

A resolver looks a key up in what its host shows, a fallback stylesheet has the literal from the
tables of the theme. Once the stylesheet of a theme is active both give the same value for a key in
a context, or both say that there is none, as long as no stylesheet of others has anything for that
key there.
-/

namespace CssTheming

namespace Theme

/-- Every value has something to show. -/
def HasText (t : Theme) : Prop :=
  (∀ e ∈ t.contextless.entries, e.2.css ≠ "") ∧
    ∀ e ∈ t.contextual.entries, ∀ e' ∈ e.2.entries, e'.2.css ≠ ""

instance (t : Theme) : Decidable t.HasText :=
  have : Decidable (∀ e ∈ t.contextless.entries, e.2.css ≠ "") :=
    List.decidableBAll (fun e : String × Literal => e.2.css ≠ "") t.contextless.entries
  have : Decidable (∀ e ∈ t.contextual.entries, ∀ e' ∈ e.2.entries, e'.2.css ≠ "") :=
    have (e : String × Table Literal) : Decidable (∀ e' ∈ e.2.entries, e'.2.css ≠ "") :=
      List.decidableBAll (fun e' : String × Literal => e'.2.css ≠ "") e.2.entries
    List.decidableBAll (fun e : String × Table Literal => ∀ e' ∈ e.2.entries, e'.2.css ≠ "")
      t.contextual.entries
  inferInstanceAs (Decidable (_ ∧ _))

variable {t : Theme} {propertyPrefix contextClassPrefix : String}

theorem literal?_spec (h : t.IsReadable propertyPrefix contextClassPrefix) (htext : t.HasText)
    {context : Option String} {key : String} {literal : Literal}
    (hliteral : Fallback.literal? t context key = some literal) :
    Text.trim literal.css.toList = literal.css.toList ∧ literal.css ≠ "" := by
  have hcontextless : t.get? key none = some literal →
      Text.trim literal.css.toList = literal.css.toList ∧ literal.css ≠ "" := by
    intro hget
    have hmem := Table.get?_eq_some.1 hget
    exact ⟨(h.contextless _ hmem).2.2.1, htext.1 _ hmem⟩
  cases context with
  | none => exact hcontextless hliteral
  | some context =>
    rcases Option.or_eq_some_iff.1 hliteral with hget | ⟨-, hget⟩
    · obtain ⟨table, htable, hget⟩ := Option.bind_eq_some_iff.1 hget
      have hmem := Table.get?_eq_some.1 htable
      have hmem' := Table.get?_eq_some.1 hget
      exact ⟨((h.contextual _ hmem).2.2 _ hmem').2.2.1, htext.2 _ hmem _ hmem'⟩
    · exact hcontextless hget

/-- A key of a theme in the properties that its stylesheet declares. -/
theorem get?_properties (t : Theme) (propertyPrefix contextClassPrefix : String)
    (context : Option String) (key : String) :
    (((context.map (contextClassPrefix ++ ·)).bind
        (t.properties propertyPrefix contextClassPrefix).classes.get?).bind
          (·.get? ("--" ++ propertyPrefix ++ key))).or
        ((t.properties propertyPrefix contextClassPrefix).root.get?
          ("--" ++ propertyPrefix ++ key)) =
      (Fallback.literal? t context key).map Literal.css := by
  have hroot : (t.properties propertyPrefix contextClassPrefix).root.get?
      ("--" ++ propertyPrefix ++ key) = (t.get? key none).map Literal.css := by
    rw [properties, declared, Table.get?_ofList_prefixed]
    rfl
  rw [hroot]
  cases context with
  | none => rfl
  | some context =>
    rw [Option.map_some, Option.bind_some, properties, Table.get?_ofList_prefixed,
      Fallback.literal?, Theme.get?, Option.map_or]
    congr 1
    cases t.contextual.get? context with
    | none => rfl
    | some table =>
      rw [Option.map_some, Option.bind_some, Option.bind_some, declared,
        Table.get?_ofList_prefixed]

/-- A style shows the value of a theme for a key in a context, under the name of the key. -/
def IsShown (t : Theme) (propertyPrefix key : String) (context : Option String)
    (style : Table String) : Prop :=
  style.get? ("--" ++ propertyPrefix ++ key) =
    (Fallback.literal? t context key).map Literal.css

end Theme

namespace Resolver

variable {r : Resolver} {t : Theme} {s : Step} {steps : List Step} {key : String}
  {context : Option String}

/-- The theme's stylesheet is the active one, and a style that is kept for the context has the
theme's value for the key. -/
structure Displays (t : Theme) (key : String) (context : Option String) (r : Resolver) : Prop where
  ready : r.ready = true
  wears : r.Wears (t.properties r.options.propertyPrefix r.options.contextClassPrefix)
  kept : ∀ style ∈ r.cache.lookup context, t.IsShown r.options.propertyPrefix key context style

namespace Displays

/-- What is computed has the value as well if the other stylesheets are silent. -/
theorem isShown (h : Displays t key context r) (hsilent : r.OthersSilent key context) :
    t.IsShown r.options.propertyPrefix key context (r.host.style (r.probeClass context)) := by
  obtain ⟨front, back, hloaded, hothers⟩ := hsilent.loaded h.wears
  rw [Theme.IsShown,
    ← Theme.get?_properties t r.options.propertyPrefix r.options.contextClassPrefix context key]
  exact Host.get?_style hloaded hothers

theorem isShown_styleOf (h : Displays t key context r) (hsilent : r.OthersSilent key context) :
    t.IsShown r.options.propertyPrefix key context (r.styleOf context).result := by
  cases hlookup : r.cache.lookup context with
  | some style =>
    rw [styleOf_of_lookup hlookup]
    exact h.kept style hlookup
  | none =>
    rw [styleOf_of_lookup_eq_none hlookup]
    exact h.isShown hsilent

theorem property_result (h : Displays t key context r) (hsilent : r.OthersSilent key context)
    (hreadable : t.IsReadable r.options.propertyPrefix r.options.contextClassPrefix)
    (htext : t.HasText) :
    (r.property key context).result = match Fallback.literal? t context key with
      | some literal => .ok (some literal.css)
      | none => .error (.unresolvable key context) := by
  rw [Resolver.property_result, if_pos h.ready, valueIn, h.isShown_styleOf hsilent]
  cases hliteral : Fallback.literal? t context key with
  | none => rfl
  | some literal =>
    obtain ⟨htrim, hne⟩ := Theme.literal?_spec hreadable htext hliteral
    have hvalue : ((some literal.css).map fun value =>
        String.ofList (Text.trim value.toList)).filter (· ≠ "") = some literal.css := by
      rw [Option.map_some, htrim, String.ofList_toList]
      simp [Option.filter, hne]
    rw [Option.map_some, hvalue]

theorem step (h : Displays t key context r) (hr : Sound r) (hsilent : r.OthersSilent key context)
    (hs : s.Spares r) : Displays t key context (r.step s) := by
  have hoptions : (r.step s).options = r.options := (settings_through r [s]).2
  have hwears := h.wears.step hr hs
  have hready : (r.step s).ready = true := by
    obtain ⟨x, hactive, -⟩ := hwears
    rw [(hr.step s).ready, hactive]
    rfl
  refine ⟨hready, hoptions ▸ hwears, ?_⟩
  rw [hoptions]
  cases s with
  | host a => exact h.kept
  | own a =>
    intro style hstyle
    rw [Resolver.step] at hstyle
    rcases (effect_perform hr.fresh a).kept with hnone | hkept
    · rw [hnone] at hstyle
      cases hstyle
    · rcases (hkept context).2 style hstyle with hold | rfl
      · exact h.kept style hold
      · exact h.isShown hsilent

theorem through (h : Displays t key context r) (hr : Sound r)
    (hu : r.Undisturbed key context steps) :
    Displays t key context (r.through steps) ∧ (r.through steps).OthersSilent key context := by
  induction steps generalizing r with
  | nil => exact ⟨h, hu⟩
  | cons s steps ih =>
    obtain ⟨hsilent, hs, hrest⟩ := hu
    exact ih (h.step hr hsilent hs) (hr.step s) hrest

end Displays

/-- Once a theme's stylesheet has been fetched and put in place it is displayed. -/
theorem Sound.displays_setTheme (h : Sound r) {entry : Entry}
    (hentry : r.named? entry.name = some entry)
    (hfetch : r.host.fetch entry.url =
      .ok (t.properties r.options.propertyPrefix r.options.contextClassPrefix))
    (key : String) (context : Option String) :
    Displays t key context (r.setTheme entry.name).resolver := by
  rw [(setTheme_of_fetch h.fresh hentry hfetch).2]
  refine ⟨rfl, h.wears_commit entry.name entry.url _, fun style hstyle => ?_⟩
  cases hstyle

/-! ## Live answers -/

theorem Sound.property_setTheme (h : Sound r) {entry : Entry}
    (hentry : r.named? entry.name = some entry)
    (hserved : r.host.sources.get? entry.url =
      some (.css (t.css r.options.propertyPrefix r.options.contextClassPrefix)))
    (hreadable : t.IsReadable r.options.propertyPrefix r.options.contextClassPrefix)
    (htext : t.HasText) :
    (r.setTheme entry.name).result = .ok () ∧ ∀ later key context,
      (r.setTheme entry.name).resolver.Undisturbed key context later →
        (((r.setTheme entry.name).resolver.through later).property key context).result =
          match Fallback.literal? t context key with
          | some literal => .ok (some literal.css)
          | none => .error (.unresolvable key context) := by
  have hfetch : r.host.fetch entry.url =
      .ok (t.properties r.options.propertyPrefix r.options.contextClassPrefix) := by
    rw [Host.fetch, hserved]
    dsimp only
    rw [Theme.read_css hreadable]
  refine ⟨(setTheme_of_fetch h.fresh hentry hfetch).1, fun later key context hlater => ?_⟩
  obtain ⟨hdisplays, hsilent⟩ :=
    (h.displays_setTheme hentry hfetch key context).through (h.perform (.setTheme entry.name))
      hlater
  have hoptions : ((r.setTheme entry.name).resolver.through later).options = r.options :=
    (settings_through _ later).2.trans (settings_perform (Action.setTheme entry.name)).2
  apply hdisplays.property_result hsilent
  · rw [hoptions]
    exact hreadable
  · exact htext

/-- Once a theme has been set, a lookup agrees with the fallback of that theme until another one
takes its place: it answers the word that a key is replaced by, and there is no answer exactly if
the fallback does not know the key. What others have done with the host before does not matter, and
nothing that they do later, as long as they leave the theme's stylesheet alone and none of theirs
that is loaded declares anything for the key in the context. -/
theorem property_agrees (first : List Host.Action) (themes : List Entry) (options : Options)
    (before : List Step) (entry : Entry)
    (hentry : themes.find? (fun e => e.name = entry.name) = some entry)
    (hserved : ((create (Host.empty.after first) themes options).through before).host.sources.get?
      entry.url = some (.css (t.css options.propertyPrefix options.contextClassPrefix)))
    (h : t.IsReadable options.propertyPrefix options.contextClassPrefix) (htext : t.HasText) :
    let set := ((create (Host.empty.after first) themes options).through before).setTheme entry.name
    set.result = .ok () ∧ ∀ later key context, set.resolver.Undisturbed key context later →
      let r := set.resolver.through later
      ((r.property key context).result = match Fallback.literal? t context key with
        | some literal => .ok (some literal.css)
        | none => .error (.unresolvable key context)) ∧
      ∀ n : Value.Node, n.key? = some key →
        (∀ value, (r.property key context).result = .ok (some value) ↔
          Fallback.resolveNode t context n = .ok (.word value)) ∧
        ((r.property key context).result = .error (.unresolvable key context) ↔
          Fallback.resolveNode t context n = .error (.unknownKey key context none)) := by
  intro set
  have hbefore : Sound ((create (Host.empty.after first) themes options).through before) :=
    (sound_create (Host.fresh_empty.after first) themes options).through before
  obtain ⟨hthemes, hoptions⟩ :=
    settings_through (create (Host.empty.after first) themes options) before
  have hentry' : ((create (Host.empty.after first) themes options).through before).named?
      entry.name = some entry := by
    rw [named?, hthemes]
    exact hentry
  obtain ⟨hresult, hanswers⟩ := hbefore.property_setTheme hentry' (by rw [hoptions]; exact hserved)
    (by rw [hoptions]; exact h) htext
  refine ⟨hresult, fun later key context hlater => ?_⟩
  intro r
  have hanswer := hanswers later key context hlater
  refine ⟨hanswer, fun n hn => ?_⟩
  rw [hanswer, Fallback.resolveNode, hn]
  dsimp only
  cases Fallback.literal? t context key with
  | none => simp
  | some literal => simp

/-- A theme with a value of its own in one context. -/
def darkBlue : Theme :=
  ⟨.ofList [("gap", .number (.int 4)), ("color", .text "red")],
    .ofList [("dark", .ofList [("color", .text "blue")])]⟩

theorem darkBlue_isReadable :
    darkBlue.IsReadable "makeup-" "makeup/context/" ∧ darkBlue.HasText := by
  decide +kernel

/-- What is done with a host before a resolver gets it: it serves the theme's stylesheet, and shows
one of its own that has values for a key, in a context and without one. -/
def darkBlueFirst : List Host.Action :=
  [.register "/a.css" (.css (darkBlue.css "makeup-" "makeup/context/")),
    .register "/base.css"
      (.css ".makeup\\/context\\/dark, :root \x7b --makeup-gap: 9px \x7d"),
    .insert "/base.css", .load ⟨0, "/base.css"⟩]

/-- Others attach their stylesheet a second time, load it, and take the first one off. -/
def darkBlueLater : List Step :=
  [.own (.property "gap" none), .own (.setTheme "b"), .host (.insert "/base.css"),
    .host (.load ⟨2, "/base.css"⟩), .host (.remove ⟨0, "/base.css"⟩)]

theorem property_agrees_darkBlue :
    let served := (create (Host.empty.after darkBlueFirst) [⟨"a", "/a.css"⟩] {}).through
      [.own (.property "gap" none)]
    let set := served.setTheme "a"
    let r := set.resolver.through darkBlueLater
    (served.host.sources.get? "/a.css" = some (.css (darkBlue.css "makeup-" "makeup/context/")) ∧
        darkBlue.IsReadable "makeup-" "makeup/context/" ∧ darkBlue.HasText ∧
        set.resolver.Undisturbed "color" (some "dark") darkBlueLater ∧
        set.resolver.Undisturbed "width" none darkBlueLater) ∧
      set.result = .ok () ∧
      r.host.attachedUrls = ["/a.css", "/base.css"] ∧ r.host.loaded.length = 2 ∧
      (r.property "color" (some "dark")).result = .ok (some "blue") ∧
      (r.property "width" none).result = .error (.unresolvable "width" none) := by
  intro served set r
  have hserved : served.host.sources.get? "/a.css" =
      some (.css (darkBlue.css "makeup-" "makeup/context/")) := by decide +kernel
  obtain ⟨hreadable, htext⟩ := darkBlue_isReadable
  obtain ⟨hresult, hagrees⟩ := property_agrees darkBlueFirst [⟨"a", "/a.css"⟩] {}
    [.own (.property "gap" none)] ⟨"a", "/a.css"⟩ rfl hserved hreadable htext
  obtain ⟨hdark, hroot⟩ : set.resolver.Undisturbed "color" (some "dark") darkBlueLater ∧
      set.resolver.Undisturbed "width" none darkBlueLater := by decide +kernel
  obtain ⟨hattached, hloaded⟩ : r.host.attachedUrls = ["/a.css", "/base.css"] ∧
      r.host.loaded.length = 2 := by decide +kernel
  have hcolor : Fallback.literal? darkBlue (some "dark") "color" = some (.text "blue") := by
    decide +kernel
  have hwidth : Fallback.literal? darkBlue none "width" = none := by decide +kernel
  refine ⟨⟨hserved, hreadable, htext, hdark, hroot⟩, hresult, hattached, hloaded, ?_, ?_⟩
  · rw [(hagrees darkBlueLater "color" (some "dark") hdark).1, hcolor]
    rfl
  · rw [(hagrees darkBlueLater "width" none hroot).1, hwidth]

/-- A value that others give a key in a context is shown although the theme's stylesheet comes
later: that one has no value there, and what it has for the root does not hide theirs. -/
theorem foreign_value_shown :
    let served := create (Host.empty.after darkBlueFirst) [⟨"a", "/a.css"⟩] {}
    let set := served.setTheme "a"
    darkBlue.IsReadable "makeup-" "makeup/context/" ∧ darkBlue.HasText ∧
      served.host.sources.get? "/a.css" =
        some (.css (darkBlue.css "makeup-" "makeup/context/")) ∧
      set.result.toOption = some () ∧ set.resolver.host.attachedUrls = ["/base.css", "/a.css"] ∧
      (set.resolver.property "gap" none).result.toOption = some (some "4") ∧
      (set.resolver.property "gap" (some "dark")).result.toOption = some (some "9px") ∧
      ∀ n : Value.Node, n.key? = some "gap" →
        Fallback.resolveNode darkBlue (some "dark") n = .ok (.word "4") := by
  intro served set
  obtain ⟨hreadable, htext⟩ := darkBlue_isReadable
  obtain ⟨hserved, hresult, hattached, hroot, hdark⟩ : served.host.sources.get? "/a.css" =
        some (.css (darkBlue.css "makeup-" "makeup/context/")) ∧
      set.result.toOption = some () ∧ set.resolver.host.attachedUrls = ["/base.css", "/a.css"] ∧
      (set.resolver.property "gap" none).result.toOption = some (some "4") ∧
      (set.resolver.property "gap" (some "dark")).result.toOption = some (some "9px") := by
    decide +kernel
  have hgap : Fallback.literal? darkBlue (some "dark") "gap" = some (.number (.int 4)) := by
    decide +kernel
  refine ⟨hreadable, htext, hserved, hresult, hattached, hroot, hdark, fun n hn => ?_⟩
  simp only [Fallback.resolveNode, hn, hgap]
  rfl

end Resolver

end CssTheming
