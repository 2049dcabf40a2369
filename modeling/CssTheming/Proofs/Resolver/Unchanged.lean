import CssTheming.Proofs.Resolver.Forgetting
import CssTheming.Proofs.Resolver.Skipping

/-!
# Changes of theme that do not come about

A change to an unknown theme, one whose stylesheet does not load and one that is given up leave
everything as it was, except that the host has used a number and that no styles are kept. The number
does not show: a resolver whose numbers skip one goes through every further run as the one whose
numbers do not. That no styles are kept shows only where others have changed what the host shows and
a lookup would still have been answered from before.
-/

namespace CssTheming.Resolver

variable {r : Resolver} {n : Nat}

/-! ## Resolvers whose numbers skip one -/

/-- A resolver whose host has left out a number. -/
def skipping (n : Nat) (r : Resolver) : Resolver :=
  { r with
    host := r.host.skipping n
    active := r.active.map fun a => (a.1, a.2.skipping n) }

def Outcome.skipping {α : Type} (n : Nat) (o : Outcome α) : Outcome α :=
  { o with resolver := o.resolver.skipping n }

theorem hostWith_skipping (hn : n ≤ r.host.nextId) (url : String) (p : CustomProperties) :
    (r.skipping n).hostWith url p = (r.hostWith url p).skipping n := by
  have hnext := skip_of_le (Nat.le_succ_of_le hn)
  simp only [hostWith, skipping, Host.skipping, skip_of_le hn, hnext, List.map_append,
    List.map_cons, List.map_nil, Host.Attached.skipping]

theorem withdraw_skipping (hf : r.host.Fresh) (hn : n ≤ r.host.nextId) (url : String) :
    ((r.skipping n).begin url).withdraw ((r.skipping n).host.nextHandle url) =
      ((r.begin url).withdraw (r.host.nextHandle url)).skipping n := by
  have hf' : (r.skipping n).host.Fresh := hf.skipping n
  have hnext := Host.next_skipping hn
  rw [withdraw_begin hf, withdraw_begin hf']
  simp only [skipping, Option.isSome_map, hnext]

theorem commit_skipping (hn : n ≤ r.host.nextId) (name url : String) (p : CustomProperties) :
    ((r.skipping n).begin url).commit name ((r.skipping n).host.nextHandle url)
        ((r.skipping n).hostWith url p) =
      ((r.begin url).commit name (r.host.nextHandle url) (r.hostWith url p)).skipping n := by
  rw [hostWith_skipping hn]
  unfold commit begin skipping
  cases r.active with
  | none => rfl
  | some a =>
    dsimp only [Option.map_some]
    rw [Host.remove_skipping]
    rfl

theorem setTheme_skipping (hf : r.host.Fresh) (hn : n ≤ r.host.nextId) (name : String) :
    ((r.skipping n).setTheme name).resolver = (r.setTheme name).resolver.skipping n := by
  have hentry' : (r.skipping n).named? name = r.named? name := rfl
  cases hentry : r.named? name with
  | none =>
    have hc : r.setTheme name = _ := change_of_unknown hentry .ends
    have hc' : (r.skipping n).setTheme name = _ :=
      change_of_unknown (hentry'.trans hentry) .ends
    rw [hc, hc']
  | some entry =>
    have hfetch : (r.skipping n).host.fetch entry.url = r.host.fetch entry.url := rfl
    rw [setTheme_of_entry hf hentry, setTheme_of_entry (hf.skipping n) (hentry'.trans hentry),
      hfetch]
    cases r.host.fetch entry.url with
    | error message => exact withdraw_skipping hf hn entry.url
    | ok p => exact commit_skipping hn entry.name entry.url p

theorem abandonTheme_skipping (hf : r.host.Fresh) (hn : n ≤ r.host.nextId) (name : String) :
    ((r.skipping n).abandonTheme name).resolver =
      (r.abandonTheme name).resolver.skipping n := by
  have hentry' : (r.skipping n).named? name = r.named? name := rfl
  cases hentry : r.named? name with
  | none =>
    have hc : r.abandonTheme name = _ := change_of_unknown hentry .isAbandoned
    have hc' : (r.skipping n).abandonTheme name = _ :=
      change_of_unknown (hentry'.trans hentry) .isAbandoned
    rw [hc, hc']
  | some entry =>
    rw [abandonTheme_of_entry hentry, abandonTheme_of_entry (hentry'.trans hentry)]
    exact withdraw_skipping hf hn entry.url

theorem styleOf_skipping (context : Option String) :
    (r.skipping n).styleOf context = (r.styleOf context).skipping n := by
  have hstyle : (r.skipping n).host.style ((r.skipping n).probeClass context) =
      r.host.style (r.probeClass context) :=
    Host.style_skipping _
  unfold styleOf
  rw [hstyle]
  have hcache : (r.skipping n).cache = r.cache := rfl
  rw [hcache]
  cases r.cache.lookup context <;> rfl

theorem property_skipping (key : String) (context : Option String) :
    (r.skipping n).property key context = (r.property key context).skipping n := by
  have hready : (r.skipping n).ready = r.ready := rfl
  unfold property
  rw [hready, styleOf_skipping]
  split
  · have hvalue : ((r.styleOf context).skipping n).resolver.valueIn
        ((r.styleOf context).skipping n).result key =
          (r.styleOf context).resolver.valueIn (r.styleOf context).result key :=
      rfl
    dsimp only
    rw [hvalue]
    cases (r.styleOf context).resolver.valueIn (r.styleOf context).result key <;> rfl
  · rfl

theorem contextClass_skipping (key : String) (context : Option String) :
    (r.skipping n).contextClass key context = (r.contextClass key context).skipping n := by
  unfold contextClass
  rw [property_skipping]
  rfl

theorem resolveClasses_skipping (names : List String) :
    (r.skipping n).resolveClasses names = (r.resolveClasses names).skipping n := by
  induction names generalizing r with
  | nil => rfl
  | cons name rest ih =>
    have hoptions : (r.skipping n).options = r.options := rfl
    rw [resolveClasses, resolveClasses, hoptions]
    cases Text.stripStart? r.options.contextClassPrefix name with
    | none =>
      dsimp only
      rw [ih]
      rfl
    | some key =>
      have hrest := ih (r := (r.contextClass key none).resolver)
      dsimp only
      rw [contextClass_skipping]
      dsimp only [Outcome.skipping]
      rw [hrest]
      rcases (r.contextClass key none).result with _ | _ | _ <;> rfl

theorem classNames_skipping (classes : String) :
    (r.skipping n).classNames classes = (r.classNames classes).skipping n := by
  have hcontexts : (r.skipping n).hasContexts classes = r.hasContexts classes := rfl
  unfold classNames
  rw [hcontexts, resolveClasses_skipping]
  split <;> rfl

/-! ## Runs -/

/-- The step by other handles. -/
def Step.rename (f : Host.Handle → Host.Handle) : Step → Step
  | .own a => .own a
  | .host a => .host (a.rename f)

theorem Step.rename_of_leavesSheets {s : Step} (hs : s.LeavesSheets)
    (f : Host.Handle → Host.Handle) : s.rename f = s := by
  cases s with
  | own a => rfl
  | host a =>
    cases a with
    | register url source => rfl
    | _ => exact absurd hs id

theorem Step.rename_id (s : Step) : s.rename (fun handle => handle) = s := by
  cases s with
  | own a => rfl
  | host a => cases a <;> rfl

theorem perform_skipping (hf : r.host.Fresh) (hn : n ≤ r.host.nextId) (a : Action) :
    (r.skipping n).perform a = (r.perform a).skipping n := by
  cases a with
  | setTheme name => exact setTheme_skipping hf hn name
  | abandonTheme name => exact abandonTheme_skipping hf hn name
  | property key context => exact congrArg Outcome.resolver (property_skipping key context)
  | contextClass key context =>
    exact congrArg Outcome.resolver (contextClass_skipping key context)
  | classNames classes => exact congrArg Outcome.resolver (classNames_skipping classes)
  | subscribe => rfl
  | unsubscribe id => rfl
  | register url source => rfl

theorem step_skipping (hf : r.host.Fresh) (hn : n ≤ r.host.nextId) (s : Step) :
    (r.skipping n).step (s.rename (Host.Handle.skipping n)) = (r.step s).skipping n := by
  cases s with
  | own a => exact perform_skipping hf hn a
  | host a =>
    have hhost := Host.perform_skipping hn a
    simp only [Step.rename, step, skipping, hhost]

/-- A resolver goes through a run alike whether or not its numbers skip one. -/
theorem through_skipping (h : Sound r) (hn : n ≤ r.host.nextId) (steps : List Step) :
    (r.skipping n).through (steps.map (Step.rename (Host.Handle.skipping n))) =
      (r.through steps).skipping n := by
  induction steps generalizing r with
  | nil => rfl
  | cons s steps ih =>
    rw [List.map_cons, through_cons, step_skipping h.fresh hn, through_cons]
    exact ih (h.step s) (Nat.le_trans hn (nextId_le_step h.fresh s))

theorem answer?_skipping (lookup : Action) :
    (r.skipping n).answer? lookup = r.answer? lookup := by
  cases lookup with
  | property key context =>
    exact congrArg (fun o => some o.result) (property_skipping key context)
  | contextClass key context =>
    exact congrArg (fun o => some o.result) (contextClass_skipping key context)
  | classNames classes => exact congrArg (fun o => some o.result) (classNames_skipping classes)
  | setTheme name => rfl
  | abandonTheme name => rfl
  | subscribe => rfl
  | unsubscribe id => rfl
  | register url source => rfl

theorem KeepsStyle.skipping {context : Option String} (h : r.KeepsStyle context) (n : Nat) :
    (r.skipping n).KeepsStyle context := by
  intro style hstyle
  rw [h style hstyle]
  exact (Host.style_skipping _).symm

theorem Current.skipping (h : Sound r) (hn : n ≤ r.host.nextId) {steps : List Step}
    (hc : r.Current steps) :
    (r.skipping n).Current (steps.map (Step.rename (Host.Handle.skipping n))) := by
  induction steps generalizing r with
  | nil => trivial
  | cons s steps ih =>
    have hcontext : (s.rename (Host.Handle.skipping n)).context? = s.context? := by
      cases s <;> rfl
    refine ⟨?_, ?_⟩
    · rw [hcontext]
      exact fun context hs => (hc.1 context hs).skipping n
    · rw [step_skipping h.fresh hn]
      exact ih (h.step s) (Nat.le_trans hn (nextId_le_step h.fresh s)) hc.2

/-! ## The attempt -/

/-- A change of theme that does not come about: the theme is unknown, its stylesheet does not load,
or nobody waits for that. -/
def IsAttempt (r : Resolver) : Action → Prop
  | .setTheme name => ∃ fault, (r.setTheme name).result = .error fault
  | .abandonTheme _ => True
  | _ => False

/-- Leaving the next number out touches nothing that is there. -/
theorem Sound.skipping_nextId (h : Sound r) :
    r.skipping r.host.nextId = { r with host := { r.host with nextId := r.host.nextId + 1 } } := by
  have hactive : r.active.map (fun a => (a.1, a.2.skipping r.host.nextId)) = r.active := by
    cases hr : r.active with
    | none => rfl
    | some a => rw [Option.map_some, Host.Handle.skipping, skip_of_lt (h.active a hr)]
  rw [skipping, hactive, h.fresh.skipping_nextId]

/-- Once a stylesheet has been taken off again, its number is left out and no styles are kept. -/
theorem Sound.withdraw_eq (h : Sound r) (url : String) :
    (r.begin url).withdraw (r.host.nextHandle url) = (r.skipping r.host.nextId).emptied := by
  rw [withdraw_begin h.fresh, h.skipping_nextId, emptied, ← h.ready]

/-- An attempt does nothing, or it leaves a number out and the kept styles behind. -/
theorem Sound.attempt (h : Sound r) {a : Action} (ha : r.IsAttempt a) :
    (r.seen a).filterMap Event.notified? = [] ∧
      (r.perform a = r ∨ r.perform a = (r.skipping r.host.nextId).emptied) := by
  cases a with
  | setTheme name =>
    obtain ⟨fault, hfault⟩ := ha
    rw [seen, Resolver.perform]
    rcases setTheme_cases h.fresh name with
      ⟨-, hc⟩ | ⟨entry, -, ⟨message, -, hc⟩ | ⟨p, -, hc⟩⟩ <;> rw [hc] at hfault ⊢
    · exact ⟨rfl, .inl rfl⟩
    · exact ⟨rfl, .inr (h.withdraw_eq entry.url)⟩
    · cases hfault
  | abandonTheme name =>
    rw [seen, Resolver.perform]
    rcases abandonTheme_cases name with ⟨-, hc⟩ | ⟨entry, -, hc⟩ <;> rw [hc]
    · exact ⟨rfl, .inl rfl⟩
    · exact ⟨rfl, .inr (h.withdraw_eq entry.url)⟩
  | _ => exact absurd ha id

/-- The second resolver goes on as the first one by other handles. Handles that were given out
before are the same, and each handle that the host gives out later is the other name of the one that
it would have given out. -/
structure GoesOn (r r' : Resolver) (f : Host.Handle → Host.Handle) : Prop where
  given : ∀ handle : Host.Handle, handle.id < r.host.nextId → f handle = handle
  returned : ∀ (later : List Step) (url : String),
    (r'.through (later.map (Step.rename f))).host.nextHandle url =
      f ((r.through later).host.nextHandle url)
  answers : ∀ (later : List Step) (lookup : Action), r.Current (later ++ [.own lookup]) →
    (r'.through (later.map (Step.rename f))).answer? lookup = (r.through later).answer? lookup

theorem goesOn_refl (r : Resolver) : GoesOn r r fun handle => handle where
  given := fun _ _ => rfl
  returned := by
    intro later url
    rw [List.map_congr_left fun s _ => s.rename_id, List.map_id']
  answers := by
    intro later lookup _
    rw [List.map_congr_left fun s _ => s.rename_id, List.map_id']

theorem Sound.goesOn_emptied (h : Sound r) :
    GoesOn r (r.skipping r.host.nextId).emptied (Host.Handle.skipping r.host.nextId) where
  given := by
    intro handle hlt
    rw [Host.Handle.skipping, skip_of_lt hlt]
  returned := by
    intro later url
    have hsame := (sameButCache_emptied (r := r.skipping r.host.nextId)).through
      (later.map (Step.rename (Host.Handle.skipping r.host.nextId)))
    rw [through_skipping h (Nat.le_refl _), SameButCache] at hsame
    rw [hsame]
    rfl
  answers := by
    intro later lookup hc
    have hcurrent := hc.skipping h (Nat.le_refl _)
    rw [List.map_append] at hcurrent
    rw [(forgets_emptied _).answer?_through hcurrent, through_skipping h (Nat.le_refl _),
      answer?_skipping]

/-- In every state that a run leads to, whatever others do with the host, a change of theme that
does not come about leaves the active theme, the readiness, what is attached and who is subscribed
as they were and tells nobody of a change. However the run goes on, every lookup answers as it would
have done without the attempt, unless a lookup there would meet a style that the host does not show
any more. Where others leave the attached stylesheets alone none does. -/
theorem unchanged_of_isAttempt (before : List Host.Action) (themes : List Entry) (options : Options)
    (steps : List Step) (attempt : Action)
    (hattempt : ((create (Host.empty.after before) themes options).through steps).IsAttempt
      attempt) :
    let r := (create (Host.empty.after before) themes options).through steps
    let r' := r.perform attempt
    (r'.active = r.active ∧ r'.ready = r.ready ∧ r'.host.attached = r.host.attached ∧
      r'.listeners = r.listeners ∧ (r.seen attempt).filterMap Event.notified? = []) ∧
    (∃ f, GoesOn r r' f) ∧
    ∀ later lookup, (∀ s ∈ steps ++ later, s.LeavesSheets) →
      (r'.through later).answer? lookup = (r.through later).answer? lookup := by
  intro r r'
  have hstart : Consistent (create (Host.empty.after before) themes options) :=
    consistent_create (Host.fresh_empty.after before) themes options
  have hr : Sound r := hstart.toSound.through steps
  obtain ⟨hquiet, hperform⟩ := hr.attempt hattempt
  have hcases : r' = r ∨ r' = (r.skipping r.host.nextId).emptied := hperform
  have hgoesOn : ∃ f, GoesOn r r' f := by
    rcases hcases with hr' | hr' <;> rw [hr']
    · exact ⟨_, goesOn_refl r⟩
    · exact ⟨_, hr.goesOn_emptied⟩
  refine ⟨?_, hgoesOn, fun later lookup hleaves => ?_⟩
  · rcases hcases with hr' | hr' <;> rw [hr']
    · exact ⟨rfl, rfl, rfl, rfl, hquiet⟩
    · rw [hr.skipping_nextId]
      exact ⟨rfl, rfl, rfl, rfl, hquiet⟩
  · obtain ⟨f, hf⟩ := hgoesOn
    obtain ⟨hsteps, hlater⟩ := List.forall_mem_append.1 hleaves
    have hcurrent : r.Current (later ++ [.own lookup]) := by
      apply (hstart.through hsteps).current
      exact List.forall_mem_append.2 ⟨hlater, List.forall_mem_singleton.2 trivial⟩
    have hrename : later.map (Step.rename f) = later := by
      rw [List.map_congr_left fun s hs => Step.rename_of_leavesSheets (hlater s hs) f, List.map_id']
    have hanswer := hf.answers later lookup hcurrent
    rwa [hrename] at hanswer

/-- What is done with a host before a resolver gets it: it serves one theme, fails for another and
has a stylesheet of its own. -/
def baseFirst : List Host.Action :=
  [.register "/light.css" (.css ":root \x7b --makeup-gap: 4px; \x7d"),
    .register "/dark.css" (.failing "404"), .insert "/base.css"]

def lightAndDark : List Entry := [⟨"light", "/light.css"⟩, ⟨"dark", "/dark.css"⟩]

/-- A theme is active, and behind its stylesheet others have attached one of theirs. -/
def lightCovered : List Step :=
  [.own (.setTheme "light"), .host (.insert "/extra.css"),
    .host (.register "/extra.css" (.css ":root \x7b --makeup-gap: 9px; \x7d"))]

theorem unchanged_of_isAttempt_dark :
    let r := (create (Host.empty.after baseFirst) lightAndDark {}).through lightCovered
    r.IsAttempt (.setTheme "dark") ∧
      (r.perform (.setTheme "dark")).ready = true ∧
      (r.perform (.setTheme "dark")).host.attachedUrls =
        ["/base.css", "/light.css", "/extra.css"] ∧
      (((r.perform (.setTheme "dark")).through [.own (.setTheme "sepia")]).answer?
        (.property "gap" none)).map Except.toOption = some (some (some "4px")) := by
  intro r
  have hattempt : r.IsAttempt (.setTheme "dark") := by
    have hfails : (r.setTheme "dark").result.toOption = none := by decide +kernel
    cases h : (r.setTheme "dark").result with
    | error fault => exact ⟨fault, h⟩
    | ok u =>
      rw [h] at hfails
      cases hfails
  obtain ⟨⟨-, hready, hattached, -⟩, ⟨f, hf⟩, -⟩ :=
    unchanged_of_isAttempt baseFirst lightAndDark {} lightCovered (.setTheme "dark") hattempt
  have hcurrent : r.Current ([.own (.setTheme "sepia")] ++ [.own (.property "gap" none)]) := by
    decide +kernel
  have hanswer : ((r.perform (.setTheme "dark")).through [.own (.setTheme "sepia")]).answer?
      (.property "gap" none) = _ :=
    hf.answers [.own (.setTheme "sepia")] (.property "gap" none) hcurrent
  refine ⟨hattempt, hready.trans ?_, ?_, ?_⟩
  · decide +kernel
  · rw [Host.attachedUrls, hattached]
    decide +kernel
  · rw [hanswer]
    decide +kernel

/-- A key is looked up, and then others load their stylesheet. -/
def lightOutdated : List Step :=
  lightCovered ++ [.own (.property "gap" none), .host (.load ⟨2, "/extra.css"⟩)]

/-- A lookup that would have met a style that the host does not show any more answers otherwise
after an attempt. -/
theorem outdated_answer_of_isAttempt :
    let r := (create (Host.empty.after baseFirst) lightAndDark {}).through lightOutdated
    (r.setTheme "dark").result.toOption = none ∧
      (r.property "gap" none).result.toOption = some (some "4px") ∧
      ((r.perform (.setTheme "dark")).property "gap" none).result.toOption =
        some (some "9px") := by
  decide +kernel

end CssTheming.Resolver
