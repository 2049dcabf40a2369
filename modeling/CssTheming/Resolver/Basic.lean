import CssTheming.ContextClass
import CssTheming.Resolver.Host
import CssTheming.Resolver.Listeners

/-!
# Resolvers

A resolver keeps the stylesheet of one theme attached to a host and answers what keys stand for in it. It is ready while
a theme is active and no other is loading. Computed styles are kept until a change of theme begins. Operations answer
their result together with what an observer saw meanwhile.
-/

namespace CssTheming

/-- A theme by name and the address of its stylesheet. -/
structure Resolver.Entry where
  name : String
  url : String
  deriving DecidableEq, Repr

structure Resolver.Change where
  theme : String
  previous : Option String
  deriving DecidableEq, Repr

inductive Resolver.Fault where
  | unknownTheme (name : String) (known : List String)
  | load (theme url message : String)
  | unresolvable (key : String) (context : Option String)
  deriving DecidableEq, Repr

structure Resolver where
  host : Host
  options : Options
  themes : List Resolver.Entry
  active : Option (String × Host.Handle)
  /-- Styles computed since the last change, by context. -/
  cache : List (Option String × Table String)
  ready : Bool
  listeners : Listeners

/-- The change that a listener is told of, with the resolver as it stands meanwhile. -/
structure Resolver.Notice extends Resolver.Change where
  during : Resolver

/-- What an observer of a resolver and its host sees. -/
inductive Resolver.Event where
  /-- The load of a stylesheet is awaited while those at these addresses are attached. -/
  | awaited (attached : List String)
  /-- The style of the root, or of an element with a class, is computed. -/
  | styled (name : Option String)
  | notified (subscription : Nat) (notice : Resolver.Notice)

/-- The resolver after an operation, what was seen meanwhile and the result. -/
structure Resolver.Outcome (α : Type) where
  resolver : Resolver
  events : List Resolver.Event
  result : α

namespace Resolver

def Fault.message : Fault → String
  | .unknownTheme name known =>
    "Unknown theme '" ++ name ++ "', known themes are: " ++ ", ".intercalate known
  | .load theme url message =>
    "Failed to load stylesheet '" ++ url ++ "' for theme '" ++ theme ++ "': " ++ message
  | .unresolvable key context =>
    "Could not resolve context/key '" ++ key ++ "'" ++
      match context with
      | some context => " in context '" ++ context ++ "'"
      | none => ""

def create (host : Host) (themes : List Entry) (options : Options) : Resolver :=
  ⟨host, options, themes, none, [], false, .empty⟩

def currentTheme (r : Resolver) : Option String := r.active.map (·.1)

/-! ## Changing the theme -/

/-- How the load of a stylesheet goes on: it ends, well or badly, or nobody waits for its end. -/
inductive Loading where
  | ends
  | isAbandoned
  deriving DecidableEq, Repr

/-- The resolver while a change is under way: not ready, nothing kept, the new stylesheet attached. -/
def begin (r : Resolver) (url : String) : Resolver :=
  { r with ready := false, cache := [], host := r.host.insert url }

/-- Takes a stylesheet that did not load off again; the resolver is ready if a theme is active. -/
def withdraw (r : Resolver) (handle : Host.Handle) : Resolver :=
  { r with host := r.host.remove handle, ready := r.active.isSome }

/-- Makes a loaded stylesheet the active one and takes the previous one off. -/
def commit (r : Resolver) (name : String) (handle : Host.Handle) (host : Host) : Resolver :=
  { r with
    host := match r.active with
      | some (_, previous) => host.remove previous
      | none => host
    active := some (name, handle), cache := [], ready := true }

/-- Everyone is told of a change, in turn and by the resolver as it stands. -/
def notifications (r : Resolver) (change : Change) : List Event :=
  (r.listeners.deliver ⟨change, r⟩).map fun (id, notice) => .notified id notice

/-- Changes to a theme whose stylesheet loads as told. -/
def change (r : Resolver) (name : String) (loading : Loading) : Outcome (Except Fault Unit) :=
  match r.themes.find? fun e => e.name = name with
  | none => ⟨r, [], .error (.unknownTheme name (r.themes.map (·.name)))⟩
  | some entry =>
    let handle := r.host.nextHandle entry.url
    let pending := r.begin entry.url
    let awaited := Event.awaited pending.host.attachedUrls
    match loading with
    | .isAbandoned => ⟨pending.withdraw handle, [awaited], .ok ()⟩
    | .ends =>
      match pending.host.load handle with
      | .error message => ⟨pending.withdraw handle, [awaited], .error (.load entry.name entry.url message)⟩
      | .ok host =>
        let changed := pending.commit entry.name handle host
        ⟨changed, awaited :: changed.notifications ⟨entry.name, r.currentTheme⟩, .ok ()⟩

/-- Changes the theme; if its stylesheet does not load the active theme stays. -/
def setTheme (r : Resolver) (name : String) : Outcome (Except Fault Unit) := r.change name .ends

/-- Begins to change the theme and gives up while the stylesheet loads. -/
def abandonTheme (r : Resolver) (name : String) : Outcome (Except Fault Unit) := r.change name .isAbandoned

/-! ## Looking keys up -/

/-- The class of the element whose style shows a context; the root shows what holds without one. -/
def probeClass (r : Resolver) (context : Option String) : Option String :=
  context.map (ContextClass.name r.options.contextClassPrefix)

/-- The style of a context, computed unless it is kept. -/
def styleOf (r : Resolver) (context : Option String) : Outcome (Table String) :=
  match r.cache.lookup context with
  | some style => ⟨r, [], style⟩
  | none =>
    let style := r.host.style (r.probeClass context)
    ⟨{ r with cache := (context, style) :: r.cache }, [.styled (r.probeClass context)], style⟩

/-- The value of a key in a style, unless it is blank. -/
def valueIn (r : Resolver) (style : Table String) (key : String) : Option String :=
  ((style.get? ("--" ++ r.options.propertyPrefix ++ key)).map fun value =>
    String.ofList (Text.trim value.toList)).filter (· ≠ "")

/-- The value of a key in a context; none while the resolver is not ready. -/
def property (r : Resolver) (key : String) (context : Option String) : Outcome (Except Fault (Option String)) :=
  if r.ready then
    let ⟨r, events, style⟩ := r.styleOf context
    match r.valueIn style key with
    | some value => ⟨r, events, .ok (some value)⟩
    | none => ⟨r, events, .error (.unresolvable key context)⟩
  else ⟨r, [], .ok none⟩

/-- The class of the context that a key names. -/
def contextClass (r : Resolver) (key : String) (context : Option String) : Outcome (Except Fault (Option String)) :=
  let ⟨r', events, result⟩ := r.property key context
  ⟨r', events, result.map fun value => value.map (ContextClass.name r.options.contextClassPrefix)⟩

/-- Whether a list of classes changes with the theme. -/
def hasContexts (r : Resolver) (classes : String) : Bool := Text.contains classes r.options.contextClassPrefix

/-- Splits at every single space. -/
def splitSpaces : List Char → List (List Char)
  | [] => [[]]
  | c :: cs =>
    if c = ' ' then [] :: splitSpaces cs
    else
      match splitSpaces cs with
      | [] => [[c]]
      | w :: ws => (c :: w) :: ws

/-- Resolves the classes that begin as context classes do, up to the first that cannot be resolved. -/
def resolveClasses (r : Resolver) : List String → Outcome (Except Fault (Option (List String)))
  | [] => ⟨r, [], .ok (some [])⟩
  | name :: rest =>
    match Text.stripStart? r.options.contextClassPrefix name with
    | none =>
      let ⟨r', events, result⟩ := r.resolveClasses rest
      ⟨r', events, result.map fun names => names.map (name :: ·)⟩
    | some key =>
      let ⟨r₁, events₁, result₁⟩ := r.contextClass key none
      match result₁ with
      | .error fault => ⟨r₁, events₁, .error fault⟩
      | .ok none => ⟨r₁, events₁, .ok none⟩
      | .ok (some resolved) =>
        let ⟨r₂, events₂, result₂⟩ := r₁.resolveClasses rest
        ⟨r₂, events₁ ++ events₂, result₂.map fun names => names.map (resolved :: ·)⟩

/-- A list of classes with those resolved that stand for contexts. -/
def classNames (r : Resolver) (classes : String) : Outcome (Except Fault (Option String)) :=
  if r.hasContexts classes then
    let ⟨r', events, result⟩ := r.resolveClasses ((splitSpaces classes.toList).map String.ofList)
    ⟨r', events, result.map fun names => names.map (" ".intercalate ·)⟩
  else ⟨r, [], .ok (some classes)⟩

/-! ## Everything else -/

def subscribe (r : Resolver) : Resolver := { r with listeners := r.listeners.subscribe }

def unsubscribe (r : Resolver) (id : Nat) : Resolver := { r with listeners := r.listeners.unsubscribe id }

def register (r : Resolver) (url : String) (source : Host.Source) : Resolver :=
  { r with host := r.host.register url source }

end Resolver

end CssTheming
