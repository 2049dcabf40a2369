import CssTheming.Json.Decode
import CssTheming.Json.Parser
import CssTheming.Options
import CssTheming.Storage.Basic
import CssTheming.Toml.Parser

/-!
# Config files

Settings that hold for all commands of a project, in JSON or TOML. Everything may be left out.
-/

namespace CssTheming

structure Config where
  propertyPrefix : Option String := none
  contextClassPrefix : Option String := none
  configKeyword : Option String := none
  componentKeyword : Option String := none
  contextKeyword : Option String := none
  debug : Option Bool := none
  outputDirectory : Option String := none
  deriving DecidableEq, Repr, Inhabited

namespace Config

def fieldNames : List String :=
  ["custom_property_prefix", "context_class_name_prefix", "config_keyword", "component_keyword", "context_keyword",
    "debug_mode", "output_directory"]

def ofJson? (j : Json) : Option Config := do
  match ← Json.fields? fieldNames j with
  | [property, contextClass, config, component, context, debug, output] =>
    return ⟨← Json.optional? Json.string? property, ← Json.optional? Json.string? contextClass,
      ← Json.optional? Json.string? config, ← Json.optional? Json.string? component,
      ← Json.optional? Json.string? context, ← Json.optional? Json.bool? debug, ← Json.optional? Json.string? output⟩
  | _ => none

/-- The text at a key, which may be missing: `none` if something else is there. -/
def textAt? (entries : Toml.Entries) (key : String) : Option (Option String) :=
  match entries.lookup key with
  | none => some none
  | some (.string text) => some (some text)
  | some _ => none

def boolAt? (entries : Toml.Entries) (key : String) : Option (Option Bool) :=
  match entries.lookup key with
  | none => some none
  | some (.bool value) => some (some value)
  | some _ => none

def ofToml? (entries : Toml.Entries) : Option Config := do
  return ⟨← textAt? entries "custom_property_prefix", ← textAt? entries "context_class_name_prefix",
    ← textAt? entries "config_keyword", ← textAt? entries "component_keyword", ← textAt? entries "context_keyword",
    ← boolAt? entries "debug_mode", ← textAt? entries "output_directory"⟩

/-- The settings that a text writes in the format that the end of the path names. -/
def parse (path text : String) : Except Error Config :=
  if Text.endsWith path ".json" then
    match (Json.parse? text).bind ofJson? with
    | some config => .ok config
    | none => .error (.format .jsonConfig)
  else if Text.endsWith path ".toml" then
    match (Toml.parse? text).bind ofToml? with
    | some config => .ok config
    | none => .error (.format .tomlConfig)
  else .error (.format .configExtension)

def load {m : Type → Type} [Monad m] [Storage m] (path : String) : ExceptT Error m Config := do
  let text ← Storage.orError (fun fault => .unreadable ("Config file " ++ path) (some fault)) (Storage.read path)
  parse path text

/-- The options of a command: what its arguments say comes before what is configured. -/
def options (c : Config) (propertyPrefix contextClassPrefix : Option String) (debug : Bool) : Options :=
  let d : Options := {}
  { propertyPrefix := (propertyPrefix.or c.propertyPrefix).getD d.propertyPrefix
    contextClassPrefix := (contextClassPrefix.or c.contextClassPrefix).getD d.contextClassPrefix
    configKeyword := c.configKeyword.getD d.configKeyword
    componentKeyword := c.componentKeyword.getD d.componentKeyword
    contextKeyword := c.contextKeyword.getD d.contextKeyword
    debug := debug || c.debug.getD d.debug }

end Config

end CssTheming
