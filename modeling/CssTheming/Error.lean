import CssTheming.Document.Basic
import CssTheming.Text.Position

/-!
# Faults

Everything that compiling a stylesheet or reading a theme can refuse, by cause. `Error.message` is the one place that
words them.
-/

namespace CssTheming

/-- A place in a named source. -/
structure Location where
  file : String
  position : Text.Position
  deriving DecidableEq, Repr

def Location.text (l : Location) : String := l.file ++ ":" ++ toString l.position.line ++ ":" ++ toString l.position.column

/-- Texts that are no stylesheet. -/
inductive SheetFault where
  | unclosedBlock
  | unexpectedBrace
  | unclosedComment
  | selectorWithoutBlock (selector : String)
  | namelessAtRule
  | notADeclaration (text : String)
  | namelessDeclaration
  deriving DecidableEq, Repr

/-- Wrong uses of the config function, `@component` and `@context`. -/
inductive SourceFault where
  | invalidKey (key : String)
  | quotedKey (key : String)
  | duplicateComponent (keyword : String)
  | colonAfterKeyword (keyword : String)
  | unexpectedBlock (keyword : String)
  | argumentCount (function : String) (count : Nat)
  | invalidArgument (function argument : String)
  | outsideRule (function : String)
  deriving DecidableEq, Repr

/-- Documents that are no theme. -/
inductive ThemeFault where
  | emptyMapping
  | mixedKeys
  | nestedContextValue
  | unsupportedValue (found : Document.Kind)
  | unsupportedKey (found : Document.Kind)
  | unknownToken (token : String)
  | contextNotAllowed
  | notAMapping (found : Document.Kind)
  | missingComponents
  | duplicateSource
  deriving DecidableEq, Repr

/-- Refusals of the file system. -/
inductive FileFault where
  | notFound
  | alreadyExists
  | notADirectory
  | isADirectory
  | notText
  | other (description : String)
  deriving DecidableEq, Repr

/-- Contents of files that are not in their format. -/
inductive FormatFault where
  | json
  | yaml
  | jsonConfig
  | tomlConfig
  | configExtension
  | themeExtension (path : String)
  | noFileName (path : String)
  deriving DecidableEq, Repr

inductive Error where
  | sheet (file : String) (line : Nat) (fault : SheetFault)
  | source (location : Location) (fault : SourceFault)
  | theme (key : String) (fault : ThemeFault)
  | unknownKey (key : String) (context selector : Option String)
  | unreadable (subject : String) (reason : Option FileFault)
  | file (fault : FileFault)
  | traversal (path : String) (fault : FileFault)
  | format (fault : FormatFault)
  deriving DecidableEq, Repr

inductive Error.Category where
  | grammar | arity | placement | themeShape | resolution | malformed | file | format
  deriving DecidableEq, Repr

def SheetFault.message : SheetFault → String
  | .unclosedBlock => "Unclosed block"
  | .unexpectedBrace => "Unexpected '\x7d'"
  | .unclosedComment => "Unclosed comment"
  | .selectorWithoutBlock selector => "Expected '\x7b' after selector '" ++ selector ++ "'"
  | .namelessAtRule => "At-rule without name"
  | .notADeclaration text => "Unknown word '" ++ text ++ "', expected a declaration"
  | .namelessDeclaration => "Declaration without property"

def SourceFault.message : SourceFault → String
  | .invalidKey key => "Invalid config key: '" ++ key ++ "'"
  | .quotedKey key => "Do not put the config key in quotes: " ++ key
  | .duplicateComponent keyword => "You can only specify a '@" ++ keyword ++ "' once per container"
  | .colonAfterKeyword keyword => "Use '@" ++ keyword ++ "' without a ':'"
  | .unexpectedBlock keyword => "'@" ++ keyword ++ "' takes no block, end it with ';'"
  | .argumentCount function count =>
    "'" ++ function ++ "' accepts a single key, but " ++ toString count ++ " arguments were provided"
  | .invalidArgument function argument =>
    "The first parameter of '" ++ function ++ "' has to be a key, but you provided: " ++ argument
  | .outsideRule function => "'" ++ function ++ "' must only be used in declarations contained in rules"

def ThemeFault.message : ThemeFault → String
  | .emptyMapping => "Empty nested config objects are not allowed"
  | .mixedKeys => "Mixing contextual keys and regular keys is not allowed"
  | .nestedContextValue => "Contextual configs must be primitive values"
  | .unsupportedValue found => "Unsupported value type '" ++ found.text ++ "'"
  | .unsupportedKey found => "Unsupported value type '" ++ found.text ++ " key'"
  | .unknownToken token => "Token '" ++ token ++ "' is unknown"
  | .contextNotAllowed => "Contextual keys are not allowed here"
  | .notAMapping found => "Not a theme source: expected a mapping, found " ++ found.text
  | .missingComponents => "Not a theme source: missing 'components'"
  | .duplicateSource => "Theme source is already set by another file"

/-- The words of the operating system, with its number for the refusal. -/
def FileFault.message : FileFault → String
  | .notFound => "No such file or directory (os error 2)"
  | .alreadyExists => "File exists (os error 17)"
  | .notADirectory => "Not a directory (os error 20)"
  | .isADirectory => "Is a directory (os error 21)"
  | .notText => "stream did not contain valid UTF-8"
  | .other description => description

def FormatFault.message : FormatFault → String
  | .json => "Invalid JSON"
  | .yaml => "Invalid YAML"
  | .jsonConfig => "Invalid JSON config"
  | .tomlConfig => "Invalid TOML config"
  | .configExtension => "Config file must be .json or .toml format"
  | .themeExtension path => "Theme file '" ++ path ++ "' must be .yaml, .yml or .json"
  | .noFileName path => "'" ++ path ++ "' has no file name"

namespace Error

def unknownKeyMessage (key : String) (context selector : Option String) : String :=
  let place := match context with
    | some context => " in context '" ++ context ++ "'"
    | none => ""
  let rule := match selector with
    | some selector => " (in '" ++ selector ++ "')"
    | none => ""
  "Unknown key '" ++ key ++ "'" ++ place ++ rule

/-- What went wrong with the file system, told without the kind of the error. -/
def traversalMessage (path : String) (fault : FileFault) : String :=
  "Directory traversal error: IO error for operation on " ++ path ++ ": " ++ fault.message

def message : Error → String
  | .sheet path line fault => "Parse error in " ++ path ++ " at line " ++ toString line ++ ": " ++ fault.message
  | .source location fault => location.text ++ ": " ++ fault.message
  | .theme key fault => "'" ++ key ++ "': " ++ fault.message
  | .unknownKey key context selector => unknownKeyMessage key context selector
  | .unreadable subject none => "File not found: " ++ subject
  | .unreadable subject (some reason) => "File not found: " ++ subject ++ ": " ++ reason.message
  | .file fault => "IO error: " ++ fault.message
  | .traversal path fault => "IO error: " ++ traversalMessage path fault
  | .format fault => "Invalid format: " ++ fault.message

def category : Error → Category
  | .sheet .. => .malformed
  | .source _ fault =>
    match fault with
    | .argumentCount .. | .invalidArgument .. => .arity
    | .outsideRule _ => .placement
    | _ => .grammar
  | .theme .. => .themeShape
  | .unknownKey .. => .resolution
  | .unreadable .. | .file _ | .traversal .. => .file
  | .format _ => .format

/-- Names the rule that was being generated when a key turned out to be unknown. -/
def inSelector (selector : String) : Error → Error
  | .unknownKey key context _ => .unknownKey key context (some selector)
  | error => error

end Error

end CssTheming
