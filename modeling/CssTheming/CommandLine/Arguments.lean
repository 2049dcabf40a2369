/-!
# Command line arguments

Switches that hold for all commands may stand in front of the command or among its own arguments, where they count
more. Two hyphens end the switches.
-/

namespace CssTheming.CommandLine

inductive Command where
  | compile (input : String) (output : Option String) (stats : Bool)
  | theme (input : String) (output json : Option String)
  | compat (theme : String) (inputs : List String) (output : Option String)
  | schema (input : String) (output : Option String)
  deriving DecidableEq, Repr

/-- What is asked for in front of a command, and the command. -/
structure Invocation where
  config : Option String
  propertyPrefix : Option String
  contextClassPrefix : Option String
  debug : Bool
  command : Option Command
  deriving DecidableEq, Repr

inductive Request where
  | run (invocation : Invocation)
  | version
  | help
  | misuse
  deriving DecidableEq, Repr

/-! ## Switches -/

/-- What a switch takes: nothing, once or any number of times, or a text. -/
inductive Arity where
  | flag | counted | text
  deriving DecidableEq, Repr

structure Switch where
  name : String
  letter : Option Char
  arity : Arity
  deriving DecidableEq, Repr

def globalSwitches : List Switch :=
  [⟨"prefix", none, .text⟩, ⟨"context-prefix", none, .text⟩, ⟨"debug", some 'd', .flag⟩]

def outputSwitch : Switch := ⟨"output", some 'o', .text⟩

/-- How many arguments that are no switches are taken. -/
inductive Operands where
  | none | one | many
  deriving DecidableEq, Repr

/-- What may stand in front of a command, or among the arguments of one. -/
structure Level where
  switches : List Switch
  operands : Operands
  /-- Whether there are commands to go on with, and a version to ask for. -/
  top : Bool
  deriving DecidableEq, Repr

def topLevel : Level := ⟨[⟨"config", some 'c', .text⟩, ⟨"verbose", some 'v', .counted⟩] ++ globalSwitches, .none, true⟩

def commandLevels : List (String × Level) :=
  [("compile", ⟨[outputSwitch, ⟨"stats", none, .flag⟩] ++ globalSwitches, .one, false⟩),
    ("theme", ⟨[outputSwitch, ⟨"json", none, .text⟩] ++ globalSwitches, .one, false⟩),
    ("compat", ⟨[⟨"theme", some 't', .text⟩, outputSwitch] ++ globalSwitches, .many, false⟩),
    ("schema", ⟨[outputSwitch] ++ globalSwitches, .one, false⟩)]

/-! ## Reading a level -/

/-- The arguments read so far: switches with the texts they took, and operands. -/
structure Found where
  switches : List (String × String)
  operands : List String
  deriving DecidableEq, Repr

/-- Why reading a level ends: with its arguments, at a command, or for another reason than a command. -/
inductive Ending where
  | done (found : Found)
  | command (found : Found) (name : String) (rest : List String)
  | version
  | help
  | misuse
  deriving DecidableEq, Repr

/-- Notes a switch. Only counted ones can be given more than once. -/
def note (s : Switch) (value : String) (found : Found) : Option Found :=
  if s.arity ≠ .counted && found.switches.any (·.1 = s.name) then none
  else some { found with switches := found.switches ++ [(s.name, value)] }

/-- Whether an argument is no text for the switch in front of it. -/
def isSwitchLike (argument : String) : Bool :=
  match argument.toList with
  | '-' :: _ :: _ => true
  | _ => false

/-- What an argument does to those that were read: it goes on, needs a text, or ends the level. -/
inductive Effect where
  | next (found : Found)
  | wants (s : Switch) (found : Found)
  | stop (ending : Ending)

def Effect.ofNote : Option Found → Effect
  | some found => .next found
  | none => .stop .misuse

/-- Letters behind a hyphen. A switch that takes a text takes what follows its letter, with an equals sign or without. -/
def readLetters (level : Level) (found : Found) : List Char → Effect
  | [] => .next found
  | c :: rest =>
    if c = 'h' then .stop .help
    else if c = 'V' && level.top then .stop .version
    else
      match level.switches.find? fun s => s.letter = some c with
      | none => .stop .misuse
      | some s =>
        if s.arity = .text then
          match rest with
          | [] => .wants s found
          | '=' :: text => .ofNote (note s (String.ofList text) found)
          | text => .ofNote (note s (String.ofList text) found)
        else
          match note s "" found with
          | some found => readLetters level found rest
          | none => .stop .misuse

/-- A name behind two hyphens, with a text behind an equals sign or without. -/
def readName (level : Level) (found : Found) (argument : List Char) : Effect :=
  let name := String.ofList (argument.takeWhile (· ≠ '='))
  let value := match argument.dropWhile (· ≠ '=') with
    | _ :: text => some (String.ofList text)
    | [] => none
  match level.switches.find? fun s => s.name = name, value with
  | some s, some text => if s.arity = .text then .ofNote (note s text found) else .stop .misuse
  | some s, none => if s.arity = .text then .wants s found else .ofNote (note s "" found)
  | none, none =>
    if name = "help" then .stop .help
    else if name = "version" && level.top then .stop .version
    else .stop .misuse
  | none, some _ => .stop .misuse

def addOperand (level : Level) (found : Found) (operand : String) : Effect :=
  match level.operands with
  | .none => .stop .misuse
  | .one => if found.operands.isEmpty then .next { found with operands := [operand] } else .stop .misuse
  | .many => .next { found with operands := found.operands ++ [operand] }

/-- The arguments behind two hyphens. -/
def readOperands (level : Level) (found : Found) : List String → Ending
  | [] => .done found
  | a :: rest =>
    match addOperand level found a with
    | .next found => readOperands level found rest
    | _ => .misuse

def isCommandName (name : String) : Bool := commandLevels.any (·.1 = name)

/-- Help on the program or on one of its commands. -/
def readHelp : List String → Ending
  | [] => .help
  | [name] => if isCommandName name || name = "help" then .help else .misuse
  | _ => .misuse

/-- Reads arguments; `wanting` is the switch in front that takes the next one as its text. -/
def readLevel (level : Level) (wanting : Option Switch) (found : Found) : List String → Ending
  | [] => if wanting.isSome then .misuse else .done found
  | a :: rest =>
    match wanting with
    | some s =>
      if isSwitchLike a then .misuse
      else
        match note s a found with
        | some found => readLevel level none found rest
        | none => .misuse
    | none =>
      if level.top && isCommandName a then .command found a rest
      else if level.top && a = "help" then readHelp rest
      else if a = "--" then readOperands level found rest
      else
        let effect := match a.toList with
          | '-' :: '-' :: name => readName level found name
          | '-' :: c :: letters => readLetters level found (c :: letters)
          | _ => addOperand level found a
        match effect with
        | .next found => readLevel level none found rest
        | .wants s found => readLevel level (some s) found rest
        | .stop ending => ending

/-! ## Requests -/

namespace Found

def text? (f : Found) (name : String) : Option String := f.switches.lookup name

def has (f : Found) (name : String) : Bool := (f.text? name).isSome

/-- The command that arguments make; none if one is missing. -/
def command? (f : Found) (name : String) : Option Command :=
  let output := f.text? "output"
  match name, f.operands with
  | "compile", [input] => some (.compile input output (f.has "stats"))
  | "theme", [input] => some (.theme input output (f.text? "json"))
  | "compat", input :: inputs => (f.text? "theme").map fun theme => .compat theme (input :: inputs) output
  | "schema", [input] => some (.schema input output)
  | _, _ => none

end Found

/-- The arguments of a command, read behind those in front of it. -/
def readCommand (above : Found) (name : String) (arguments : List String) : Request :=
  match commandLevels.lookup name with
  | none => .misuse
  | some level =>
    match readLevel level none ⟨[], []⟩ arguments with
    | .done f =>
      match f.command? name with
      | some command =>
        .run ⟨above.text? "config", (f.text? "prefix").or (above.text? "prefix"),
          (f.text? "context-prefix").or (above.text? "context-prefix"), f.has "debug" || above.has "debug", some command⟩
      | none => .misuse
    | .help => .help
    | _ => .misuse

/-- What the arguments of the program ask for. -/
def Request.ofArguments (arguments : List String) : Request :=
  match readLevel topLevel none ⟨[], []⟩ arguments with
  | .done f => .run ⟨f.text? "config", f.text? "prefix", f.text? "context-prefix", f.has "debug", none⟩
  | .command f name rest => readCommand f name rest
  | .version => .version
  | .help => .help
  | .misuse => .misuse

end CssTheming.CommandLine
