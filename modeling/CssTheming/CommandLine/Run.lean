import CssTheming.CommandLine.Arguments
import CssTheming.CommandLine.Config
import CssTheming.CommandLine.Console
import CssTheming.Compile.File
import CssTheming.Fallback
import CssTheming.Json.Schema
import CssTheming.Json.Theme
import CssTheming.Program
import CssTheming.Theme.Load
import CssTheming.Theme.Stylesheet

/-!
# Commands

What each command does with the files it is given, and what it says.
-/

namespace CssTheming.CommandLine

variable {m : Type → Type} [Monad m] [Storage m] [Console m] [Clock m]

def sayLine (text : String) : ExceptT Error m Unit := ExceptT.lift (Console.say (text ++ "\n"))

def now : ExceptT Error m Nat := ExceptT.lift Clock.now

/-- The stylesheets below a directory, each by the names that lead to it. -/
def stylesheetsIn (directory : String) : ExceptT Error m (List (List String)) := do
  let outline ← Storage.orError (.traversal directory) (Storage.outline directory)
  return (outline.walk Outline.byName).filter fun names => (names.getLast?.bind Path.extension?) = some "css"

/-- A path itself if it is no directory, and else the paths of the stylesheets below it. -/
def stylesheetPaths (path : String) : ExceptT Error m (List String) := do
  if ← (Storage.isDirectory path : m Bool) then
    return (← stylesheetsIn path).map fun names => names.foldl Path.join path
  else return [path]

/-- Writes a result to a file, making its directory, or says it. -/
def deliver (output : Option String) (content : String) : ExceptT Error m Unit := do
  match output with
  | none => ExceptT.lift (Console.say content)
  | some path =>
    if let some parent := Path.parent? path then Storage.orError .file (Storage.makeDirectories parent)
    Storage.save path content
    sayLine ("✅ Written to " ++ path)

/-! ## Compiling -/

def defaultOutput : String := "dist"

/-- The statistics of a file and the milliseconds that it took. -/
def statsJson (s : CompileStats) (time : Nat) : Json :=
  .record [("source_size", .nat s.sourceSize), ("output_size", .nat s.outputSize), ("rule_count", .nat s.ruleCount),
    ("usage_count", .nat s.usageCount), ("context_count", .nat s.contextCount), ("compile_time_ms", .nat time)]

def compileTimed (options : Options) (input output : String) : ExceptT Error m (CompileStats × Nat) := do
  let started ← now
  let stats ← Compile.compileFile input output options
  return (stats, (← now) - started)

/-- Compiles stylesheets of a directory in turn, each to where it is in the directory. -/
def compileAll (options : Options) (input output : String) :
    List (List String) → ExceptT Error m (List (CompileStats × Nat))
  | [] => return []
  | names :: rest => do
    let target := Path.join output ("/".intercalate names.dropLast)
    let done ← compileTimed options (names.foldl Path.join input) target
    sayLine ("   " ++ "/".intercalate names ++ " (" ++ toString done.1.usageCount ++ " usages)")
    return done :: (← compileAll options input output rest)

def runCompile (options : Options) (input output : String) (stats : Bool) : ExceptT Error m Unit := do
  let started ← now
  let done ← if ← (Storage.isDirectory input : m Bool) then do
      let files ← stylesheetsIn input
      sayLine ("🔨 Compiling " ++ toString files.length ++ " files from " ++ input ++ " -> " ++ output)
      compileAll options input output files
    else do
      sayLine ("🔨 Compiling " ++ input ++ " -> " ++ output)
      pure [← compileTimed options input output]
  sayLine "✅ Compilation successful!"
  sayLine ("   Usages: " ++ toString (done.foldl (fun n d => n + d.1.usageCount) 0))
  sayLine ("   Time: " ++ toString ((← now) - started) ++ "ms")
  if stats then sayLine (Json.array (done.map fun (s, time) => statsJson s time)).print

/-! ## Themes and fallbacks -/

def runTheme (options : Options) (input : String) (output json : Option String) : ExceptT Error m Unit := do
  let theme ← Theme.load input
  if let some path := json then
    Storage.save path theme.toJson.print
    sayLine ("📝 Processed theme written to " ++ path)
  deliver output (theme.css options.propertyPrefix options.contextClassPrefix)

/-- The usages of compiled stylesheets. -/
def usagesOf (options : Options) : List String → ExceptT Error m (List SchemaUsage)
  | [] => return []
  | path :: rest => do
    let css ← Storage.orError .file (Storage.read path)
    let schema ← Schema.extract css path options.propertyPrefix
    return schema.usages ++ (← usagesOf options rest)

/-- The usages of compiled stylesheets and of directories of them. -/
def usagesBelow (options : Options) : List String → ExceptT Error m (List SchemaUsage)
  | [] => return []
  | input :: rest => do
    let first ← usagesOf options (← stylesheetPaths input)
    return first ++ (← usagesBelow options rest)

def runCompat (options : Options) (theme : String) (inputs : List String) (output : Option String) :
    ExceptT Error m Unit := do
  let theme ← Theme.load theme
  let usages ← usagesBelow options inputs
  deliver output (← Fallback.css theme usages options)

def runSchema (options : Options) (input : String) (output : Option String) : ExceptT Error m Unit := do
  let css ← Storage.orError (fun fault => .unreadable input (some fault)) (Storage.read input)
  let schema ← Schema.extract css input options.propertyPrefix
  deliver output schema.toJson.print

/-! ## The program -/

def runCommand (config : Config) (options : Options) : Command → ExceptT Error m Unit
  | .compile input output stats =>
    runCompile options input ((output.or config.outputDirectory).getD defaultOutput) stats
  | .theme input output json => runTheme options input output json
  | .compat theme inputs output => runCompat options theme inputs output
  | .schema input output => runSchema options input output

def runInvocation (i : Invocation) : ExceptT Error m Unit := do
  let config ← match i.config with
    | some path => Config.load path
    | none => pure {}
  match i.command with
  | some command => runCommand config (config.options i.propertyPrefix i.contextClassPrefix i.debug) command
  | none => sayLine "No subcommand specified. Use --help for usage information."

/-- How the program tells an error. Refusals of the file system that nothing more is known about stand alone. -/
def complaint : Error → String
  | .file fault => "IO Error: " ++ fault.message
  | .traversal path fault => "IO Error: " ++ Error.traversalMessage path fault
  | e => "❌ " ++ e.message

def helpText : String :=
  program.description ++ "\n\nUsage: " ++ program.name ++ " [OPTIONS] [COMMAND]\n\nCommands:\n" ++
    "  compile  Compile cfg() stylesheets to custom properties and usage files\n" ++
    "  theme    Flatten a theme source into custom property CSS\n" ++
    "  compat   Generate compatibility CSS for one theme\n" ++
    "  schema   Extract the usage schema from compiled CSS\n\nOptions:\n" ++
    "  -c, --config <FILE>            Configuration file path\n" ++
    "  -v, --verbose                  Increase verbosity (can be used multiple times)\n" ++
    "      --prefix <PREFIX>          Custom property prefix\n" ++
    "      --context-prefix <PREFIX>  Context class name prefix\n" ++
    "  -d, --debug                    Enable debug mode with extra logging\n" ++
    "  -h, --help                     Print help\n" ++
    "  -V, --version                  Print version\n"

/-- Runs the program and answers with its exit code: 1 for an error and 2 for arguments that make no request. -/
def run (arguments : List String) : m Nat := do
  match Request.ofArguments arguments with
  | .misuse => do
    Console.complain ("error: unexpected arguments\n\nFor more information, try '--help'.\n")
    return 2
  | .version => do
    Console.say (program.name ++ " " ++ program.version ++ "\n")
    return 0
  | .help => do
    Console.say helpText
    return 0
  | .run i =>
    match ← (runInvocation i : ExceptT Error m Unit).run with
    | .ok () => return 0
    | .error e => do
      Console.complain (complaint e ++ "\n")
      return 1

end CssTheming.CommandLine
