import SsaOpt.Config.Load
import SsaOpt.Pipeline.Files
import SsaOpt.Pipeline.Summary
import SsaOpt.Diagnostic.Printer
import SsaOpt.Text.Blank

/-!
# The command line

Three commands: `run` optimizes the module in a file, `print` shows one, and `passes` lists the
passes. Options stand before the other arguments, as `--name value`, `--name=value` or, for
switches, `--name`; one dash is as good as two.
-/

namespace SsaOpt.Command

/-! ## Options -/

/-- The options of the command `run`. -/
structure Options where
  config : String := ""
  debug : Bool := false
  logFile : String := ""
  output : String := ""
  print : Bool := false
  /-- The passes to run instead of the configured ones, if given. -/
  passes : Option (List String) := none
  metrics : String := ""
  summary : Bool := false
deriving DecidableEq

/-- What an option does with its value. -/
inductive OptionKind where
  | value (set : String → Options → Options)
  | switch (set : Bool → Options → Options)

/-- The names between commas. -/
def splitNames (value : String) : List String :=
  ((value.splitOn ",").map Text.trimBlanks).filter fun name => name ≠ ""

/-- Adds names of passes. -/
def addPasses (value : String) (o : Options) : Options :=
  { o with passes := some (o.passes.getD [] ++ splitNames value) }

/-- The options by their names. -/
def optionKinds : List (String × OptionKind) :=
  let config := OptionKind.value fun value o => { o with config := value }
  let debug := OptionKind.switch fun on o => { o with debug := on }
  let output := OptionKind.value fun value o => { o with output := value }
  let verbosity := OptionKind.value fun _ o => o
  [("config", config), ("c", config), ("debug", debug), ("d", debug), ("verbosity", verbosity),
    ("v", verbosity), ("log-file", .value fun value o => { o with logFile := value }),
    ("out", output), ("o", output), ("print", .switch fun on o => { o with print := on }),
    ("passes", .value addPasses), ("metrics", .value fun value o => { o with metrics := value }),
    ("summary", .switch fun on o => { o with summary := on })]

/-- Why arguments make no sense. -/
inductive UsageError where
  | unknownOption (name : String)
  | missingValue (name : String)
  | notTruth (name value : String)
deriving DecidableEq

/-- The error in words. -/
def UsageError.message : UsageError → String
  | unknownOption name => s!"flag provided but not defined: -{name}"
  | missingValue name => s!"flag needs an argument: -{name}"
  | notTruth name value => s!"invalid boolean value {Text.quote value} for -{name}: parse error"

/-- The truth value of a text. -/
def truth? (s : String) : Option Bool :=
  if ["1", "t", "T", "true", "TRUE", "True"].contains s then some true
  else if ["0", "f", "F", "false", "FALSE", "False"].contains s then some false
  else none

/-- The name and the value of an option, if the argument is one. -/
def optionOf? (arg : String) : Option (String × Option String) :=
  let body := match arg.toList with
    | '-' :: '-' :: rest => rest
    | '-' :: rest => rest
    | _ => []
  if body.isEmpty then none
  else
    let name := String.ofList (body.takeWhile (· ≠ '='))
    match body.dropWhile (· ≠ '=') with
    | _ :: value => some (name, some (String.ofList value))
    | [] => some (name, none)

/-- Takes the options from the front of the arguments. Two dashes alone end them. -/
def parseOptions (kinds : List (String × OptionKind)) :
    Options → List String → Except UsageError (Options × List String)
  | o, [] => .ok (o, [])
  | o, arg :: rest =>
    if arg = "--" then .ok (o, rest)
    else
      match optionOf? arg with
      | none => .ok (o, arg :: rest)
      | some (name, value) =>
        match kinds.lookup name, value with
        | none, _ => .error (.unknownOption name)
        | some (.switch set), none => parseOptions kinds (set true o) rest
        | some (.switch set), some value =>
          match truth? value with
          | some on => parseOptions kinds (set on o) rest
          | none => .error (.notTruth name value)
        | some (.value set), some value => parseOptions kinds (set value o) rest
        | some (.value set), none =>
          match rest with
          | value :: rest => parseOptions kinds (set value o) rest
          | [] => .error (.missingValue name)

/-! ## Commands -/

/-- What a command leaves behind: its exit code and what it has printed. -/
structure Result where
  code : Nat := 0
  output : String := ""
  errors : String := ""
deriving DecidableEq

/-- What the outside world adds to the text: a name for the run, and the time that each pass
took. -/
structure Surroundings where
  runName : String
  time : String → String

/-- The result of a command that fails with an error after some output. -/
def failedAfter (output message : String) : Result where
  code := 1
  output
  errors := Text.Color.red.paint s!"error: {message}\n"

/-- The result of a command that fails with an error. -/
def failed (message : String) : Result := failedAfter "" message

/-- The only input file. -/
def inputPath (args : List String) : Except String String :=
  match args with
  | [path] => .ok path
  | args =>
    let count := args.length
    .error s!"expected exactly one input module, got {count}"

variable {m : Type → Type} [Monad m] [Disk m]

/-- The configuration for an input file: from the file that is named, or the nearest one above.
Passes among the options replace the configured ones. -/
def loadConfig (o : Options) (input : String) : m (Except String Config) := do
  let loaded ←
    if o.config ≠ "" then Config.loadFile o.config
    else Config.findAndLoad (Path.directory input)
  match loaded with
  | .error e => return .error e.message
  | .ok c =>
    let c := { c with passes := o.passes.getD c.passes }
    match c.flawErr? with
    | some e => return .error e.message
    | none => return .ok c

/-- Shows the counts of a run where the options want them. -/
def writeMetrics (p : Pipeline) (o : Options) (output : String) : m Result := do
  let text := p.manager.metrics
  if o.metrics = "" then return { output }
  else if o.metrics = "-" then return { output := output ++ text }
  else
    match ← Disk.write o.metrics (Text.utf8Bytes text) with
    | some e => return failedAfter output s!"cannot create {o.metrics}: {e.message}"
    | none => return { output }

/-- Runs a pipeline over the module in a file. -/
def runPipeline (around : Surroundings) (o : Options) (p : Pipeline) (input : String) :
    m Result := do
  let done ← p.runFile input o.output
  match done.failure with
  | some _ =>
    return { code := 1, output := done.printed, errors := done.pipeline.bag.render }
  | none =>
    let text := if o.print then renderListing done.module else ""
    let summary := if o.summary then done.pipeline.summary around.runName around.time else ""
    writeMetrics done.pipeline o (done.printed ++ text ++ summary)

/-- The command `run`. -/
def run (around : Surroundings) (args : List String) : m Result := do
  match parseOptions optionKinds {} args with
  | .error e => return failed e.message
  | .ok (o, args) =>
    match inputPath args with
    | .error message => return failed message
    | .ok input =>
      match ← loadConfig o input with
      | .error message => return failed message
      | .ok c =>
        match Pipeline.new (some c) o.debug with
        | .error e => return failed e.message
        | .ok p => runPipeline around o p input

/-- The command `print`. -/
def print (args : List String) : m Result := do
  match parseOptions [] {} args with
  | .error e => return failed e.message
  | .ok (_, args) =>
    match inputPath args with
    | .error message => return failed message
    | .ok input =>
      match ← loadModule input with
      | .error e => return failed e.message
      | .ok mod => return { output := mod.render }

/-- The command `passes`. -/
def passes : Result :=
  let lines := fun (names : List String) => String.join (names.map fun name => s!"  {name}\n")
  { output := Text.Color.cyan.paintLine "Transformations:" ++ lines knownPasses ++
      Text.Color.cyan.paintLine "Analyses:" ++ lines (Analysis.all.map Analysis.name) }

/-- How the program is used. -/
def usage : String := "seoggi-opt - Optimize seoggi MIR modules\n\nCommands: run, print, passes\n"

/-- Runs the command that the arguments name. -/
def execute (around : Surroundings) (args : List String) : m Result :=
  match args with
  | "run" :: args => run around args
  | "print" :: args => print args
  | "passes" :: _ => return passes
  | _ => return { output := usage }

end SsaOpt.Command
