import GotoLang.Config
import GotoLang.Log

/-!
# Command lines

Arguments are read from left to right. A value that stands in an argument of its own is checked when
the next option or file is met, or at the end; an unknown option is reported before that.
-/
namespace GotoLang

namespace CommandLine

/-- Why a command line does not start a compilation: misuse, or a request for information. -/
inductive UsageFault where
  | missingArgument
  | unknownArgument
  | conflict
  | missingValue
  | badValue
  | unexpectedValue
  | help
  | version
deriving DecidableEq

namespace UsageFault

def text : UsageFault → String
  | missingArgument => "a required argument is missing"
  | unknownArgument => "an argument was not expected"
  | conflict => "arguments cannot be used together or more than once"
  | missingValue => "an option needs a value"
  | badValue => "a value is not a number in range"
  | unexpectedValue => "an option takes no value"
  | help => "help"
  | version => "version"

/-- The exit code that reports a fault; requests for information succeed. -/
def exitCode : UsageFault → Nat
  | help | version => 0
  | _ => 2

end UsageFault

inductive Flag where
  | emitIr | emitAsm | emitObj | emitExe | jit
  | debug | entryPoint | stackBased | unsequenced
deriving DecidableEq

def Flag.strategy? : Flag → Option Strategy
  | emitIr => some .listing
  | emitAsm => some .assembly
  | emitObj => some .object
  | emitExe => some .executable
  | jit => some .execution
  | _ => none

inductive Parameter where
  | file | output | graph | maxForwardRefs | maxOps
deriving DecidableEq

/-- Everything that has a name. The value of the optimization level can be left out. -/
inductive Switch where
  | flag (flag : Flag)
  | parameter (parameter : Parameter)
  | level
  | verbose
  | help
  | version
deriving DecidableEq

def longNames : List (String × Switch) := [
  ("output", .parameter .output),
  ("emit-ir", .flag .emitIr),
  ("emit-asm", .flag .emitAsm),
  ("emit-obj", .flag .emitObj),
  ("emit-exe", .flag .emitExe),
  ("jit", .flag .jit),
  ("opt", .level),
  ("debug", .flag .debug),
  ("entry-point", .flag .entryPoint),
  ("stack-based", .flag .stackBased),
  ("viz", .parameter .graph),
  ("viz-unsequenced", .flag .unsequenced),
  ("max-forward-refs", .parameter .maxForwardRefs),
  ("max-ops", .parameter .maxOps),
  ("verbose", .verbose),
  ("help", .help),
  ("version", .version)]

def shortNames : List (Char × Switch) := [
  ('o', .parameter .output),
  ('g', .flag .debug),
  ('v', .verbose),
  ('h', .help),
  ('V', .version)]

/-- What has been read so far. A pending parameter has a value that is not checked yet, or not even read. Behind
the literal mark there are only files. -/
structure Arguments where
  flags : List Flag := []
  file : Option String := none
  output : Option String := none
  graph : Option String := none
  maxForwardRefs : Option Nat := none
  maxOps : Option Nat := none
  level : Option OptLevel := none
  verbosity : Nat := 0
  pending : Option (Parameter × Option String) := none
  literal : Bool := false
deriving DecidableEq

abbrev Parsed := Except UsageFault Arguments

/-- A number below `2 ^ 64` in decimal digits, which may have a plus sign. -/
def number? (text : String) : Option Nat :=
  let digits := match text.toList with
    | '+' :: rest => rest
    | all => all
  if digits.isEmpty || !digits.all Char.isDigit then none
  else
    let n := digits.foldl (fun n c => 10 * n + (c.toNat - '0'.toNat)) 0
    if n < 18446744073709551616 then some n else none

def readPath (value : String) : Except UsageFault String :=
  if value = "" then .error .missingValue else .ok value

def readNumber (value : String) : Except UsageFault Nat :=
  match number? value with
  | some n => .ok n
  | none => .error .badValue

def readLevel (value : String) : Except UsageFault OptLevel :=
  match (number? value).bind OptLevel.ofNat? with
  | none | some .none => .error .badValue
  | some level => .ok level

/-- Refuse to set again what is set. -/
def fresh {α : Type} (current : Option α) : Except UsageFault Unit :=
  if current.isSome then .error .conflict else .ok ()

namespace Arguments

def store (args : Arguments) (parameter : Parameter) (value : String) : Parsed := do
  match parameter with
  | .file =>
    fresh args.file
    return { args with file := some (← readPath value) }
  | .output =>
    fresh args.output
    return { args with output := some (← readPath value) }
  | .graph =>
    fresh args.graph
    return { args with graph := some (← readPath value) }
  | .maxForwardRefs =>
    fresh args.maxForwardRefs
    return { args with maxForwardRefs := some (← readNumber value) }
  | .maxOps =>
    fresh args.maxOps
    return { args with maxOps := some (← readNumber value) }

/-- Check the value that was read last. -/
def settle (args : Arguments) : Parsed :=
  match args.pending with
  | none => .ok args
  | some (_, none) => .error .missingValue
  | some (parameter, some value) => { args with pending := none }.store parameter value

def raise (args : Arguments) (flag : Flag) : Parsed := do
  let args ← args.settle
  if args.flags.contains flag then throw .conflict
  return { args with flags := flag :: args.flags }

def setLevel (args : Arguments) (value : String) : Parsed := do
  let args ← args.settle
  fresh args.level
  return { args with level := some (← readLevel value) }

def bare (args : Arguments) : Switch → Parsed
  | .flag flag => args.raise flag
  | .parameter parameter => do
    let args ← args.settle
    return { args with pending := some (parameter, none) }
  | .level => args.setLevel "2"
  | .verbose => do
    let args ← args.settle
    return { args with verbosity := args.verbosity + 1 }
  | .help => do
    discard args.settle
    throw .help
  | .version => do
    discard args.settle
    throw .version

/-- A switch with a value in the same argument. -/
def attached (args : Arguments) (value : String) : Switch → Parsed
  | .parameter parameter => do
    let args ← args.settle
    args.store parameter value
  | .level => args.setLevel value
  | _ => .error .unexpectedValue

def long (args : Arguments) (body : String) : Parsed :=
  let name := String.ofList (body.toList.takeWhile (· ≠ '='))
  match longNames.lookup name with
  | none => .error .unknownArgument
  | some switch =>
    match body.toList.dropWhile (· ≠ '=') with
    | [] => args.bare switch
    | _ :: value => args.attached (String.ofList value) switch

/-- Short options, without their dash. The first one that takes a value takes all that follows. -/
def shorts (args : Arguments) : List Char → Parsed
  | [] => .ok args
  | c :: rest =>
    match shortNames.lookup c with
    | none => .error .unknownArgument
    | some (.parameter parameter) =>
      match rest with
      | [] => args.bare (.parameter parameter)
      | '=' :: value => args.attached (String.ofList value) (.parameter parameter)
      | value => args.attached (String.ofList value) (.parameter parameter)
    | some switch => do
      let args ← args.bare switch
      args.shorts rest

def hasFile (args : Arguments) : Bool :=
  args.file.isSome || args.pending.any (·.1 = .file)

def value (args : Arguments) (text : String) : Parsed :=
  match args.pending, args.literal with
  | some (parameter, none), false => .ok { args with pending := some (parameter, some text) }
  | _, _ =>
    if args.hasFile then .error .unknownArgument
    else do
      let args ← args.settle
      return { args with pending := some (.file, some text) }

def read (args : Arguments) (text : String) : Parsed :=
  if args.literal then args.value text
  else
    match text.toList with
    | ['-', '-'] => .ok { args with literal := true }
    | '-' :: '-' :: body => args.long (String.ofList body)
    | '-' :: c :: rest => args.shorts (c :: rest)
    | _ => args.value text

def strategies (args : Arguments) : List Strategy :=
  args.flags.filterMap Flag.strategy?

/-- Check what concerns all arguments together. -/
def finish (args : Arguments) : Parsed := do
  let args ← args.settle
  if 1 < args.strategies.length then throw .conflict
  if args.file.isNone then throw .missingArgument
  if args.flags.contains .unsequenced && args.graph.isNone then throw .missingArgument
  return args

end Arguments

end CommandLine

structure CommandLine where
  config : Config
  verbosity : Nat := 0
deriving DecidableEq

namespace CommandLine

def ofArguments (args : Arguments) : CommandLine where
  config :=
    { input := args.file.getD ""
      output := args.output
      strategy := args.strategies.head?.getD .execution
      level := args.level.getD .none
      debug := args.flags.contains .debug
      entryPoint := args.flags.contains .entryPoint
      stackBased := args.flags.contains .stackBased
      graph := args.graph.map fun path =>
        { path, sequenced := !args.flags.contains .unsequenced }
      maxForwardRefs := args.maxForwardRefs.getD 4096
      maxOps := args.maxOps }
  verbosity := args.verbosity

def parse (arguments : List String) : Except UsageFault CommandLine := do
  let args ← arguments.foldlM Arguments.read {}
  return ofArguments (← args.finish)

def logLevel? (command : CommandLine) : Option Log.Level :=
  match command.verbosity with
  | 0 => none
  | 1 => some .info
  | 2 => some .debug
  | _ => some .trace

end CommandLine

end GotoLang
