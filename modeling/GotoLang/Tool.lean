import GotoLang.CommandLine
import GotoLang.Compilation

/-!
# The command

A command reads its arguments, compiles one file and reports what became of it.
-/
namespace GotoLang

namespace Tool

def version : String := "gotoc 0.1.0\n"

def help : String :=
  "Usage: gotoc [OPTIONS] <FILE>\n\n" ++
  "  -o, --output <PATH>         where the product goes\n" ++
  "      --emit-ir               produce a listing of the operations\n" ++
  "      --emit-asm              produce assembly text\n" ++
  "      --emit-obj              produce an object file\n" ++
  "      --emit-exe              produce an executable\n" ++
  "      --jit                   execute the program\n" ++
  "      --opt[=<LEVEL>]         optimize (1 to 3)\n" ++
  "  -g, --debug                 keep source lines and labels\n" ++
  "      --entry-point           add a process entry point\n" ++
  "      --stack-based           keep all intermediate values in memory\n" ++
  "      --viz <PATH>            write the grammar graph\n" ++
  "      --viz-unsequenced       do not number the names in the graph\n" ++
  "      --max-forward-refs <N>  largest number of waiting jumps\n" ++
  "      --max-ops <N>           largest number of operations\n" ++
  "  -v, --verbose               more log output\n" ++
  "  -h, --help                  show this text\n" ++
  "  -V, --version               show the version\n"

def compile (command : CommandLine) (host : Host) : Nat × Host :=
  let host := { host with logLevel := some (command.logLevel?.getD .warn) }
  match compileFile command.config host with
  | (.ok report, host) =>
    (report.outcome.exitCode, host.log ⟨.info, .tool, report.stats.text⟩)
  | (.error error, host) =>
    let host := host.complain s!"gotoc: {error.message}\n"
    let hint := "For more information, try '--help'.\n"
    (error.exitCode, if error.exitCode = 2 then host.complain hint else host)

/-- Run the command with its arguments and tell the exit code. -/
def run (arguments : List String) (host : Host) : Nat × Host :=
  match CommandLine.parse arguments with
  | .ok command => compile command host
  | .error fault =>
    let host := match fault with
      | .help => { host with out := (host.out.print help).1 }
      | .version => { host with out := (host.out.print version).1 }
      | misuse => host.complain s!"error: {misuse.text}\n"
    (fault.exitCode, host)

end Tool

end GotoLang
