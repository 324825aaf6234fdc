import GotoLang.IoFault
import GotoLang.Sink

/-!
# The linker

A program of the system, which is given the path of an object and that of the executable it is to make. It
reads the files and leaves them as they are, apart from the executable.
-/
namespace GotoLang

structure Command where
  program : String
  arguments : List String
deriving DecidableEq

def Command.text (command : Command) : String :=
  String.intercalate " " ((command.program :: command.arguments).map fun word => s!"\"{word}\"")

inductive ExitStatus where
  | code (number : Nat)
  | signal (name : String)
deriving DecidableEq

def ExitStatus.text : ExitStatus → String
  | code number => s!"exit status: {number}"
  | signal name => s!"signal: {name}"

namespace Linker

/-- What becomes of a call: there is no process, or it ends with a text on its standard error. It may have
made the executable then, whatever its status. -/
inductive Run where
  | refused (fault : IoFault)
  | ended (status : ExitStatus) (complaint : String) (executable : Option Bytes)
deriving DecidableEq

/-- Objects with an entry point need no start code of a compiler. -/
def program (entryPoint : Bool) : String :=
  if entryPoint then "ld" else "cc"

def command (entryPoint : Bool) (object executable : String) : Command :=
  { program := program entryPoint
    arguments := ["-o", executable, object] ++
      if entryPoint then ["-z", "noexecstack"] else ["-Wl,-z,noexecstack"] }

end Linker

end GotoLang
