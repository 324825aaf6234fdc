/-!
# Log records
-/
namespace GotoLang

namespace Log

/-- Levels, the most important first. -/
inductive Level where
  | warn | info | debug | trace
deriving DecidableEq

def Level.rank : Level → Nat
  | warn => 0
  | info => 1
  | debug => 2
  | trace => 3

def Level.text : Level → String
  | warn => "WARN"
  | info => "INFO"
  | debug => "DEBUG"
  | trace => "TRACE"

/-- The part of the compiler that a record comes from. -/
inductive Source where
  | tool | compilation | parser | graph | session | labels | lowering | optimizer | codeGeneration
  | emission | artifact | object | linker | execution
deriving DecidableEq

def Source.text : Source → String
  | tool => "gotoc"
  | compilation => "gotoc::driver"
  | parser => "gotoc::frontend::parser"
  | graph => "gotoc::frontend::viz"
  | session => "gotoc::core::session"
  | labels => "gotoc::core::patch_table"
  | lowering => "gotoc::lower::walker"
  | optimizer => "gotoc::opt"
  | codeGeneration => "gotoc::x64::codegen"
  | emission => "gotoc::emit"
  | artifact => "gotoc::emit::artifact"
  | object => "gotoc::emit::object"
  | linker => "gotoc::emit::link"
  | execution => "gotoc::emit::jit::native"

structure Record where
  level : Level
  source : Source
  text : String
deriving DecidableEq

/-- A record as it is written: levels fill five columns, and further lines are indented. -/
def Record.line (record : Record) : String :=
  let level := record.level.text
  let fill := String.ofList (List.replicate (5 - level.length) ' ')
  let text := String.intercalate "\n    " (record.text.splitOn "\n")
  s!"[{level}{fill} {record.source.text}] {text}\n"

end Log

end GotoLang
