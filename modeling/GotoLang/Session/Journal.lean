import GotoLang.Log
import GotoLang.Numeral
import GotoLang.Session

/-!
# Journals of sessions as log records
-/
namespace GotoLang

namespace Session.Event

def condName : Cond → String
  | .eq => "Eq"
  | .ne => "Ne"
  | .lt => "Lt"
  | .le => "Le"
  | .gt => "Gt"
  | .ge => "Ge"

def arithName : Arith → String
  | .add => "Add"
  | .sub => "Sub"
  | .mul => "Mul"
  | .div => "Div"
  | .rem => "Rem"

/-- An operation with its operands in parentheses. -/
def opName : Op → String
  | .push value => s!"Push({value.toInt})"
  | .load slot => s!"Load({slot.toNat})"
  | .store slot => s!"Store({slot.toNat})"
  | .unary .neg => "Neg"
  | .unary .not => "Not"
  | .binary (.arith op) => arithName op
  | .binary (.cmp cond) => s!"Cmp({condName cond})"
  | .binary (.logic .and) => "And"
  | .binary (.logic .or) => "Or"
  | .jump target => s!"Jump({target.toNat})"
  | .jumpIf target => s!"JumpIfTrue({target.toNat})"
  | .print .int => "PrintInt"
  | .print .bool => "PrintBool"
  | .exit => "Exit"
  | .nop => "Nop"

def record : Session.Event → Log.Record
  | emitted addr op => ⟨.trace, .session, s!"{Numeral.addr addr.toNat}: {opName op}"⟩
  | awaited label slot =>
    ⟨.trace, .labels, s!"forward reference to `{label}` at slot {slot.toNat}"⟩
  | bound label addr => ⟨.trace, .labels, s!"label `{label}` bound to {addr.toNat}"⟩
  | resolved references => ⟨.debug, .labels, s!"resolved {references} forward references"⟩
  | finished ops references =>
    ⟨.debug, .session, s!"finalized {ops} ops ({references} forward references patched)"⟩

end Session.Event

end GotoLang
