import GotoLang.IoFault
import GotoLang.Numeral
import GotoLang.Program
import GotoLang.Sink

/-!
# The stack machine

A machine has a program counter, an evaluation stack with its top first, a word for each slot, and two
sinks for what the program prints and for its last words. One operation is one `step`. A division by
zero flushes the output, writes a message to the error sink and stops with a status of its own.
-/
namespace GotoLang

structure Machine where
  pc : Nat := 0
  stack : List Word := []
  slots : Array Word
  out : Sink := {}
  err : Sink := {}

inductive MachineFault where
  | pastEnd (pc : Nat)
  | stackUnderflow
  | unknownSlot (slot : Slot)
  | outFailed (fault : IoFault)
  | errFailed (fault : IoFault)
deriving DecidableEq

inductive Machine.Outcome where
  | running (machine : Machine)
  | halted (status : Word) (machine : Machine)
  | failed (fault : MachineFault) (machine : Machine)

namespace Machine

/-- The status of a program that divided by zero. -/
def trapStatus : Word := 101

def trapMessage : String := "runtime error: division by zero\n"

/-- Before its first operation all variables of a program are zero. -/
def start (program : Program) (out err : Sink) : Machine :=
  { slots := Array.replicate program.slots.size 0, out, err }

def printed (value : Word) : Ty → String
  | .int => s!"{value.toInt}\n"
  | .bool => if value != 0 then "true\n" else "false\n"

def halt (machine : Machine) (status : Word) : Outcome :=
  if machine.out.flushFails then .failed (.outFailed .flushFailed) machine else .halted status machine

def trap (machine : Machine) : Outcome :=
  if machine.out.flushFails then .failed (.outFailed .flushFailed) machine
  else
    match machine.err.print trapMessage with
    | (err, true) => { machine with err }.halt trapStatus
    | (err, false) => .failed (.errFailed .noRoom) { machine with err }

/-- Carry out one operation; the program counter is already behind it. -/
def perform (machine : Machine) : Op → Outcome
  | .push value => .running { machine with stack := value :: machine.stack }
  | .load slot =>
    match machine.slots[slot.toNat]? with
    | some value => .running { machine with stack := value :: machine.stack }
    | none => .failed (.unknownSlot slot) machine
  | .store slot =>
    match machine.stack with
    | [] => .failed .stackUnderflow machine
    | value :: stack =>
      if slot.toNat < machine.slots.size then
        .running { machine with stack, slots := machine.slots.setIfInBounds slot.toNat value }
      else .failed (.unknownSlot slot) { machine with stack }
  | .unary op =>
    match machine.stack with
    | [] => .failed .stackUnderflow machine
    | value :: stack => .running { machine with stack := op.eval value :: stack }
  | .binary op =>
    match machine.stack with
    | rhs :: lhs :: stack =>
      match op.eval? lhs rhs with
      | some value => .running { machine with stack := value :: stack }
      | none => { machine with stack }.trap
    | _ => .failed .stackUnderflow machine
  | .jump target => .running { machine with pc := target.toNat }
  | .jumpIf target =>
    match machine.stack with
    | [] => .failed .stackUnderflow machine
    | value :: stack =>
      if value != 0 then .running { machine with stack, pc := target.toNat }
      else .running { machine with stack }
  | .print ty =>
    match machine.stack with
    | [] => .failed .stackUnderflow machine
    | value :: stack =>
      match machine.out.print (printed value ty) with
      | (out, true) => .running { machine with stack, out }
      | (out, false) => .failed (.outFailed .noRoom) { machine with stack, out }
  | .exit =>
    match machine.stack with
    | [] => .failed .stackUnderflow machine
    | status :: stack => { machine with stack }.halt status
  | .nop => .running machine

def step (ops : Array Op) (machine : Machine) : Outcome :=
  match ops[machine.pc]? with
  | none => .failed (.pastEnd machine.pc) machine
  | some op => { machine with pc := machine.pc + 1 }.perform op

/-- At most so many steps. A machine that is still running afterwards is returned as it stands. -/
def run (ops : Array Op) : Nat → Machine → Outcome
  | 0, machine => .running machine
  | steps + 1, machine =>
    match machine.step ops with
    | .running next => run ops steps next
    | stopped => stopped

end Machine

/-- The part of an exit status that a process can report. -/
def exitCode (status : Word) : Nat :=
  status.toUInt64.toNat % 256

end GotoLang
