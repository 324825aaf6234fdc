import GotoLang.Machine
import GotoLang.Proofs.Execution

/-!
# What is seen of a program

A run of the stack machine is an execution in the sense of `GotoLang.Proofs.Execution`. What is seen of
one that ends is its status or fault and the bytes on its two sinks. Two programs behave alike if one
ends whenever the other one does and the same is seen of both; only the address at which control left
the program is not compared, since it depends on how the operations are numbered.
-/
namespace GotoLang

/-- How a run ended and what it had written by then. -/
structure Ending where
  result : Except MachineFault Word
  out : Bytes
  err : Bytes

/-- The fault without the address at which control left the program. -/
def MachineFault.anywhere : MachineFault → MachineFault
  | pastEnd _ => pastEnd 0
  | fault => fault

namespace Ending

/-- The same ending, without the address of a fault. -/
def anywhere (ending : Ending) : Ending :=
  { ending with result := ending.result.mapError MachineFault.anywhere }

/-- The same bytes, and the same status or the same fault, wherever that was. -/
def Alike (first second : Ending) : Prop :=
  first.anywhere = second.anywhere

theorem Alike.refl (ending : Ending) : ending.Alike ending := rfl

theorem Alike.symm {first second : Ending} (h : first.Alike second) : second.Alike first :=
  Eq.symm h

theorem Alike.trans {first second third : Ending} (h : first.Alike second)
    (k : second.Alike third) : first.Alike third :=
  Eq.trans h k

theorem alike_pastEnd (out err : Bytes) (addr other : Nat) :
    Alike ⟨.error (.pastEnd addr), out, err⟩ ⟨.error (.pastEnd other), out, err⟩ := rfl

end Ending

namespace Machine

/-- What is seen of an outcome. -/
def Outcome.transition : Outcome → Transition Machine Ending
  | running machine => .next machine
  | halted status machine => .stop ⟨.ok status, machine.out.bytes, machine.err.bytes⟩
  | failed fault machine => .stop ⟨.error fault, machine.out.bytes, machine.err.bytes⟩

/-- Whether a machine stopped with a status and has written this. -/
def Outcome.halts (status : Word) (out err : Bytes) : Outcome → Bool
  | halted status' machine => status' = status ∧ machine.out.bytes = out ∧ machine.err.bytes = err
  | _ => false

/-- One step, as a step of an execution. -/
def move (ops : Array Op) (machine : Machine) : Transition Machine Ending :=
  (machine.step ops).transition

theorem moves_iff {ops : Array Op} {m n : Machine} :
    Moves (move ops) m n ↔ m.step ops = .running n := by
  rw [Moves, move]
  cases m.step ops <;> simp [Outcome.transition]

/-- A bounded run finds the end of an execution once the bound is large enough. -/
theorem ends_iff_run {ops : Array Op} {m : Machine} {e : Ending} :
    Ends (move ops) m e ↔ ∃ steps, (run ops steps m).transition = .stop e := by
  constructor
  · rintro ⟨n, h⟩
    induction h with
    | @stop s r hs =>
        refine ⟨1, ?_⟩
        rw [move] at hs
        rw [run]
        split
        · next h => rw [h] at hs; cases hs
        · exact hs
    | next h _ ih =>
        obtain ⟨steps, hr⟩ := ih
        refine ⟨steps + 1, ?_⟩
        rw [run, moves_iff.mp h]
        exact hr
  · rintro ⟨steps, h⟩
    induction steps generalizing m with
    | zero => cases h
    | succ steps ih =>
        rw [run] at h
        split at h
        · next n hn => exact (ih h).before (.single (moves_iff.mpr hn))
        · exact .stop h

theorem run_running_of_diverges {ops : Array Op} {m : Machine} (h : Diverges (move ops) m)
    (steps : Nat) : ∃ n, run ops steps m = .running n := by
  cases hr : run ops steps m with
  | running n => exact ⟨n, rfl⟩
  | halted status n =>
      exact absurd (ends_iff_run.mpr ⟨steps, by rw [hr]; rfl⟩) (diverges_iff_not_ends.mp h _)
  | failed fault n =>
      exact absurd (ends_iff_run.mpr ⟨steps, by rw [hr]; rfl⟩) (diverges_iff_not_ends.mp h _)

theorem diverges_iff_run {ops : Array Op} {m : Machine} :
    Diverges (move ops) m ↔ ∀ steps, ∃ n, run ops steps m = .running n := by
  refine ⟨run_running_of_diverges, fun h => diverges_iff_not_ends.mpr fun r hr => ?_⟩
  obtain ⟨steps, hs⟩ := ends_iff_run.mp hr
  obtain ⟨n, hn⟩ := h steps
  rw [hn] at hs
  cases hs

end Machine

namespace Program

/-- The run of a program on two sinks comes to an end. -/
def EndsWith (program : Program) (out err : Sink) (ending : Ending) : Prop :=
  ∃ steps, (Machine.run program.ops steps (.start program out err)).transition = .stop ending

def Terminates (program : Program) (out err : Sink) : Prop :=
  ∃ ending, program.EndsWith out err ending

/-- However many steps are made, the run of a program has not ended. -/
def RunsForever (program : Program) (out err : Sink) : Prop :=
  ∀ steps, ∃ machine, Machine.run program.ops steps (.start program out err) = .running machine

theorem endsWith_iff {program : Program} {out err : Sink} {ending : Ending} :
    program.EndsWith out err ending ↔
      Ends (Machine.move program.ops) (.start program out err) ending :=
  Machine.ends_iff_run.symm

/-- The end of a run can be found by computing it. -/
theorem endsWith_of_halts {program : Program} {out err : Sink} {status : Word} {written complained : Bytes}
    (steps : Nat)
    (h : (Machine.run program.ops steps (.start program out err)).halts status written complained = true) :
    program.EndsWith out err ⟨.ok status, written, complained⟩ := by
  refine ⟨steps, ?_⟩
  cases hrun : Machine.run program.ops steps (.start program out err) with
  | halted status' m =>
      rw [hrun] at h
      obtain ⟨rfl, rfl, rfl⟩ := of_decide_eq_true h
      rfl
  | running m | failed fault m =>
      rw [hrun] at h
      cases h

theorem EndsWith.unique {program : Program} {out err : Sink} {first second : Ending}
    (h : program.EndsWith out err first) (k : program.EndsWith out err second) : first = second :=
  (endsWith_iff.mp h).unique (endsWith_iff.mp k)

theorem runsForever_iff {program : Program} {out err : Sink} :
    program.RunsForever out err ↔
      Diverges (Machine.move program.ops) (.start program out err) :=
  Machine.diverges_iff_run.symm

end Program

theorem Op.mem_successors {op : Op} {addr next : Nat} :
    next ∈ op.successors addr ↔
      (∃ target, op.target? = some target ∧ next = target.toNat) ∨
      (op.isTerminator = false ∧ next = addr + 1) := by
  rw [successors, List.mem_append]
  refine or_congr ?_ ?_
  · cases op.target? <;> simp
  · cases op.isTerminator <;> simp

theorem Op.length_successors_le (op : Op) (addr : Nat) : (op.successors addr).length ≤ 2 := by
  rw [successors, List.length_append]
  have h₁ : (op.target?.map UInt32.toNat).toList.length ≤ 1 := by
    cases op.target? <;> simp
  split
  · rw [List.length_nil]
    omega
  · rw [List.length_singleton]
    omega

namespace Machine

/-- A machine at another place. -/
def withPc (machine : Machine) (pc : Nat) : Machine :=
  { machine with pc }

def Outcome.map (f : Machine → Machine) : Outcome → Outcome
  | running machine => running (f machine)
  | halted status machine => halted status (f machine)
  | failed fault machine => failed fault (f machine)

/-- The machine as it stands, whether it is on its way or not. -/
def Outcome.machine : Outcome → Machine
  | running machine | halted _ machine | failed _ machine => machine

theorem step_of_get {ops : Array Op} {m : Machine} {op : Op} (h : ops[m.pc]? = some op) :
    m.step ops = (m.withPc (m.pc + 1)).perform op := by
  rw [step, h]
  rfl

theorem step_of_size_le {ops : Array Op} {m : Machine} (h : ops.size ≤ m.pc) :
    m.step ops = .failed (.pastEnd m.pc) m := by
  rw [step, Array.getElem?_eq_none h]

theorem step_congr {ops ops' : Array Op} {m : Machine} (h : ops[m.pc]? = ops'[m.pc]?) :
    m.step ops = m.step ops' := by
  rw [step, step, h]

theorem halt_ne_running (m n : Machine) (status : Word) : m.halt status ≠ .running n := by
  rw [halt]
  split <;> simp

theorem trap_ne_running (m n : Machine) : m.trap ≠ .running n := by
  rw [trap]
  split
  · simp
  · split
    · exact halt_ne_running _ _ _
    · simp

/-- The rules of the machine: what an operation comes to, with the program counter behind it. -/
inductive Performs (m : Machine) : Op → Outcome → Prop
  | push {value : Word} : Performs m (.push value) (.running { m with stack := value :: m.stack })
  | load {slot : Slot} {value : Word} : m.slots[slot.toNat]? = some value →
      Performs m (.load slot) (.running { m with stack := value :: m.stack })
  | loadUnknown {slot : Slot} : m.slots[slot.toNat]? = none →
      Performs m (.load slot) (.failed (.unknownSlot slot) m)
  | store {slot : Slot} {value : Word} {rest : List Word} : m.stack = value :: rest →
      slot.toNat < m.slots.size → Performs m (.store slot)
        (.running { m with stack := rest, slots := m.slots.setIfInBounds slot.toNat value })
  | storeUnknown {slot : Slot} {value : Word} {rest : List Word} : m.stack = value :: rest →
      ¬ slot.toNat < m.slots.size →
      Performs m (.store slot) (.failed (.unknownSlot slot) { m with stack := rest })
  | unary {op : UnaryOp} {value : Word} {rest : List Word} : m.stack = value :: rest →
      Performs m (.unary op) (.running { m with stack := op.eval value :: rest })
  | binary {op : BinaryOp} {lhs rhs value : Word} {rest : List Word} :
      m.stack = rhs :: lhs :: rest → op.eval? lhs rhs = some value →
      Performs m (.binary op) (.running { m with stack := value :: rest })
  | divideByZero {op : BinaryOp} {lhs rhs : Word} {rest : List Word} {outcome : Outcome} :
      m.stack = rhs :: lhs :: rest → op.eval? lhs rhs = none →
      { m with stack := rest }.trap = outcome → Performs m (.binary op) outcome
  | jump {target : Addr} : Performs m (.jump target) (.running { m with pc := target.toNat })
  | jumpIf {target : Addr} {value : Word} {rest : List Word} : m.stack = value :: rest → value ≠ 0 →
      Performs m (.jumpIf target) (.running { m with stack := rest, pc := target.toNat })
  | fallThrough {target : Addr} {rest : List Word} : m.stack = 0 :: rest →
      Performs m (.jumpIf target) (.running { m with stack := rest })
  | print {ty : Ty} {value : Word} {rest : List Word} {out : Sink} : m.stack = value :: rest →
      m.out.print (printed value ty) = (out, true) →
      Performs m (.print ty) (.running { m with stack := rest, out })
  | printCut {ty : Ty} {value : Word} {rest : List Word} {out : Sink} : m.stack = value :: rest →
      m.out.print (printed value ty) = (out, false) →
      Performs m (.print ty) (.failed (.outFailed .noRoom) { m with stack := rest, out })
  | exit {status : Word} {rest : List Word} {outcome : Outcome} : m.stack = status :: rest →
      { m with stack := rest }.halt status = outcome → Performs m .exit outcome
  | nop : Performs m .nop (.running m)
  | underflow {op : Op} : m.stack.length < op.pops → Performs m op (.failed .stackUnderflow m)

theorem perform_of_underflow {m : Machine} {op : Op} (h : m.stack.length < op.pops) :
    m.perform op = .failed .stackUnderflow m := by
  obtain ⟨pc, stack, slots, out, err⟩ := m
  cases op with
  | push | load | jump | nop => exact absurd h (Nat.not_lt_zero _)
  | binary op =>
      rcases stack with _ | ⟨rhs, _ | ⟨lhs, rest⟩⟩
      · rfl
      · rfl
      · exact absurd h (Nat.not_lt.mpr (Nat.le_add_left 2 _))
  | store | unary | jumpIf | print | exit =>
      cases stack with
      | nil => rfl
      | cons value rest => exact absurd h (Nat.not_lt.mpr (Nat.le_add_left 1 _))

theorem Performs.perform_eq {m : Machine} {op : Op} {outcome : Outcome} (h : Performs m op outcome) :
    m.perform op = outcome := by
  cases h with
  | push | jump | nop => rfl
  | underflow hfew => exact perform_of_underflow hfew
  | load hslot | loadUnknown hslot => rw [perform, hslot]
  | store hs hslot => rw [perform, hs]; exact if_pos hslot
  | storeUnknown hs hslot => rw [perform, hs]; exact if_neg hslot
  | unary hs => rw [perform, hs]
  | binary hs hvalue => simp only [perform, hs, hvalue]
  | divideByZero hs hvalue htrap => simp only [perform, hs, hvalue, htrap]
  | jumpIf hs hvalue => rw [perform, hs]; exact if_pos (bne_iff_ne.mpr hvalue)
  | fallThrough hs => rw [perform, hs]; rfl
  | print hs hout | printCut hs hout => simp only [perform, hs, hout]
  | exit hs hhalt => simp only [perform, hs, hhalt]

theorem exists_performs (m : Machine) (op : Op) : ∃ outcome, Performs m op outcome := by
  rcases Nat.lt_or_ge m.stack.length op.pops with hfew | henough
  · exact ⟨_, .underflow hfew⟩
  have hcons : 1 ≤ m.stack.length → ∃ value rest, m.stack = value :: rest := List.exists_cons_of_length_pos
  cases op with
  | push value => exact ⟨_, .push⟩
  | jump target => exact ⟨_, .jump⟩
  | nop => exact ⟨_, .nop⟩
  | load slot =>
      cases hslot : m.slots[slot.toNat]? with
      | none => exact ⟨_, .loadUnknown hslot⟩
      | some value => exact ⟨_, .load hslot⟩
  | store slot =>
      obtain ⟨value, rest, hs⟩ := hcons henough
      by_cases hslot : slot.toNat < m.slots.size
      · exact ⟨_, .store hs hslot⟩
      · exact ⟨_, .storeUnknown hs hslot⟩
  | unary op =>
      obtain ⟨value, rest, hs⟩ := hcons henough
      exact ⟨_, .unary hs⟩
  | binary op =>
      obtain ⟨rhs, more, hs⟩ := hcons (Nat.le_of_succ_le henough)
      rw [hs] at henough
      obtain ⟨lhs, rest, rfl⟩ := List.exists_cons_of_length_pos (Nat.le_of_succ_le_succ henough)
      cases hvalue : op.eval? lhs rhs with
      | none => exact ⟨_, .divideByZero hs hvalue rfl⟩
      | some value => exact ⟨_, .binary hs hvalue⟩
  | jumpIf target =>
      obtain ⟨value, rest, hs⟩ := hcons henough
      by_cases hvalue : value = 0
      · exact ⟨_, .fallThrough (hvalue ▸ hs)⟩
      · exact ⟨_, .jumpIf hs hvalue⟩
  | print ty =>
      obtain ⟨value, rest, hs⟩ := hcons henough
      obtain ⟨⟨out, complete⟩, hout⟩ : ∃ written, m.out.print (printed value ty) = written := ⟨_, rfl⟩
      cases complete with
      | false => exact ⟨_, .printCut hs hout⟩
      | true => exact ⟨_, .print hs hout⟩
  | exit =>
      obtain ⟨status, rest, hs⟩ := hcons henough
      exact ⟨_, .exit hs rfl⟩

/-- The rules say exactly what the machine does. -/
theorem performs_iff {m : Machine} {op : Op} {outcome : Outcome} :
    Performs m op outcome ↔ m.perform op = outcome := by
  refine ⟨Performs.perform_eq, ?_⟩
  rintro rfl
  obtain ⟨outcome, h⟩ := exists_performs m op
  rwa [h.perform_eq]

/-- Control goes on at the next operation or at the target of a transfer. -/
theorem pc_of_perform {m n : Machine} {op : Op} {addr : Nat} (hm : m.pc = addr + 1)
    (h : m.perform op = .running n) : n.pc ∈ op.successors addr := by
  rw [Op.mem_successors]
  cases performs_iff.mpr h with
  | jump | jumpIf => exact .inl ⟨_, rfl, rfl⟩
  | divideByZero _ _ htrap => exact absurd htrap (trap_ne_running _ _)
  | exit _ hhalt => exact absurd hhalt (halt_ne_running _ _ _)
  | _ => exact .inr ⟨rfl, hm⟩

theorem pc_of_step {ops : Array Op} {m n : Machine} (h : m.step ops = .running n) :
    ∃ op, ops[m.pc]? = some op ∧ n.pc ∈ op.successors m.pc := by
  cases ho : ops[m.pc]? with
  | none => simp [step, ho] at h
  | some op =>
      rw [step_of_get ho] at h
      exact ⟨op, rfl, pc_of_perform rfl h⟩

end Machine

/-- A sink that takes everything. -/
structure Sink.Reliable (sink : Sink) : Prop where
  room : sink.room = none
  flush : sink.flushFails = false

/-- A sink with more bytes behind those it has. -/
def Sink.append (sink : Sink) (data : Bytes) : Sink :=
  { sink with bytes := sink.bytes ++ data }

theorem Sink.Reliable.append {sink : Sink} (h : sink.Reliable) (data : Bytes) :
    (sink.append data).Reliable :=
  ⟨h.room, h.flush⟩

theorem Sink.print_of_reliable {sink : Sink} (h : sink.Reliable) (text : String) :
    sink.print text = (sink.append (Bytes.ofText text), true) := by
  simp only [Sink.print, Sink.write, Sink.append, h.room]

namespace Machine

/-- Both sinks take everything. -/
structure Reliable (machine : Machine) : Prop where
  out : machine.out.Reliable
  err : machine.err.Reliable

theorem halt_of_reliable {m : Machine} (h : m.out.Reliable) (status : Word) :
    m.halt status = .halted status m := by
  rw [halt, h.flush]
  rfl

theorem trap_of_reliable {m : Machine} (h : m.Reliable) :
    m.trap = .halted trapStatus { m with err := m.err.append (Bytes.ofText trapMessage) } := by
  rw [trap, h.out.flush, Sink.print_of_reliable h.err]
  exact halt_of_reliable (m := { m with err := m.err.append (Bytes.ofText trapMessage) }) h.out _

section
variable {ops : Array Op} {m : Machine}

theorem moves_nop (h : ops[m.pc]? = some .nop) : Moves (move ops) m (m.withPc (m.pc + 1)) :=
  moves_iff.mpr (step_of_get h)

theorem moves_jump {target : Addr} (h : ops[m.pc]? = some (.jump target)) :
    Moves (move ops) m (m.withPc target.toNat) :=
  moves_iff.mpr (step_of_get h)

theorem moves_push {value : Word} (h : ops[m.pc]? = some (.push value)) :
    Moves (move ops) m { m with pc := m.pc + 1, stack := value :: m.stack } :=
  moves_iff.mpr (step_of_get h)

theorem moves_unary {op : UnaryOp} {value : Word} {rest : List Word}
    (h : ops[m.pc]? = some (.unary op)) (hs : m.stack = value :: rest) :
    Moves (move ops) m { m with pc := m.pc + 1, stack := op.eval value :: rest } := by
  rw [moves_iff, step_of_get h]
  exact Performs.perform_eq (.unary hs)

theorem moves_binary {op : BinaryOp} {lhs rhs value : Word} {rest : List Word}
    (h : ops[m.pc]? = some (.binary op)) (hs : m.stack = rhs :: lhs :: rest)
    (hv : op.eval? lhs rhs = some value) :
    Moves (move ops) m { m with pc := m.pc + 1, stack := value :: rest } := by
  rw [moves_iff, step_of_get h]
  exact Performs.perform_eq (.binary hs hv)

theorem moves_load {slot : Slot} {value : Word} (h : ops[m.pc]? = some (.load slot))
    (hs : m.slots[slot.toNat]? = some value) :
    Moves (move ops) m { m with pc := m.pc + 1, stack := value :: m.stack } := by
  rw [moves_iff, step_of_get h]
  exact Performs.perform_eq (.load hs)

theorem moves_store {slot : Slot} {value : Word} {rest : List Word}
    (h : ops[m.pc]? = some (.store slot)) (hs : m.stack = value :: rest)
    (hslot : slot.toNat < m.slots.size) :
    Moves (move ops) m { m with
      pc := m.pc + 1, stack := rest, slots := m.slots.setIfInBounds slot.toNat value } := by
  rw [moves_iff, step_of_get h]
  exact Performs.perform_eq (.store hs hslot)

theorem moves_print {ty : Ty} {value : Word} {rest : List Word}
    (h : ops[m.pc]? = some (.print ty)) (hs : m.stack = value :: rest) (hm : m.out.Reliable) :
    Moves (move ops) m { m with
      pc := m.pc + 1, stack := rest, out := m.out.append (Bytes.ofText (printed value ty)) } := by
  rw [moves_iff, step_of_get h]
  exact Performs.perform_eq (.print hs (Sink.print_of_reliable hm _))

theorem ends_exit {status : Word} {rest : List Word} (h : ops[m.pc]? = some .exit)
    (hs : m.stack = status :: rest) (hm : m.out.Reliable) :
    Ends (move ops) m ⟨.ok status, m.out.bytes, m.err.bytes⟩ := by
  have hperforms : Performs (m.withPc (m.pc + 1)) .exit _ :=
    .exit hs (halt_of_reliable (m := { m with pc := m.pc + 1, stack := rest }) hm status)
  apply Ends.stop
  rw [move, step_of_get h, hperforms.perform_eq]
  rfl

theorem ends_trap {op : BinaryOp} {lhs rhs : Word} {rest : List Word}
    (h : ops[m.pc]? = some (.binary op)) (hs : m.stack = rhs :: lhs :: rest)
    (hv : op.eval? lhs rhs = none) (hm : m.Reliable) :
    Ends (move ops) m
      ⟨.ok trapStatus, m.out.bytes, m.err.bytes ++ Bytes.ofText trapMessage⟩ := by
  have hperforms : Performs (m.withPc (m.pc + 1)) (.binary op) _ := .divideByZero hs hv
    (trap_of_reliable (m := { m with pc := m.pc + 1, stack := rest }) ⟨hm.out, hm.err⟩)
  apply Ends.stop
  rw [move, step_of_get h, hperforms.perform_eq]
  rfl

theorem moves_jumpIf {target : Addr} {value : Word} {rest : List Word}
    (h : ops[m.pc]? = some (.jumpIf target)) (hs : m.stack = value :: rest) :
    Moves (move ops) m
      { m with pc := if value != 0 then target.toNat else m.pc + 1, stack := rest } := by
  rw [moves_iff, step_of_get h]
  by_cases hvalue : value = 0
  · subst hvalue
    exact Performs.perform_eq (.fallThrough hs)
  · rw [if_pos (bne_iff_ne.mpr hvalue)]
    exact Performs.perform_eq (.jumpIf hs hvalue)

end

end Machine

end GotoLang
