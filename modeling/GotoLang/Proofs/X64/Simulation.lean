import GotoLang.Proofs.Lowering.Typing
import GotoLang.Proofs.StackDiscipline
import GotoLang.Proofs.X64.Operations

/-!
# Machine code follows the stack machine

The processor and the stack machine meet at the operations: whenever the stack machine is about to carry
out one, the processor is at the label of that operation, with the same evaluation stack, the same
variables and the same output. One operation later they meet again, or both have come to the same end.
-/
namespace GotoLang.X64

open CodeGeneration

/-- A compiled program in memory, with a stack that is large enough for every operation. -/
structure Process.Hosts (process : Process) (stackBased : Bool) (program : Program)
    (depths : Flow.Depths) (activation : Activation) : Prop where
  compiled : process.Compiled stackBased program depths
  known : program.depths = .ok depths
  high : process.high < 18446744073709551616
  room : ∀ {addr depth : Nat}, Flow.At depths addr depth →
    process.low + 8 * (depth + (activation.pad.length + (program.slots.size + 2))) + 48 ≤ process.high

/-- The processor and the stack machine are before the same operation. -/
structure Cpu.Agrees (process : Process) (stackBased : Bool) (activation : Activation) (m : Machine)
    (cpu : Cpu) : Prop where
  rip : cpu.rip = process.label (.op m.pc)
  carries : cpu.Carries process stackBased activation m.slots m.out.bytes m.err.bytes m.stack

/-- Both are before an operation that is known. -/
structure Cpu.Ready (process : Process) (stackBased : Bool) (program : Program) (depths : Flow.Depths)
    (activation : Activation) (m : Machine) (cpu : Cpu) (op : Op) : Prop where
  host : process.Hosts stackBased program depths activation
  agrees : cpu.Agrees process stackBased activation m
  disciplined : m.Disciplined program depths
  reliable : m.Reliable
  get : program.ops[m.pc]? = some op

/-- One operation later both are before the same operation again, or both have come to the same end. -/
def Meets (process : Process) (stackBased : Bool) (program : Program) (activation : Activation)
    (m : Machine) (cpu : Cpu) : Prop :=
  (∃ n, Moves (Machine.move program.ops) m n ∧
    process.Advances cpu (Cpu.Agrees process stackBased activation n)) ∨
  ∃ status out err, Ends (Machine.move program.ops) m ⟨.ok status, out, err⟩ ∧
    process.Leads cpu (Cpu.Returned process activation status out err)

variable {process : Process} {stackBased : Bool} {program : Program} {depths : Flow.Depths}
  {activation : Activation} {m : Machine} {cpu : Cpu}

namespace Process.Hosts

theorem prints (host : process.Hosts stackBased program depths activation) {addr : Nat} {ty : Ty}
    (hop : program.ops[addr]? = some (.print ty)) : process.Prints ty := by
  have hmem := Array.mem_of_getElem? hop
  cases ty with
  | int => exact prints_int host.high (host.compiled.printInt (Array.contains_iff_mem.mpr hmem))
  | bool =>
      obtain ⟨hroutine, htrue, hfalse⟩ := host.compiled.printBool (Array.contains_iff_mem.mpr hmem)
      exact prints_bool host.high hroutine htrue hfalse

theorem trap (host : process.Hosts stackBased program depths activation) {addr : Nat} {op : BinaryOp}
    {remainder : Bool} (hop : program.ops[addr]? = some (.binary op))
    (hdivides : divides? op = some remainder) :
    process.Contains Routines.trap ∧
      process.Contains (Routines.datum .trapText Machine.trapMessage) := by
  refine host.compiled.trap (Array.any_eq_true'.mpr ⟨_, Array.mem_of_getElem? hop, ?_⟩)
  simp [divides, hdivides]

end Process.Hosts

namespace Cpu.Ready

theorem code {op : Op} (h : Ready process stackBased program depths activation m cpu op) :
    ∃ code last, body stackBased m.pc m.stack.length op = .ok code ∧
      process.Stands code cpu.rip last ∧
      (op.isTerminator = false → last = process.label (.op (m.pc + 1))) := by
  obtain ⟨code, last, hcode, hstands, hlast⟩ :=
    h.host.compiled.operation h.get h.disciplined.height
  rw [← h.agrees.rip] at hstands
  refine ⟨code, last, hcode, hstands, fun hnext => hlast ?_⟩
  obtain ⟨-, hclosed, hsize⟩ := Program.depths_spec h.host.known
  obtain ⟨op', hpasses⟩ := hclosed _ _ h.disciplined.height
  have hsame := hpasses.get.symm.trans h.get
  cases hsame
  have hat := hpasses.onward (m.pc + 1) (Op.mem_successors.mpr (.inr ⟨hnext, rfl⟩))
  rw [← hsize]
  exact (Array.getElem?_eq_some_iff.mp (hat.resolve_right List.not_mem_nil)).1

theorem room {op : Op} (h : Ready process stackBased program depths activation m cpu op)
    {rest : List Word} (hrest : rest.length ≤ m.stack.length) {count : Nat} (hcount : count ≤ 48) :
    Cpu.Stacked.Room process activation m.slots rest count := by
  have hroom := h.host.room h.disciplined.height
  rw [Cpu.Stacked.Room, activation.length_words, h.disciplined.slots]
  omega

theorem push {value : Word}
    (h : Ready process stackBased program depths activation m cpu (.push value)) :
    Meets process stackBased program activation m cpu := by
  obtain ⟨code, last, hcode, hstands, hlast⟩ := h.code
  have hshape : code = Code.script (if stackBased then [.movWord .rax value, .push .rax]
      else onlyIf (0 < m.stack.length) [.push .rax] ++ [.movWord .rax value]) := by
    cases stackBased <;> cases hcode <;> rfl
  rw [hshape] at hstands
  refine .inl ⟨_, Machine.moves_push h.get, ?_⟩
  refine (advances_value (loads_word value) h.agrees.carries (h.room (Nat.le_refl _) (by decide))
    hstands).mono ?_
  rintro cpu' ⟨hrip, hcarries⟩
  exact ⟨hrip.trans (hlast rfl), hcarries⟩

theorem load {slot : Slot} {value : Word}
    (h : Ready process stackBased program depths activation m cpu (.load slot))
    (hvalue : m.slots[slot.toNat]? = some value) :
    Meets process stackBased program activation m cpu := by
  obtain ⟨code, last, hcode, hstands, hlast⟩ := h.code
  have hshape : code = Code.script (if stackBased then [.load .rax (8 * (slot.toNat + 1)), .push .rax]
      else onlyIf (0 < m.stack.length) [.push .rax] ++ [.load .rax (8 * (slot.toNat + 1))]) := by
    cases stackBased
    all_goals
      obtain ⟨offset, hoffset, hcode⟩ := except_bind_eq_ok.mp hcode
      cases hcode
      rw [Frame.offset_eq_ok hoffset]
      rfl
  rw [hshape] at hstands
  refine .inl ⟨_, Machine.moves_load h.get hvalue, ?_⟩
  refine (advances_value (loads_slot hvalue) h.agrees.carries (h.room (Nat.le_refl _) (by decide))
    hstands).mono ?_
  rintro cpu' ⟨hrip, hcarries⟩
  exact ⟨hrip.trans (hlast rfl), hcarries⟩

theorem store {slot : Slot} {value : Word} {rest : List Word}
    (h : Ready process stackBased program depths activation m cpu (.store slot))
    (hs : m.stack = value :: rest) (hslot : slot.toNat < m.slots.size) :
    Meets process stackBased program activation m cpu := by
  obtain ⟨code, last, hcode, hstands, hlast⟩ := h.code
  have hcarries := h.agrees.carries
  rw [hs] at hcode hcarries
  have hshape : code = Code.script (if stackBased then
      [.pop .rax, .store (8 * (slot.toNat + 1)) .rax]
      else [.store (8 * (slot.toNat + 1)) .rax] ++
        onlyIf (1 < (value :: rest).length) [.pop .rax]) := by
    cases stackBased
    all_goals
      obtain ⟨offset, hoffset, hcode⟩ := except_bind_eq_ok.mp hcode
      cases hcode
      rw [Frame.offset_eq_ok hoffset]
      rfl
  rw [hshape] at hstands
  refine .inl ⟨_, Machine.moves_store h.get hs hslot, ?_⟩
  refine (advances_store hslot hcarries h.host.high hstands).mono ?_
  rintro cpu' ⟨hrip, hcarries⟩
  exact ⟨hrip.trans (hlast rfl), hcarries⟩

theorem unary {op : UnaryOp} {value : Word} {rest : List Word}
    (h : Ready process stackBased program depths activation m cpu (.unary op))
    (hs : m.stack = value :: rest) (htruth : op = .not → Ty.Has .bool value) :
    Meets process stackBased program activation m cpu := by
  obtain ⟨code, last, hcode, hstands, hlast⟩ := h.code
  have hcarries := h.agrees.carries
  rw [hs] at hcode hcarries
  have hshape : code = Code.script (onlyIf stackBased [.pop .rax] ++ CodeGeneration.unary op ++
      onlyIf stackBased [.push .rax]) := by
    cases stackBased <;> cases hcode
    · rw [onlyIf, onlyIf, if_neg Bool.false_ne_true, if_neg Bool.false_ne_true, List.nil_append,
        List.append_nil]
    · rfl
  rw [hshape] at hstands
  refine .inl ⟨_, Machine.moves_unary h.get hs, ?_⟩
  refine (advances_unaryOp htruth hcarries h.host.high (h.room (by rw [hs]; simp) (by decide))
    hstands).mono ?_
  rintro cpu' ⟨hrip, hcarries⟩
  exact ⟨hrip.trans (hlast rfl), hcarries⟩

theorem binary {op : BinaryOp} {lhs rhs : Word} {rest : List Word}
    (h : Ready process stackBased program depths activation m cpu (.binary op))
    (hs : m.stack = rhs :: lhs :: rest) (hop : divides? op = none)
    (htruth : ∀ logic, op = .logic logic → Ty.Has .bool lhs ∧ Ty.Has .bool rhs) :
    Meets process stackBased program activation m cpu := by
  obtain ⟨code, last, hcode, hstands, hlast⟩ := h.code
  have hcarries := h.agrees.carries
  rw [hs] at hcode hcarries
  have hshape : code = Code.script (onlyIf stackBased [.pop .rax] ++ [.pop .rcx] ++ combine op ++
      onlyIf stackBased [.push .rax]) := by
    cases stackBased
    all_goals
      simp only [body, cached, plain, hop] at hcode
      cases hcode
    · rw [onlyIf, onlyIf, if_neg Bool.false_ne_true, if_neg Bool.false_ne_true, List.nil_append,
        List.append_nil]
    · rfl
  have hvalue : ∃ value, op.eval? lhs rhs = some value := by
    rcases op with (_ | _ | _ | _ | _) | _ | _
    all_goals first | exact ⟨_, rfl⟩ | cases hop
  obtain ⟨value, hvalue⟩ := hvalue
  rw [hshape] at hstands
  refine .inl ⟨_, Machine.moves_binary h.get hs hvalue, ?_⟩
  refine (advances_binaryOp hop hvalue htruth hcarries h.host.high
    (h.room (by rw [hs]; simp; omega) (by decide)) hstands).mono ?_
  rintro cpu' ⟨hrip, hcarries⟩
  exact ⟨hrip.trans (hlast rfl), hcarries⟩

/-- The processor is at the end of the program when the stack machine stops. -/
theorem leave {op : Op} (h : Ready process stackBased program depths activation m cpu op)
    {slots : Array Word} {stack : List Word} {status : Word} {out err : Bytes}
    (hleads : process.Leads cpu fun cpu' => cpu'.rip = process.label .leave ∧
      cpu'.register .rax = status.toBitVec ∧ cpu'.Stacked process activation slots out err stack) :
    process.Leads cpu (Cpu.Returned process activation status out err) := by
  refine hleads.andThen ?_
  rintro cpu' ⟨hrip, hrax, hstacked⟩
  exact leads_epilogue h.host.compiled.epilogue h.host.high hrip hrax hstacked

theorem division {op : BinaryOp} {remainder : Bool} {lhs rhs : Word} {rest : List Word}
    (h : Ready process stackBased program depths activation m cpu (.binary op))
    (hs : m.stack = rhs :: lhs :: rest) (hop : divides? op = some remainder) :
    Meets process stackBased program activation m cpu := by
  obtain ⟨code, last, hcode, hstands, hlast⟩ := h.code
  have hcarries := h.agrees.carries
  rw [hs] at hcode hcarries
  have hshape : code = Code.script (if stackBased then [.pop .rcx, .pop .rax]
      else [.mov .rcx .rax, .pop .rax]) ++ CodeGeneration.division m.pc remainder ++
      Code.script (onlyIf stackBased [.push .rax]) := by
    cases stackBased
    all_goals
      simp only [body, cached, plain, hop] at hcode
      cases hcode
    · exact (List.append_nil _).symm
    · rfl
  have heval := eval?_of_divides? hop lhs rhs
  rw [hshape] at hstands
  by_cases hzero : rhs = 0
  · rw [if_pos hzero] at heval
    obtain ⟨htrap, htext⟩ := h.host.trap h.get hop
    have htrapped := (leads_divisionByZero hzero hcarries h.host.high hstands).andThen
      fun cpu' h => leads_trapRoutine htrap htext h.1 h.2
    exact .inr ⟨_, _, _, Machine.ends_trap h.get hs heval h.reliable, h.leave htrapped⟩
  · rw [if_neg hzero] at heval
    refine .inl ⟨_, Machine.moves_binary h.get hs heval, ?_⟩
    refine (advances_divisionOp hzero hcarries h.host.high
      (h.room (by rw [hs]; simp; omega) (by decide)) hstands).mono ?_
    rintro cpu' ⟨hrip, hcarries⟩
    exact ⟨hrip.trans (hlast rfl), hcarries⟩

theorem jump {target : Addr}
    (h : Ready process stackBased program depths activation m cpu (.jump target)) :
    Meets process stackBased program activation m cpu := by
  obtain ⟨code, last, hcode, hstands, -⟩ := h.code
  have hshape : code = Code.script [.jump (.op target.toNat)] := by
    cases stackBased <;> cases hcode <;> rfl
  rw [hshape] at hstands
  obtain ⟨next, hhas, -⟩ := hstands
  refine .inl ⟨_, Machine.moves_jump h.get, .head (hhas.moves rfl) (.now ⟨rfl, ?_, ?_⟩)⟩
  · exact h.agrees.carries.stacked.of_keeps ⟨rfl, rfl, rfl, rfl, rfl⟩
  · exact h.agrees.carries.top

theorem nop (h : Ready process stackBased program depths activation m cpu .nop) :
    Meets process stackBased program activation m cpu := by
  obtain ⟨code, last, hcode, hstands, hlast⟩ := h.code
  have hshape : code = Code.script [.nop] := by
    cases stackBased <;> cases hcode <;> rfl
  rw [hshape] at hstands
  obtain ⟨next, hhas, hnext⟩ := hstands
  refine .inl ⟨_, Machine.moves_nop h.get, .head (hhas.moves rfl) (.now ⟨?_, ?_, ?_⟩)⟩
  · exact hnext.trans (hlast rfl)
  · exact h.agrees.carries.stacked.of_keeps ⟨rfl, rfl, rfl, rfl, rfl⟩
  · exact h.agrees.carries.top

theorem jumpIf {target : Addr} {value : Word} {rest : List Word}
    (h : Ready process stackBased program depths activation m cpu (.jumpIf target))
    (hs : m.stack = value :: rest) : Meets process stackBased program activation m cpu := by
  obtain ⟨code, last, hcode, hstands, hlast⟩ := h.code
  have hcarries := h.agrees.carries
  rw [hs] at hcode hcarries
  have hshape : code = Code.script (if stackBased then [.pop .rax, .alu .test .rax .rax]
      else [.alu .test .rax .rax] ++ onlyIf (1 < (value :: rest).length) [.pop .rax]) ++
      Code.script [.jumpIf .notZero (.op target.toNat)] := by
    cases stackBased <;> cases hcode
    · exact Code.script_append _ _
    · rfl
  rw [hshape] at hstands
  refine .inl ⟨_, Machine.moves_jumpIf h.get hs, ?_⟩
  refine (advances_jumpIf hcarries h.host.high hstands).mono ?_
  rintro cpu' ⟨hrip, hcarries⟩
  refine ⟨hrip.trans ?_, hcarries⟩
  rw [hlast rfl]
  split <;> rfl

theorem print {ty : Ty} {value : Word} {rest : List Word}
    (h : Ready process stackBased program depths activation m cpu (.print ty))
    (hs : m.stack = value :: rest) : Meets process stackBased program activation m cpu := by
  obtain ⟨code, last, hcode, hstands, hlast⟩ := h.code
  have hcarries := h.agrees.carries
  rw [hs] at hcode hcarries
  have hshape : code = Code.script (if stackBased then [.pop .rdi, .call (printer ty)]
      else [.mov .rdi .rax, .call (printer ty)] ++
        onlyIf (1 < (value :: rest).length) [.pop .rax]) := by
    cases stackBased <;> cases hcode <;> rfl
  rw [hshape] at hstands
  refine .inl ⟨_, Machine.moves_print h.get hs h.reliable.out, ?_⟩
  refine (advances_print (h.host.prints h.get) hcarries h.host.high
    (h.room (by rw [hs]; simp) (Nat.le_refl 48)) hstands).mono ?_
  rintro cpu' ⟨hrip, hcarries⟩
  exact ⟨hrip.trans (hlast rfl), hcarries⟩

theorem exit {status : Word} {rest : List Word}
    (h : Ready process stackBased program depths activation m cpu .exit)
    (hs : m.stack = status :: rest) : Meets process stackBased program activation m cpu := by
  obtain ⟨code, last, hcode, hstands, -⟩ := h.code
  have hcarries := h.agrees.carries
  rw [hs] at hcode hcarries
  have hshape : code = Code.script (onlyIf stackBased [.pop .rax] ++ [.jump .leave]) := by
    cases stackBased <;> cases hcode <;> rfl
  rw [hshape] at hstands
  have hexited := leads_exit hcarries h.host.high hstands
  exact .inr ⟨_, _, _, Machine.ends_exit h.get hs h.reliable.out, h.leave hexited⟩

end Cpu.Ready

/-- The processor follows a stack machine that a typing describes. -/
structure Cpu.Follows (process : Process) (stackBased : Bool) (program : Program)
    (depths : Flow.Depths) (activation : Activation) (typing : Typing Ty) (m : Machine) (cpu : Cpu) :
    Prop where
  agrees : cpu.Agrees process stackBased activation m
  disciplined : m.Disciplined program depths
  reliable : m.Reliable
  fits : ∃ st, m.Fits (Ty.kinds program.slots) typing st

namespace Cpu.Follows
variable {typing : Typing Ty}

theorem meets (h : Follows process stackBased program depths activation typing m cpu)
    (host : process.Hosts stackBased program depths activation)
    (hfits : typing.Fits (Ty.kinds program.slots) program.ops) :
    Meets process stackBased program activation m cpu := by
  obtain ⟨st, hplace, hstack, hslots⟩ := h.fits
  obtain ⟨op, st', hop, ht, -⟩ := hfits.flow m.pc st hplace
  have hready : Ready process stackBased program depths activation m cpu op :=
    ⟨host, h.agrees, h.disciplined, h.reliable, hop⟩
  generalize hs : m.stack = stack at hstack
  cases ht with
  | push _ => exact hready.push
  | load hk =>
      obtain ⟨value, hvalue, -⟩ := hslots _ _ hk
      exact hready.load hvalue
  | store hk =>
      obtain ⟨old, hold, -⟩ := hslots _ _ hk
      cases hstack with
      | cons _ _ => exact hready.store hs (Array.getElem?_eq_some_iff.mp hold).1
  | unary hk =>
      obtain ⟨rfl, -⟩ := hk
      cases hstack with
      | cons hvalue _ =>
          refine hready.unary hs fun hnot => ?_
          subst hnot
          exact hvalue
  | binary hk =>
      obtain ⟨haccepts, -⟩ := hk
      cases hstack with
      | cons hrhs hrest =>
      cases hrest with
      | cons hlhs _ =>
          cases hdivides : divides? _ with
          | some remainder => exact hready.division hs hdivides
          | none =>
              refine hready.binary hs hdivides fun logic hlogic => ?_
              subst hlogic
              obtain ⟨rfl, rfl⟩ := of_decide_eq_true haccepts
              exact ⟨hlhs, hrhs⟩
  | jump => exact hready.jump
  | jumpIf _ =>
      cases hstack with
      | cons _ _ => exact hready.jumpIf hs
  | print _ =>
      cases hstack with
      | cons _ _ => exact hready.print hs
  | exit _ =>
      cases hstack with
      | cons _ _ => exact hready.exit hs
  | nop => exact hready.nop

/-- What a typed program uses are its variables. -/
theorem slot_lt {slots : Array Variable} {op : Op} {st st' : List Ty}
    (ht : op.Typed (Ty.kinds slots) st st') {slot : Slot} (hslot : op.slot? = some slot) :
    slot.toNat < slots.size := by
  have hlt : ∀ k, (Ty.kinds slots).slot slot = some k → slot.toNat < slots.size := by
    intro k hk
    obtain ⟨entry, hentry, -⟩ := Option.map_eq_some_iff.mp hk
    exact (Array.getElem?_eq_some_iff.mp hentry).1
  cases ht with
  | load hk =>
      cases hslot
      exact hlt _ hk
  | store hk =>
      cases hslot
      exact hlt _ hk
  | _ => cases hslot

theorem step (h : Follows process stackBased program depths activation typing m cpu)
    (hdepths : program.depths = .ok depths)
    (hfits : typing.Fits (Ty.kinds program.slots) program.ops) {n : Machine} {cpu' : Cpu}
    (hn : Moves (Machine.move program.ops) m n)
    (hagrees : cpu'.Agrees process stackBased activation n) :
    Follows process stackBased program depths activation typing n cpu' := by
  rw [Machine.moves_iff] at hn
  obtain ⟨st, hst⟩ := h.fits
  have hslot : ∀ op slot, program.ops[m.pc]? = some op → op.slot? = some slot →
      slot.toNat < program.slots.size := by
    intro op slot hop hslot
    obtain ⟨st', ht, -⟩ := hfits.typed hst.place hop
    exact slot_lt ht hslot
  have hreliable := Machine.step_trusty h.reliable program.ops
  rw [hn] at hreliable
  exact ⟨hagrees, (h.disciplined.step hdepths hslot).1 n hn, hreliable, hst.step hfits hn⟩

end Cpu.Follows

/-- The stack machine stopped with a status, and the processor returned with it. -/
def EndsAlike (process : Process) (activation : Activation) (ending : Ending) (cpu : Cpu) : Prop :=
  ∃ status out err, ending = ⟨.ok status, out, err⟩ ∧
    Cpu.Returned process activation status out err cpu

theorem following (host : process.Hosts stackBased program depths activation) {typing : Typing Ty}
    (hfits : typing.Fits (Ty.kinds program.slots) program.ops) :
    Following (Machine.move program.ops) (Cpu.step process) (EndsAlike process activation)
      (Cpu.Follows process stackBased program depths activation typing) := by
  intro m cpu h
  rcases h.meets host hfits with ⟨n, hn, cpu', hcpu', hagrees⟩ |
    ⟨status, out, err, hends, cpu', hcpu', hreturned⟩
  · exact .inr ⟨n, cpu', .single hn, hcpu', h.step host.known hfits hn hagrees⟩
  · exact .inl ⟨_, cpu', hends, hcpu', status, out, err, rfl, hreturned⟩

/-- While the stack machine goes on, the processor keeps up with it. -/
theorem Cpu.Follows.keepsUp {typing : Typing Ty}
    (host : process.Hosts stackBased program depths activation)
    (hfits : typing.Fits (Ty.kinds program.slots) program.ops)
    (h : Cpu.Follows process stackBased program depths activation typing m cpu)
    (hforever : Diverges (Machine.move program.ops) m) {n : Machine}
    (hn : Relation.ReflTransGen (Moves (Machine.move program.ops)) m n) :
    process.Leads cpu (Cpu.Follows process stackBased program depths activation typing n) := by
  induction hn with
  | refl => exact .now h
  | tail hreached hmove ih =>
      obtain ⟨cpu', hcpu', hfollows⟩ := ih
      rcases hfollows.meets host hfits with ⟨n', hn', cpu'', hcpu'', hagrees⟩ |
        ⟨status, out, err, hends, -⟩
      · obtain rfl := hn'.unique hmove
        exact ⟨cpu'', hcpu'.trans hcpu''.to_reflTransGen,
          hfollows.step host.known hfits hn' hagrees⟩
      · exact absurd (hends.before hreached) (diverges_iff_not_ends.mp hforever _)

end GotoLang.X64
