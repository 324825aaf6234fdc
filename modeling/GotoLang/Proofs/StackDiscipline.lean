import GotoLang.Proofs.ControlPaths

/-!
# Checked programs do not get stuck

The depths that the check finds are closed under control: an operation with a known depth finds as many
values as it takes and passes the depth it leaves to all its successors. So a machine that enters a
checked program always has as many values on its stack as the check found, at whatever operation
it stands and however it got there.
-/
namespace GotoLang

/-- The variable that an operation uses. -/
def Op.slot? : Op → Option Slot
  | load slot | store slot => some slot
  | _ => none

theorem Program.unknownSlot?_cons {count : Slot} {addr : Nat} {op : Op} {ops : List Op} :
    unknownSlot? count addr (op :: ops) = none ↔
      (∀ slot, op.slot? = some slot → slot < count) ∧ unknownSlot? count (addr + 1) ops = none := by
  have huse : ∀ slot : Slot, (if count ≤ slot then some (ProgramFault.unknownSlot addr slot)
      else unknownSlot? count (addr + 1) ops) = none ↔
        slot < count ∧ unknownSlot? count (addr + 1) ops = none := by
    intro slot
    by_cases h : count ≤ slot
    · simp [h, UInt32.not_lt.mpr h]
    · simp [h, UInt32.not_le.mp h]
  cases op <;> simp [unknownSlot?, Op.slot?, huse]

theorem Program.unknownSlot?_eq_none {count : Slot} {addr : Nat} {ops : List Op} :
    unknownSlot? count addr ops = none ↔
      ∀ op ∈ ops, ∀ slot, op.slot? = some slot → slot < count := by
  induction ops generalizing addr with
  | nil => simp [unknownSlot?]
  | cons op ops ih => rw [unknownSlot?_cons, ih, List.forall_mem_cons]

/-- Every slot that occurs in a program has a variable. -/
def Program.KnowsSlots (program : Program) : Prop :=
  ∀ op ∈ program.ops, ∀ slot, op.slot? = some slot → slot < program.slots.size.toUInt32

/-- What the check demands. -/
theorem Program.verify_iff {program : Program} : program.verify = .ok () ↔
    program.lines.size = program.ops.size ∧ program.KnowsSlots ∧
      ∃ depths, program.depths = .ok depths := by
  have hslots : unknownSlot? program.slots.size.toUInt32 0 program.ops.toList = none ↔
      program.KnowsSlots := by
    simp only [unknownSlot?_eq_none, Array.mem_toList_iff, KnowsSlots]
  rw [← hslots, verify]
  split
  · next hlines => simp [hlines]
  · next hlines =>
      split
      · next hunknown => simp [hunknown]
      · next hunknown =>
          cases program.depths with
          | error fault => simp [Except.map]
          | ok depths => simp [Except.map, not_not.mp hlines, hunknown]

/-- What a checked program has: a variable for each slot, and depths. -/
theorem Program.verify_spec {program : Program} (h : program.verify = .ok ()) :
    (∀ (addr : Nat) (op : Op) (slot : Slot), program.ops[addr]? = some op →
      op.slot? = some slot → slot.toNat < program.slots.size) ∧
    ∃ depths, program.depths = .ok depths := by
  obtain ⟨-, hslots, hdepths⟩ := verify_iff.mp h
  refine ⟨?_, hdepths⟩
  intro addr op slot ho hs
  have hlt := UInt32.lt_iff_toNat_lt.mp (hslots op (Array.mem_of_getElem? ho) slot hs)
  rw [Nat.toUInt32_eq, UInt32.toNat_ofNat'] at hlt
  exact hlt.trans_le (Nat.mod_le _ _)

/-- Only the sinks can be the cause of a fault. -/
def MachineFault.OfSink : MachineFault → Prop
  | outFailed _ | errFailed _ => True
  | _ => False

namespace Machine

/-- A fault is one of the sinks, and a machine that is still running has a stack of the promised height
and the promised number of slots. -/
def Outcome.Sound (height slots : Nat) : Outcome → Prop
  | running n => n.stack.length = height ∧ n.slots.size = slots
  | halted _ _ => True
  | failed fault _ => fault.OfSink

theorem halt_sound (m : Machine) (status : Word) (height slots : Nat) :
    (m.halt status).Sound height slots := by
  rw [halt]
  split <;> trivial

theorem trap_sound (m : Machine) (height slots : Nat) : m.trap.Sound height slots := by
  rw [trap]
  split
  · trivial
  · split
    · exact halt_sound _ _ _ _
    · trivial

/-- An operation that finds the values it takes and the slot it uses leaves the stack as high as its
effect says. -/
theorem perform_sound {m : Machine} {op : Op} (hpops : op.pops ≤ m.stack.length)
    (hslot : ∀ slot, op.slot? = some slot → slot.toNat < m.slots.size) :
    (m.perform op).Sound (m.stack.length - op.pops + op.pushes) m.slots.size := by
  generalize hperform : m.perform op = outcome
  cases performs_iff.mpr hperform with
  | push | load | jump | nop => exact ⟨rfl, rfl⟩
  | loadUnknown hnone => exact absurd (hslot _ rfl) (Nat.not_lt.mpr (Array.getElem?_eq_none_iff.mp hnone))
  | store hs =>
      rw [hs]
      exact ⟨rfl, Array.size_setIfInBounds⟩
  | storeUnknown _ hunknown => exact absurd (hslot _ rfl) hunknown
  | unary hs | binary hs | jumpIf hs | fallThrough hs | print hs =>
      rw [hs]
      exact ⟨rfl, rfl⟩
  | divideByZero _ _ htrap => exact htrap ▸ trap_sound _ _ _
  | printCut => trivial
  | exit _ hhalt => exact hhalt ▸ halt_sound _ _ _ _
  | underflow hfew => exact absurd hpops (Nat.not_le.mpr hfew)

/-- Where a machine in a checked program may be: at an operation whose depth is the height of its
stack, with a word for each variable. -/
structure Disciplined (program : Program) (depths : Flow.Depths) (m : Machine) : Prop where
  height : Flow.At depths m.pc m.stack.length
  slots : m.slots.size = program.slots.size

theorem Disciplined.step {program : Program} {depths : Flow.Depths}
    (hd : program.depths = .ok depths) {m : Machine} (h : Disciplined program depths m)
    (hslot : ∀ op slot, program.ops[m.pc]? = some op → op.slot? = some slot →
      slot.toNat < program.slots.size) :
    (∀ n, m.step program.ops = .running n → Disciplined program depths n) ∧
    ∀ fault n, m.step program.ops = .failed fault n → fault.OfSink := by
  obtain ⟨op, hpass⟩ := (Program.depths_spec hd).2.1 m.pc m.stack.length h.height
  have hsound := perform_sound (m := m.withPc (m.pc + 1)) hpass.enough fun slot hs => by
    have := hslot op slot hpass.get hs
    rwa [← h.slots] at this
  rw [← step_of_get hpass.get] at hsound
  constructor
  · intro n hn
    rw [hn] at hsound
    obtain ⟨op', hop', hnext⟩ := pc_of_step hn
    rw [hpass.get] at hop'
    cases hop'
    refine ⟨?_, hsound.2.trans h.slots⟩
    rw [hsound.1]
    exact (hpass.onward n.pc hnext).resolve_right List.not_mem_nil
  · intro fault n hn
    rw [hn] at hsound
    exact hsound

theorem disciplined_start {program : Program} {depths : Flow.Depths}
    (hd : program.depths = .ok depths) (out err : Sink) :
    Disciplined program depths (.start program out err) :=
  ⟨(Program.depths_spec hd).1, Array.size_replicate⟩

theorem Disciplined.run {program : Program} {depths : Flow.Depths}
    (hv : program.verify = .ok ()) (hd : program.depths = .ok depths) {m : Machine}
    (h : Disciplined program depths m) (steps : Nat) :
    (∀ n, run program.ops steps m = .running n → Disciplined program depths n) ∧
    ∀ fault n, run program.ops steps m = .failed fault n → fault.OfSink := by
  induction steps generalizing m with
  | zero =>
      refine ⟨fun n hn => ?_, fun fault n hn => ?_⟩
      · cases hn
        exact h
      · cases hn
  | succ steps ih =>
      obtain ⟨hrun, hfail⟩ := h.step hd ((Program.verify_spec hv).1 m.pc)
      rw [Machine.run]
      cases hs : m.step program.ops with
      | running n => exact ih (hrun n hs)
      | halted status n =>
          constructor
          · intro _ hn
            cases hn
          · intro _ _ hn
            cases hn
      | failed fault n =>
          constructor
          · intro _ hn
            cases hn
          · intro _ _ hn
            cases hn
            exact hfail fault n hs

/-- No fault is one of the sinks, and a machine that is still running has sinks that take everything. -/
def Outcome.Trusty : Outcome → Prop
  | running n => n.Reliable
  | halted _ _ => True
  | failed fault _ => ¬ fault.OfSink

theorem perform_trusty {m : Machine} (h : m.Reliable) (op : Op) : (m.perform op).Trusty := by
  generalize hperform : m.perform op = outcome
  cases performs_iff.mpr hperform with
  | loadUnknown | storeUnknown | underflow => exact id
  | @divideByZero _ _ _ rest _ _ _ htrap =>
      rw [← htrap, trap_of_reliable (m := { m with stack := rest }) ⟨h.out, h.err⟩]
      trivial
  | print _ hout =>
      rw [Sink.print_of_reliable h.out] at hout
      cases hout
      exact ⟨h.out.append _, h.err⟩
  | printCut _ hout =>
      rw [Sink.print_of_reliable h.out] at hout
      cases hout
  | @exit status rest _ _ hhalt =>
      rw [← hhalt, halt_of_reliable (m := { m with stack := rest }) h.out]
      trivial
  | _ => exact ⟨h.out, h.err⟩

theorem step_trusty {m : Machine} (h : m.Reliable) (ops : Array Op) : (m.step ops).Trusty := by
  rw [step]
  split
  · exact id
  · exact perform_trusty (m := m.withPc (m.pc + 1)) ⟨h.out, h.err⟩ _

theorem run_trusty {m : Machine} (h : m.Reliable) (ops : Array Op) (steps : Nat) :
    (run ops steps m).Trusty := by
  induction steps generalizing m with
  | zero => exact h
  | succ steps ih =>
      have hs := step_trusty h ops
      rw [run]
      cases ho : m.step ops with
      | running n =>
          rw [ho] at hs
          exact ih hs
      | halted status n => trivial
      | failed fault n =>
          rw [ho] at hs
          exact hs

end Machine

/-- However many steps a machine makes in a checked program, it stands at an operation, its stack is as
high as the check found there, and its next step is no fault of the program counter, the stack or the
slots. With sinks that take everything there is no fault at all. -/
theorem Program.verified_never_stuck (program : Program) (hv : program.verify = .ok ()) :
    ∃ depths, program.depths = .ok depths ∧ ∀ (out err : Sink) (steps : Nat),
      (∀ m, Machine.run program.ops steps (.start program out err) = .running m →
        m.pc < program.ops.size ∧ depths[m.pc]? = some (some m.stack.length) ∧
        ∀ fault n, m.step program.ops = .failed fault n → fault.OfSink) ∧
      (out.Reliable → err.Reliable → ∀ fault m,
        Machine.run program.ops steps (.start program out err) ≠ .failed fault m) := by
  obtain ⟨hslots, depths, hd⟩ := verify_spec hv
  refine ⟨depths, hd, fun out err steps => ?_⟩
  have hstart := Machine.disciplined_start hd out err
  obtain ⟨hrun, hfail⟩ := hstart.run hv hd steps
  constructor
  · intro m hm
    have hdisc := hrun m hm
    obtain ⟨op, hpass⟩ := (depths_spec hd).2.1 _ _ hdisc.height
    exact ⟨(Array.getElem?_eq_some_iff.mp hpass.get).1, hdisc.height,
      (hdisc.step hd (hslots m.pc)).2⟩
  · intro hout herr fault m hm
    have htrusty := Machine.run_trusty (m := .start program out err) ⟨hout, herr⟩ program.ops steps
    rw [hm] at htrusty
    exact htrusty (hfail fault m hm)

/-- A program that counts to three in a loop and falls out of it. -/
def Program.countToThree : Program where
  ops := #[.load 0, .push 1, .binary (.arith .add), .store 0, .load 0, .push 3,
    .binary (.cmp .lt), .jumpIf 0, .push 0, .exit]
  lines := #[1, 1, 1, 1, 2, 2, 2, 2, 3, 3]
  slots := #[⟨"i", .int⟩]

theorem Program.countToThree_never_stuck :
    countToThree.verify = .ok () ∧ ∀ steps fault m,
      Machine.run countToThree.ops steps (.start countToThree {} {}) ≠ .failed fault m := by
  have hok : countToThree.verify.isOk = true := by decide +kernel
  have hv : countToThree.verify = .ok () := by
    cases h : countToThree.verify with
    | ok value => rfl
    | error fault =>
        rw [h] at hok
        cases hok
  obtain ⟨_, _, h⟩ := verified_never_stuck countToThree hv
  exact ⟨hv, fun steps => (h {} {} steps).2 ⟨rfl, rfl⟩ ⟨rfl, rfl⟩⟩

end GotoLang
