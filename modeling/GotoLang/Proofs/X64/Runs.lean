import GotoLang.Proofs.X64.Compiled

/-!
# Runs of the processor

A run is a sequence of instructions that were carried out, each in some state. What a piece of code does
on its way is said of these events: which jumps it takes, where it stores bytes and which system calls it
makes. A run never comes to a fault, and memory changes only where it stores.
-/
namespace GotoLang.X64

namespace Cpu
variable {cpu : Cpu} {process : Process} {test : Test} {target next : BitVec 64} {flags : Flags}

theorem perform_jumpIf_taken (hflags : cpu.flags = some flags) (hpasses : flags.passes test = true) :
    (cpu.goto next).perform process (.jumpIf test target) = .next (cpu.goto target) := by
  have hflags' : (cpu.goto next).flags = some flags := hflags
  simp only [perform, hflags', hpasses, if_true]
  rfl

theorem perform_jumpIf_passed (hflags : cpu.flags = some flags) (hpasses : flags.passes test = false) :
    (cpu.goto next).perform process (.jumpIf test target) = .next (cpu.goto next) := by
  have hflags' : (cpu.goto next).flags = some flags := hflags
  simp only [perform, hflags', hpasses, Bool.false_eq_true, if_false]

end Cpu

namespace Process
variable {process : Process} {cpu cpu' : Cpu} {P Q : Cpu → Prop}

/-- The processor gets from a state to one with some property. -/
def Leads (process : Process) (cpu : Cpu) (Q : Cpu → Prop) : Prop :=
  ∃ cpu', Relation.ReflTransGen (Moves (Cpu.step process)) cpu cpu' ∧ Q cpu'

/-- The same in at least one step. -/
def Advances (process : Process) (cpu : Cpu) (Q : Cpu → Prop) : Prop :=
  ∃ cpu', Relation.TransGen (Moves (Cpu.step process)) cpu cpu' ∧ Q cpu'

theorem Has.moves {instr : Instr (BitVec 64)} {next : BitVec 64} (h : process.Has cpu.rip instr next)
    (hdo : (cpu.goto next).perform process instr = .next cpu') :
    Moves (Cpu.step process) cpu cpu' := by
  rw [Moves, Cpu.step, h.fetch]
  exact hdo

theorem Leads.now (h : Q cpu) : process.Leads cpu Q :=
  ⟨cpu, .refl, h⟩

theorem Leads.head (h : Moves (Cpu.step process) cpu cpu') (hrest : process.Leads cpu' Q) :
    process.Leads cpu Q := by
  obtain ⟨final, hfinal, hQ⟩ := hrest
  exact ⟨final, .head h hfinal, hQ⟩

theorem Leads.step {instr : Instr (BitVec 64)} {next : BitVec 64} (h : process.Has cpu.rip instr next)
    (hdo : (cpu.goto next).perform process instr = .next cpu') (hrest : process.Leads cpu' Q) :
    process.Leads cpu Q :=
  .head (h.moves hdo) hrest

theorem Leads.taken {test : Test} {target next : BitVec 64} {flags : Flags}
    (h : process.Has cpu.rip (.jumpIf test target) next) (hflags : cpu.flags = some flags)
    (hpasses : flags.passes test = true) (hrest : process.Leads (cpu.goto target) Q) :
    process.Leads cpu Q :=
  .step h (Cpu.perform_jumpIf_taken hflags hpasses) hrest

theorem Leads.passed {test : Test} {target next : BitVec 64} {flags : Flags}
    (h : process.Has cpu.rip (.jumpIf test target) next) (hflags : cpu.flags = some flags)
    (hpasses : flags.passes test = false) (hrest : process.Leads (cpu.goto next) Q) :
    process.Leads cpu Q :=
  .step h (Cpu.perform_jumpIf_passed hflags hpasses) hrest

theorem Leads.mono (h : process.Leads cpu P) (hmono : ∀ cpu', P cpu' → Q cpu') :
    process.Leads cpu Q := by
  obtain ⟨final, hfinal, hP⟩ := h
  exact ⟨final, hfinal, hmono final hP⟩

theorem Leads.andThen (h : process.Leads cpu P) (hrest : ∀ cpu', P cpu' → process.Leads cpu' Q) :
    process.Leads cpu Q := by
  obtain ⟨middle, hmiddle, hP⟩ := h
  obtain ⟨final, hfinal, hQ⟩ := hrest middle hP
  exact ⟨final, hmiddle.trans hfinal, hQ⟩

theorem Advances.head (h : Moves (Cpu.step process) cpu cpu') (hrest : process.Leads cpu' Q) :
    process.Advances cpu Q := by
  obtain ⟨final, hfinal, hQ⟩ := hrest
  exact ⟨final, .head' h hfinal, hQ⟩

theorem Advances.leads (h : process.Advances cpu Q) : process.Leads cpu Q := by
  obtain ⟨final, hfinal, hQ⟩ := h
  exact ⟨final, hfinal.to_reflTransGen, hQ⟩

theorem Advances.mono (h : process.Advances cpu P) (hmono : ∀ cpu', P cpu' → Q cpu') :
    process.Advances cpu Q := by
  obtain ⟨final, hfinal, hP⟩ := h
  exact ⟨final, hfinal, hmono final hP⟩

theorem Advances.andThen (h : process.Advances cpu P)
    (hrest : ∀ cpu', P cpu' → process.Leads cpu' Q) : process.Advances cpu Q := by
  obtain ⟨middle, hmiddle, hP⟩ := h
  obtain ⟨final, hfinal, hQ⟩ := hrest middle hP
  exact ⟨final, hmiddle.trans_left hfinal, hQ⟩

theorem Leads.advance (h : process.Leads cpu P) (hrest : ∀ cpu', P cpu' → process.Advances cpu' Q) :
    process.Advances cpu Q := by
  obtain ⟨middle, hmiddle, hP⟩ := h
  obtain ⟨final, hfinal, hQ⟩ := hrest middle hP
  exact ⟨final, .trans_right hmiddle hfinal, hQ⟩

end Process

/-- An instruction that is carried out, and the state it is carried out in. -/
structure Event where
  cpu : Cpu
  instr : Instr (BitVec 64)

namespace Event

/-- The instruction is one of a script. -/
def PartOf (process : Process) (script : Script) (event : Event) : Prop :=
  ∃ instr, .emit instr ∈ script ∧ event.instr = instr.map process.label

/-- Where a jump goes, if it is taken. -/
def jump? (event : Event) : Option (BitVec 64) :=
  match event.instr with
  | .jump target => some target
  | .jumpIf test target => if event.cpu.flags.any (·.passes test) then some target else none
  | _ => none

/-- The address of the first byte that is stored, and the number of bytes. -/
def stores? (event : Event) : Option (Nat × Nat) :=
  match event.instr with
  | .store below _ => some ((event.cpu.register .rbp - .ofNat 64 below).toNat, 8)
  | .storeByte => some ((event.cpu.register .rsi).toNat, 1)
  | .push _ | .call _ => some ((event.cpu.register .rsp - 8).toNat, 8)
  | _ => none

/-- The number of a system call, its first argument and the bytes that it is given. -/
def systemCall? (process : Process) (event : Event) :
    Option (BitVec 64 × BitVec 64 × Option (List UInt8)) :=
  match event.instr with
  | .syscall => some (event.cpu.register .rax, event.cpu.register .rdi,
      event.cpu.buffer? process (event.cpu.register .rsi).toNat (event.cpu.register .rdx).toNat)
  | _ => none

/-- All that is stored lies between two addresses. -/
def StoresWithin (low high : Nat) (event : Event) : Prop :=
  ∀ addr count, event.stores? = some (addr, count) → low ≤ addr ∧ addr + count ≤ high

/-- An address is not among the bytes that are stored. -/
def Spares (x : Nat) (event : Event) : Prop :=
  ∀ addr count, event.stores? = some (addr, count) → x < addr ∨ addr + count ≤ x

section
variable {cpu : Cpu} {test : Test} {target : BitVec 64} {flags : Flags}

theorem jump?_of_taken (hflags : cpu.flags = some flags) (hpasses : flags.passes test = true) :
    jump? ⟨cpu, .jumpIf test target⟩ = some target := by
  simp only [jump?, hflags, Option.any_some, hpasses, if_true]

theorem jump?_of_passed (hflags : cpu.flags = some flags) (hpasses : flags.passes test = false) :
    jump? ⟨cpu, .jumpIf test target⟩ = none := by
  simp only [jump?, hflags, Option.any_some, hpasses, Bool.false_eq_true, if_false]

end

theorem partOf_of_mem {process : Process} {script : Script} {instr : Instr CodeLabel} {cpu : Cpu}
    (h : .emit instr ∈ script) : PartOf process script ⟨cpu, instr.map process.label⟩ :=
  ⟨instr, h, rfl⟩

theorem StoresWithin.spares {low high x : Nat} {event : Event} (h : event.StoresWithin low high)
    (hx : x < low ∨ high ≤ x) : event.Spares x := by
  intro addr count hstores
  have hwithin := h addr count hstores
  omega

theorem storesWithin_of_none {low high : Nat} {event : Event} (h : event.stores? = none) :
    event.StoresWithin low high := by
  intro addr count hstores
  rw [h] at hstores
  cases hstores

end Event

namespace Cpu

/-- What one state has written, the other has written first. -/
def Extends (cpu cpu' : Cpu) : Prop :=
  cpu.out.toList <+: cpu'.out.toList ∧ cpu.err.toList <+: cpu'.err.toList

/-- What an instruction does outside of the registers: memory changes only where it stores, and it takes
back nothing that was written. -/
structure Effect (cpu : Cpu) (instr : Instr (BitVec 64)) (cpu' : Cpu) : Prop where
  memory : ∀ x, Event.Spares x ⟨cpu, instr⟩ → cpu'.memory x = cpu.memory x
  written : cpu.Extends cpu'

variable {process : Process} {cpu cpu' cpu'' : Cpu} {instr : Instr (BitVec 64)}

theorem Extends.of_eq (hout : cpu'.out = cpu.out) (herr : cpu'.err = cpu.err) :
    cpu.Extends cpu' :=
  ⟨hout ▸ List.prefix_refl _, herr ▸ List.prefix_refl _⟩

theorem Extends.trans (h : cpu.Extends cpu') (k : cpu'.Extends cpu'') : cpu.Extends cpu'' :=
  ⟨h.1.trans k.1, h.2.trans k.2⟩

theorem Effect.of_eq (hmemory : cpu'.memory = cpu.memory) (hout : cpu'.out = cpu.out)
    (herr : cpu'.err = cpu.err) : cpu.Effect instr cpu' :=
  ⟨fun _ _ => by rw [hmemory], .of_eq hout herr⟩

theorem effect_of_store {before : Cpu} {addr : BitVec 64} {bytes : List UInt8}
    (hbefore : cpu.Effect instr before)
    (hstores : Event.stores? ⟨cpu, instr⟩ = some (addr.toNat, bytes.length))
    (h : before.store process addr bytes = .next cpu') : cpu.Effect instr cpu' := by
  rw [store] at h
  split at h
  · cases h
    refine ⟨fun x hx => ?_, hbefore.written⟩
    rw [← hbefore.memory x hx]
    rcases hx _ _ hstores with hbelow | hbehind
    · exact Memory.write_of_lt hbelow
    · exact Memory.write_of_le hbehind
  · cases h

theorem effect_of_push {value : BitVec 64}
    (hstores : Event.stores? ⟨cpu, instr⟩ = some ((cpu.register .rsp - 8).toNat, 8))
    (h : cpu.push process value = .next cpu') : cpu.Effect instr cpu' := by
  rw [push] at h
  refine effect_of_store ?_ ?_ h
  · exact .of_eq rfl rfl rfl
  · rwa [Memory.length_littleEndian]

theorem effect_of_fetch {addr : BitVec 64} {use : BitVec 64 → Transition Cpu Halt}
    (huse : ∀ value, use value = .next cpu' → cpu.Effect instr cpu')
    (h : cpu.fetch process addr use = .next cpu') : cpu.Effect instr cpu' := by
  rw [fetch] at h
  split at h
  · exact huse _ h
  · cases h

theorem effect_of_systemCall (h : cpu.systemCall process = .next cpu') : cpu.Effect instr cpu' := by
  rw [systemCall] at h
  split at h
  · cases h
    exact ⟨fun _ _ => rfl, by simp, List.prefix_refl _⟩
  · cases h
    exact ⟨fun _ _ => rfl, List.prefix_refl _, by simp⟩
  · cases h
  · cases h

theorem effect_of_perform (h : cpu.perform process instr = .next cpu') : cpu.Effect instr cpu' := by
  cases instr with
  | load dst below =>
      rw [perform] at h
      refine effect_of_fetch ?_ h
      intro value hvalue
      cases hvalue
      exact .of_eq rfl rfl rfl
  | pop dst =>
      rw [perform, pop] at h
      refine effect_of_fetch ?_ h
      intro value hvalue
      cases hvalue
      exact .of_eq rfl rfl rfl
  | ret =>
      rw [perform, pop] at h
      refine effect_of_fetch ?_ h
      intro value hvalue
      cases hvalue
      exact .of_eq rfl rfl rfl
  | store below src => exact effect_of_store (.of_eq rfl rfl rfl) (by rw [Memory.length_littleEndian]; rfl) h
  | storeByte => exact effect_of_store (.of_eq rfl rfl rfl) (by rw [Memory.length_littleEndian]; rfl) h
  | push src => exact effect_of_push rfl h
  | div src =>
      rw [perform, divide] at h
      split at h <;> cases h
      exact .of_eq rfl rfl rfl
  | idiv src =>
      rw [perform, divideSigned] at h
      split at h <;> cases h
      exact .of_eq rfl rfl rfl
  | setCond cond =>
      rw [perform] at h
      split at h <;> cases h
      exact .of_eq rfl rfl rfl
  | jumpIf test target =>
      rw [perform] at h
      split at h <;> cases h
      split <;> exact .of_eq rfl rfl rfl
  | call target =>
      rw [perform] at h
      split at h
      · next hpush =>
          cases h
          have hpushed : cpu.Effect (.call target) _ := effect_of_push rfl hpush
          exact ⟨hpushed.memory, hpushed.written⟩
      · cases h
  | syscall => exact effect_of_systemCall h
  | alu op dst src =>
      cases h
      cases op <;> exact .of_eq rfl rfl rfl
  | undefined | data => cases h
  | _ =>
      cases h
      exact .of_eq rfl rfl rfl

end Cpu

namespace Process

/-- Instructions that are carried out one after the other, from one state to another. -/
inductive Run (process : Process) : Cpu → List Event → Cpu → Prop
  | done (cpu : Cpu) : Run process cpu [] cpu
  | step {cpu cpu' final : Cpu} {instr : Instr (BitVec 64)} {next : BitVec 64} {events : List Event} :
      process.fetch? cpu.rip = some (instr, next) → (cpu.goto next).perform process instr = .next cpu' →
      Run process cpu' events final → Run process cpu (⟨cpu, instr⟩ :: events) final

variable {process : Process} {cpu cpu' final : Cpu} {events events' : List Event}

theorem Run.append (h : process.Run cpu events cpu') (h' : process.Run cpu' events' final) :
    process.Run cpu (events ++ events') final := by
  induction h with
  | done => exact h'
  | step hfetch hdo _ ih => exact .step hfetch hdo (ih h')

theorem Run.reaches (h : process.Run cpu events final) :
    Relation.ReflTransGen (Moves (Cpu.step process)) cpu final := by
  induction h with
  | done => exact .refl
  | step hfetch hdo _ ih =>
      refine .head ?_ ih
      rw [Moves, Cpu.step, hfetch]
      exact hdo

/-- A run changes memory only where it stores. -/
theorem Run.memory_eq (h : process.Run cpu events final) {x : Nat}
    (hx : ∀ event ∈ events, event.Spares x) : final.memory x = cpu.memory x := by
  induction h with
  | done => rfl
  | step _ hdo _ ih =>
      rw [ih fun event hevent => hx event (List.mem_cons_of_mem _ hevent)]
      have hfirst := hx _ List.mem_cons_self
      exact (Cpu.effect_of_perform hdo).memory x hfirst

/-- The processor gets to a state with some property, by events that all have another one. -/
def LeadsBy (process : Process) (P : Event → Prop) (cpu : Cpu) (Q : Cpu → Prop) : Prop :=
  ∃ events final, process.Run cpu events final ∧ (∀ event ∈ events, P event) ∧ Q final

variable {P : Event → Prop} {Q Q' : Cpu → Prop}

theorem LeadsBy.leads (h : process.LeadsBy P cpu Q) : process.Leads cpu Q := by
  obtain ⟨events, final, hrun, -, hQ⟩ := h
  exact ⟨final, hrun.reaches, hQ⟩

theorem LeadsBy.now (h : Q cpu) : process.LeadsBy P cpu Q :=
  ⟨[], cpu, .done cpu, fun _ hevent => absurd hevent List.not_mem_nil, h⟩

theorem LeadsBy.step {instr : Instr (BitVec 64)} {next : BitVec 64} (h : process.Has cpu.rip instr next)
    (hP : P ⟨cpu, instr⟩) (hdo : (cpu.goto next).perform process instr = .next cpu')
    (hrest : process.LeadsBy P cpu' Q) : process.LeadsBy P cpu Q := by
  obtain ⟨events, final, hrun, hevents, hQ⟩ := hrest
  exact ⟨_, final, .step h.fetch hdo hrun, List.forall_mem_cons.mpr ⟨hP, hevents⟩, hQ⟩

theorem LeadsBy.taken {test : Test} {target next : BitVec 64} {flags : Flags}
    (h : process.Has cpu.rip (.jumpIf test target) next) (hP : P ⟨cpu, .jumpIf test target⟩)
    (hflags : cpu.flags = some flags) (hpasses : flags.passes test = true)
    (hrest : process.LeadsBy P (cpu.goto target) Q) : process.LeadsBy P cpu Q :=
  .step h hP (Cpu.perform_jumpIf_taken hflags hpasses) hrest

theorem LeadsBy.passed {test : Test} {target next : BitVec 64} {flags : Flags}
    (h : process.Has cpu.rip (.jumpIf test target) next) (hP : P ⟨cpu, .jumpIf test target⟩)
    (hflags : cpu.flags = some flags) (hpasses : flags.passes test = false)
    (hrest : process.LeadsBy P (cpu.goto next) Q) : process.LeadsBy P cpu Q :=
  .step h hP (Cpu.perform_jumpIf_passed hflags hpasses) hrest

theorem LeadsBy.mono (h : process.LeadsBy P cpu Q) (hmono : ∀ cpu', Q cpu' → Q' cpu') :
    process.LeadsBy P cpu Q' := by
  obtain ⟨events, final, hrun, hevents, hQ⟩ := h
  exact ⟨events, final, hrun, hevents, hmono final hQ⟩

theorem LeadsBy.andThen (h : process.LeadsBy P cpu Q)
    (hrest : ∀ cpu', Q cpu' → process.LeadsBy P cpu' Q') : process.LeadsBy P cpu Q' := by
  obtain ⟨events, middle, hrun, hevents, hmiddle⟩ := h
  obtain ⟨events', final, hrun', hevents', hfinal⟩ := hrest middle hmiddle
  refine ⟨events ++ events', final, hrun.append hrun', fun event hevent => ?_, hfinal⟩
  rcases List.mem_append.mp hevent with hevent | hevent
  · exact hevents event hevent
  · exact hevents' event hevent

end Process

end GotoLang.X64
