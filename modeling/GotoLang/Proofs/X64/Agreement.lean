import GotoLang.Proofs.Building
import GotoLang.Proofs.X64.Simulation

/-!
# Machine code agrees with the stack machine

A program that was built from a text, optimized or not, is compiled, its code is loaded, and it is called
with enough stack. If the stack machine stops, the call returns with the same status, has written the
same, and leaves the stack and the frame pointer to the caller as it found them. If the stack machine
runs forever, so does the processor.
-/
namespace GotoLang

namespace X64

/-- There is room on the stack for the frame of a program, for its evaluation stack wherever control
gets, and for the routines that it calls. -/
def Process.Ample (process : Process) (program : Program) : Prop :=
  ∀ depths size addr depth, program.depths = .ok depths → Frame.size program.slots.size = .ok size →
    Flow.At depths addr depth → process.low + size + 8 * depth + 64 ≤ process.high

/-- A program is called: control is at its start, the address to return to is on top of the stack, and
this was written before. -/
structure Cpu.Called (process : Process) (machine : MachineCode) (back : BitVec 64) (out err : Bytes)
    (cpu : Cpu) : Prop where
  rip : cpu.rip = process.address machine.mainOffset
  holds : cpu.Holds process [back]
  out : cpu.out = out
  err : cpu.err = err

/-- Control is back at the caller with a status, and the stack is as it was before the call. -/
structure Cpu.Returns (caller : Cpu) (back : BitVec 64) (status : Word) (out err : Bytes) (cpu : Cpu) :
    Prop where
  rip : cpu.rip = back
  rax : cpu.register .rax = status.toBitVec
  rsp : cpu.register .rsp = caller.register .rsp + 8
  rbp : cpu.register .rbp = caller.register .rbp
  out : cpu.out = out
  err : cpu.err = err

/-- A processor that goes on forever writes what the stack machine does: it gets to everything that the
machine writes, and nothing that it has written at any time is anything else. -/
structure Cpu.WritesAs (process : Process) (program : Program) (m : Machine) (cpu : Cpu) : Prop where
  all : ∀ n, Relation.ReflTransGen (Moves (Machine.move program.ops)) m n →
    process.Leads cpu fun cpu' => cpu'.out = n.out.bytes ∧ cpu'.err = n.err.bytes
  only : ∀ cpu', Relation.ReflTransGen (Moves (Cpu.step process)) cpu cpu' →
    ∃ n, Relation.ReflTransGen (Moves (Machine.move program.ops)) m n ∧
      cpu'.out.toList <+: n.out.bytes.toList ∧ cpu'.err.toList <+: n.err.bytes.toList

namespace Cpu
variable {process : Process} {cpu cpu' : Cpu}

theorem extends_of_moves (h : Moves (step process) cpu cpu') : cpu.Extends cpu' := by
  rw [Moves, step] at h
  split at h
  · cases h
  · have hperformed := (effect_of_perform h).written
    exact hperformed

/-- No execution takes back what was written. -/
theorem extends_of_path (h : Relation.ReflTransGen (Moves (step process)) cpu cpu') :
    cpu.Extends cpu' := by
  induction h with
  | refl => exact .of_eq rfl rfl
  | tail _ hmove ih => exact ih.trans (extends_of_moves hmove)

end Cpu

namespace Cpu.Called
variable {process : Process} {options : CodeOptions} {program : Program} {machine : MachineCode}
  {cpu : Cpu} {back : BitVec 64} {out err : Sink} {typing : Typing Ty}

theorem returns {pad : List (BitVec 64)} {status : Word} {before before' w e : Bytes} {cpu' : Cpu}
    (h : cpu.Called process machine back before before')
    (hhigh : process.high < 18446744073709551616)
    (hreturned : Cpu.Returned process ⟨pad, cpu.register .rbp, back⟩ status w e cpu') :
    cpu.Returns back status w e cpu' := by
  refine ⟨hreturned.rip, hreturned.rax, ?_, hreturned.rbp, hreturned.out, hreturned.err⟩
  have htop : (cpu.register .rsp).toNat + 8 = process.high := h.holds.high
  apply BitVec.eq_of_toNat_eq
  rw [hreturned.rsp, BitVec.toNat_add_of_lt]
  · exact htop.symm
  · show (cpu.register .rsp).toNat + 8 < 18446744073709551616
    omega

/-- After the prologue both machines are before the first operation. -/
theorem follows (h : cpu.Called process machine back out.bytes err.bytes) (hloaded : process.Loaded)
    (hcompile : program.compile options = .ok machine) (hcode : process.code = machine.code)
    (hample : process.Ample program) (hfits : typing.Fits (Ty.kinds program.slots) program.ops)
    (hout : out.Reliable) (herr : err.Reliable) :
    ∃ depths pad, process.Hosts options.stackBased program depths ⟨pad, cpu.register .rbp, back⟩ ∧
      process.Leads cpu (Cpu.Follows process options.stackBased program depths
        ⟨pad, cpu.register .rbp, back⟩ typing (.start program out err)) := by
  obtain ⟨depths, hdepths, hcompiled, hmain⟩ := Process.compiled_of_compile hloaded hcompile hcode
  obtain ⟨code, hprologue, hstands⟩ := hcompiled.prologue
  obtain ⟨size, hsize, -⟩ := Frame.prologue_eq_ok hprologue
  have hroom := hample depths size 0 0 hdepths hsize (Program.depths_spec hdepths).1
  rw [← hmain, ← h.rip] at hstands
  obtain ⟨cpu', hcpu', hrip, pad, hpad, hstacked⟩ :=
    leads_prologue hprologue hsize hstands h.holds (by omega)
  refine ⟨depths, pad, ⟨hcompiled, hdepths, hloaded.stack, ?_⟩, cpu', hcpu', ?_⟩
  · intro addr depth hat
    have hroom := hample depths size addr depth hdepths hsize hat
    show process.low + 8 * (depth + (pad.length + (program.slots.size + 2))) + 48 ≤ process.high
    omega
  · rw [h.out, h.err] at hstacked
    refine ⟨⟨hrip, ⟨?_, ?_⟩⟩, Machine.disciplined_start hdepths out err, ⟨hout, herr⟩, [],
      ⟨hfits.start, .nil, Ty.fill_zero program.slots⟩⟩
    · have hnil : spilled options.stackBased [] = [] := by
        rw [spilled, List.tail_nil, ite_self]
      show cpu'.Stacked process _ _ out.bytes err.bytes (spilled options.stackBased [])
      rw [hnil]
      exact hstacked
    · intro _ value hvalue
      exact absurd hvalue (Option.not_mem_none value)

/-- A call of a typed program returns if the program stops. -/
theorem leads_returns (h : cpu.Called process machine back out.bytes err.bytes)
    (hloaded : process.Loaded) (hcompile : program.compile options = .ok machine)
    (hcode : process.code = machine.code) (hample : process.Ample program)
    (hfits : typing.Fits (Ty.kinds program.slots) program.ops) (hout : out.Reliable)
    (herr : err.Reliable) {ending : Ending} (hending : program.EndsWith out err ending) :
    ∃ status w e, ending = ⟨.ok status, w, e⟩ ∧
      process.Leads cpu (cpu.Returns back status w e) := by
  obtain ⟨depths, pad, host, cpu₀, hcpu₀, hfollows⟩ :=
    h.follows hloaded hcompile hcode hample hfits hout herr
  obtain ⟨cpu', hcpu', status, w, e, rfl, hreturned⟩ :=
    (following host hfits).ends hfollows (Program.endsWith_iff.mp hending)
  exact ⟨status, w, e, rfl, cpu', hcpu₀.trans hcpu', h.returns hloaded.stack hreturned⟩

/-- It goes on forever if the program does. -/
theorem diverges (h : cpu.Called process machine back out.bytes err.bytes) (hloaded : process.Loaded)
    (hcompile : program.compile options = .ok machine) (hcode : process.code = machine.code)
    (hample : process.Ample program) (hfits : typing.Fits (Ty.kinds program.slots) program.ops)
    (hout : out.Reliable) (herr : err.Reliable) (hforever : program.RunsForever out err) :
    Diverges (Cpu.step process) cpu ∧
      cpu.WritesAs process program (.start program out err) := by
  obtain ⟨depths, pad, host, cpu₀, hcpu₀, hfollows⟩ :=
    h.follows hloaded hcompile hcode hample hfits hout herr
  rw [Program.runsForever_iff] at hforever
  have hsim := following host hfits
  refine ⟨(hsim.diverges hfollows hforever).before hcpu₀, ?_, ?_⟩
  · intro n hn
    obtain ⟨cpu', hcpu', hkept⟩ := hfollows.keepsUp host hfits hforever hn
    have hstacked := hkept.agrees.carries.stacked
    exact ⟨cpu', hcpu₀.trans hcpu', hstacked.out, hstacked.err⟩
  · intro cpu' hcpu'
    -- The prologue writes nothing, and behind it the processor goes on to where it has written as much
    -- as the machine.
    obtain ⟨n, cpu'', hn, hpath, hkept⟩ : ∃ n cpu'',
        Relation.ReflTransGen (Moves (Machine.move program.ops)) (.start program out err) n ∧
        Relation.ReflTransGen (Moves (Cpu.step process)) cpu' cpu'' ∧
        Cpu.Follows process options.stackBased program depths ⟨pad, cpu.register .rbp, back⟩ typing
          n cpu'' := by
      have hunique : Relator.RightUnique (Moves (Cpu.step process)) := fun _ _ _ hu hv => hu.unique hv
      rcases Relation.ReflTransGen.total_of_right_unique hunique hcpu₀ hcpu' with hafter | hbefore
      · obtain ⟨n, cpu'', hn, hpath, hkept⟩ := hsim.catches hfollows hforever hafter
        exact ⟨n, cpu'', hn, hpath.to_reflTransGen, hkept⟩
      · exact ⟨_, cpu₀, .refl, hbefore, hfollows⟩
    have hstacked := hkept.agrees.carries.stacked
    have hextends := Cpu.extends_of_path hpath
    rw [Cpu.Extends, hstacked.out, hstacked.err] at hextends
    exact ⟨n, hn, hextends⟩

end Cpu.Called

/-- Machine code agrees with the stack machine, whichever way it evaluates. The last part is for a
caller outside of the code, where the processor stops once the call has returned. -/
theorem call_agrees_with_machine {config : Config} {host : Host} {text : String}
    {c c' : Compilation} {program native : Program} {options : CodeOptions} {machine : MachineCode}
    {process : Process} {back : BitVec 64} {out err : Sink} {cpu : Cpu}
    (hstart : Compilation.start config host = .ok c)
    (hbuild : Compilation.build text c = .ok program c') (htext : text.utf8ByteSize < 2147483648)
    (hnative : native = program ∨ ∃ level, native = (program.optimize level).1)
    (hcompile : native.compile options = .ok machine) (hcode : process.code = machine.code)
    (hloaded : process.Loaded) (hample : process.Ample native) (hout : out.Reliable)
    (herr : err.Reliable) (hcalled : cpu.Called process machine back out.bytes err.bytes) :
    (∀ ending, native.EndsWith out err ending → ∃ status w e, ending = ⟨.ok status, w, e⟩ ∧
      process.Leads cpu (cpu.Returns back status w e)) ∧
    (native.RunsForever out err → Diverges (Cpu.step process) cpu ∧
      cpu.WritesAs process native (.start native out err)) ∧
    (process.fetch? back = none →
      (Diverges (Cpu.step process) cpu ↔ native.RunsForever out err) ∧
      ∀ halt, Ends (Cpu.step process) cpu halt → ∃ status w e cpu', halt = .left cpu' ∧
        native.EndsWith out err ⟨.ok status, w, e⟩ ∧ cpu.Returns back status w e cpu') := by
  have hsane : native.Sane := by
    have hbuilt := Compilation.sane_of_build hstart hbuild htext
    rcases hnative with rfl | ⟨level, rfl⟩
    · exact hbuilt
    · exact hbuilt.optimize level
  obtain ⟨typing, hfits⟩ := hsane.typed
  have hreturns := fun ending (hending : native.EndsWith out err ending) =>
    hcalled.leads_returns hloaded hcompile hcode hample hfits hout herr hending
  have hforever := hcalled.diverges hloaded hcompile hcode hample hfits hout herr
  refine ⟨hreturns, hforever, ?_⟩
  intro hback
  -- Back at the caller there is no instruction of the code, so the processor stops.
  have hleaves : ∀ ending, native.EndsWith out err ending → ∃ status w e cpu',
      ending = ⟨.ok status, w, e⟩ ∧ Ends (Cpu.step process) cpu (.left cpu') ∧
        cpu.Returns back status w e cpu' := by
    intro ending hending
    obtain ⟨status, w, e, hok, cpu', hcpu', hreturned⟩ := hreturns ending hending
    have hstop : Cpu.step process cpu' = .stop (.left cpu') := by
      rw [Cpu.step, hreturned.rip, hback]
    exact ⟨status, w, e, cpu', hok, (Ends.stop hstop).before hcpu', hreturned⟩
  have hdiverges : Diverges (Cpu.step process) cpu ↔ native.RunsForever out err := by
    refine ⟨?_, fun h => (hforever h).1⟩
    intro hcpu
    rw [Program.runsForever_iff, diverges_iff_not_ends]
    intro ending hending
    obtain ⟨status, w, e, cpu', -, hends, -⟩ := hleaves ending (Program.endsWith_iff.mpr hending)
    exact diverges_iff_not_ends.mp hcpu _ hends
  refine ⟨hdiverges, ?_⟩
  intro halt hhalt
  have hstops : ¬ Diverges (Machine.move native.ops) (.start native out err) := by
    rw [← Program.runsForever_iff, ← hdiverges, diverges_iff_not_ends]
    exact fun hnever => hnever halt hhalt
  rw [diverges_iff_not_ends] at hstops
  push Not at hstops
  obtain ⟨ending, hending⟩ := hstops
  obtain ⟨status, w, e, cpu', rfl, hends, hreturned⟩ :=
    hleaves ending (Program.endsWith_iff.mpr hending)
  exact ⟨status, w, e, cpu', hhalt.unique hends, Program.endsWith_iff.mpr hending, hreturned⟩

/-- A processor calls a program from address zero; all its registers and its memory are cleared. -/
def Cpu.call (process : Process) (machine : MachineCode) : Cpu where
  rip := process.address machine.mainOffset
  register r := if r = .rsp then .ofNat 64 (process.high - 8) else 0
  flags := none
  memory _ := 0
  out := #[]
  err := #[]

theorem Cpu.called_call {process : Process} (machine : MachineCode)
    (hlow : process.low + 8 ≤ process.high) (hhigh : process.high < 18446744073709551616) :
    (Cpu.call process machine).Called process machine 0 #[] #[] := by
  have hrsp : ((Cpu.call process machine).register .rsp).toNat = process.high - 8 := by
    show (BitVec.ofNat 64 (process.high - 8)).toNat = process.high - 8
    rw [BitVec.toNat_ofNat, Nat.mod_eq_of_lt (by omega)]
  refine ⟨rfl, ⟨?_, ?_, ?_⟩, rfl, rfl⟩
  · omega
  · rw [hrsp, List.length_singleton]
    omega
  · intro k w hk
    cases k with
    | zero =>
        cases hk
        show BitVec.ofNat 64 (Memory.decode ((List.range 8).map fun _ => 0)) = 0
        decide
    | succ k => cases hk

/-- The code of the program takes less than a page and, loaded behind the fourth megabyte, has nothing
at address zero. -/
theorem countdown_compiles : ∃ machine, Program.countdown.compile {} = .ok machine ∧
    machine.code.bytes.size < 4096 ∧
    ∀ placed ∈ machine.code, BitVec.ofNat 64 (4194304 + placed.offset) ≠ 0 := by
  have h : (Program.countdown.compile {}).toOption.any (fun machine =>
      decide (machine.code.bytes.size < 4096 ∧
        ∀ placed ∈ machine.code, BitVec.ofNat 64 (4194304 + placed.offset) ≠ 0)) = true := by decide +kernel
  obtain ⟨machine, hcompile, hmachine⟩ := exists_ok_of_any h
  exact ⟨machine, hcompile, of_decide_eq_true hmachine⟩

theorem countdown_ample (code : Assembled CodeLabel) :
    (Process.load code 4194304 140737488289792 140737488355328).Ample Program.countdown := by
  have h : Program.countdown.depths.toOption.any (fun depths => depths.all fun depth => depth.getD 0 ≤ 2) = true := by
    decide +kernel
  intro depths size addr depth hdepths hframe hat
  rw [hdepths] at h
  have hdepth := Array.all_eq_true_iff_forall_mem.mp h _ (Array.mem_of_getElem? hat)
  have hdepth : depth ≤ 2 := of_decide_eq_true hdepth
  cases hframe
  show 140737488289792 + 16 + 8 * depth + 64 ≤ 140737488355328
  omega

theorem countdown_ends :
    Program.countdown.EndsWith {} {} ⟨.ok 0, #[50, 10, 51, 10, 54, 10], #[]⟩ :=
  Program.endsWith_of_halts 100 (by decide +kernel)

/-- Called with 64 kilobytes of stack, the code of the program prints two, three and six and comes back
with status zero. -/
theorem call_agrees_with_machine_countdown : ∃ c c' machine,
    Compilation.start { input := "countdown.gt" } Host.bare = .ok c ∧
    Compilation.build Program.countdownText c = .ok Program.countdown c' ∧
    Program.countdown.compile {} = .ok machine ∧
    let process := Process.load machine.code 4194304 140737488289792 140737488355328
    process.Loaded ∧ process.Ample Program.countdown ∧
    (Cpu.call process machine).Called process machine 0 #[] #[] ∧ process.fetch? 0 = none ∧
    process.Leads (Cpu.call process machine)
      ((Cpu.call process machine).Returns 0 0 #[50, 10, 51, 10, 54, 10] #[]) ∧
    ¬ Diverges (Cpu.step process) (Cpu.call process machine) := by
  obtain ⟨c, c', hstart, hbuild⟩ := Compilation.countdown_builds
  obtain ⟨machine, hcompile, hsize, haddress⟩ := countdown_compiles
  refine ⟨c, c', machine, hstart, hbuild, hcompile, ?_⟩
  intro process
  have hloaded : process.Loaded := Process.loaded_load (by omega) (by decide) (by decide)
  have hample : process.Ample Program.countdown := countdown_ample machine.code
  have hcalled : (Cpu.call process machine).Called process machine 0 #[] #[] := by
    apply Cpu.called_call machine
    · show 140737488289792 + 8 ≤ 140737488355328
      decide
    · show 140737488355328 < 18446744073709551616
      decide
  have hback : process.fetch? 0 = none := by
    rw [Process.fetch?, Option.map_eq_none_iff, List.find?_eq_none]
    intro placed hplaced heq
    exact haddress placed hplaced (beq_iff_eq.mp heq)
  have hsink : ({} : Sink).Reliable := ⟨rfl, rfl⟩
  obtain ⟨hreturns, -, hleaves⟩ := call_agrees_with_machine hstart hbuild (by decide) (.inl rfl)
    hcompile rfl hloaded hample hsink hsink hcalled
  obtain ⟨status, w, e, heq, hreturned⟩ := hreturns _ countdown_ends
  cases heq
  refine ⟨hloaded, hample, hcalled, hback, hreturned, ?_⟩
  rw [(hleaves hback).1, Program.runsForever_iff, diverges_iff_not_ends]
  intro hnever
  exact hnever _ (Program.endsWith_iff.mp countdown_ends)

end X64

end GotoLang
