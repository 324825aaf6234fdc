import GotoLang.Proofs.StackDiscipline
import GotoLang.Proofs.X64.Description
import GotoLang.Proofs.X64.Frame
import GotoLang.Proofs.X64.Placement

/-!
# Compiled programs in memory

Where the parts of a compiled program are once it is loaded: the prologue at the label of the program,
the code of each operation at the label of the operation and right before that of the next one, and
behind them the end of the program and the routines that its operations call for.
-/
namespace GotoLang.X64

/-- No instruction of a script is without bytes. -/
def Script.Solid (script : Script) : Prop :=
  .emit (.data []) ∉ script

/-- No instruction of a script is without bytes or undefined. -/
def Script.Proper (script : Script) : Prop :=
  script.Solid ∧ .emit .undefined ∉ script

theorem Script.solid_append {script script' : Script} :
    Script.Solid (script ++ script') ↔ Script.Solid script ∧ Script.Solid script' := by
  simp [Solid]

theorem Script.solid_cons_place {mark : CodeLabel} {script : Script} :
    Script.Solid (.place mark :: script) ↔ Script.Solid script := by
  simp [Solid]

theorem Script.solid_code {code : Code} : Script.Solid (Code.script code) ↔ .data [] ∉ code := by
  simp [Solid, Code.script]

theorem Script.proper_append {script script' : Script} :
    Script.Proper (script ++ script') ↔ Script.Proper script ∧ Script.Proper script' := by
  simp only [Proper, solid_append, List.mem_append, not_or]
  exact and_and_and_comm

theorem Script.proper_cons_place {mark : CodeLabel} {script : Script} :
    Script.Proper (.place mark :: script) ↔ Script.Proper script := by
  simp [Proper, solid_cons_place]

theorem Script.proper_code {code : Code} :
    Script.Proper (Code.script code) ↔ .data [] ∉ code ∧ .undefined ∉ code := by
  simp [Proper, Solid, Code.script]

namespace CodeGeneration

theorem proper_onlyIf {cond : Bool} {code : Code} (h : .data [] ∉ code ∧ .undefined ∉ code) :
    .data [] ∉ onlyIf cond code ∧ .undefined ∉ onlyIf cond code := by
  cases cond
  · exact ⟨List.not_mem_nil, List.not_mem_nil⟩
  · exact h

theorem proper_optional {present : Bool} {script : Script} (h : Script.Proper script) :
    Script.Proper (optional present script) := by
  cases present
  · exact ⟨List.not_mem_nil, List.not_mem_nil⟩
  · exact h

theorem proper_division (addr : Nat) (remainder : Bool) : Script.Proper (division addr remainder) := by
  cases remainder <;> simp [Script.Proper, Script.Solid, division, Code.script, onlyIf]

theorem proper_combine (op : BinaryOp) : .data [] ∉ combine op ∧ .undefined ∉ combine op := by
  rcases op with (_ | _ | _ | _ | _) | _ | (_ | _) <;> simp [combine]

theorem proper_unary (op : UnaryOp) : .data [] ∉ unary op ∧ .undefined ∉ unary op := by
  cases op <;> simp [unary]

theorem proper_plain {addr : Nat} {op : Op} {script : Script} (h : plain addr op = .ok script) :
    Script.Proper script := by
  cases op with
  | load slot =>
      simp only [plain, Frame.offset] at h
      split at h <;> cases h
      simp [Script.proper_code]
  | store slot =>
      simp only [plain, Frame.offset] at h
      split at h <;> cases h
      simp [Script.proper_code]
  | unary op =>
      cases h
      simp [Script.proper_code, proper_unary op]
  | binary op =>
      simp only [plain] at h
      split at h <;> cases h
      · simp [Script.proper_append, Script.proper_code, proper_division]
      · simp [Script.proper_code, proper_combine op]
  | _ =>
      cases h
      simp [Script.proper_code]

theorem proper_cached {addr depth : Nat} {op : Op} {script : Script}
    (h : cached addr depth op = .ok script) : Script.Proper script := by
  have hpush : ∀ (cond : Bool) (r : Register), .data [] ∉ onlyIf cond [.push r] ∧
      .undefined ∉ onlyIf cond [.push r] := fun cond r => proper_onlyIf (by simp)
  have hpop : ∀ (cond : Bool) (r : Register), .data [] ∉ onlyIf cond [.pop r] ∧
      .undefined ∉ onlyIf cond [.pop r] := fun cond r => proper_onlyIf (by simp)
  cases op with
  | load slot =>
      simp only [cached, Frame.offset] at h
      split at h <;> cases h
      simp [Script.proper_code, hpush]
  | store slot =>
      simp only [cached, Frame.offset] at h
      split at h <;> cases h
      simp [Script.proper_code, hpop]
  | unary op =>
      cases h
      simp [Script.proper_code, proper_unary op]
  | binary op =>
      simp only [cached] at h
      split at h <;> cases h
      · simp [Script.proper_append, Script.proper_code, proper_division]
      · simp [Script.proper_code, proper_combine op]
  | _ =>
      cases h
      simp [Script.proper_code, hpush, hpop]

/-- The code of an operation that is entered with a depth. -/
def body (stackBased : Bool) (addr depth : Nat) (op : Op) : Except EncodingError Script :=
  if stackBased then plain addr op else cached addr depth op

theorem proper_body {stackBased : Bool} {addr depth : Nat} {op : Op} {code : Script}
    (h : body stackBased addr depth op = .ok code) : Script.Proper code := by
  rw [body] at h
  split at h
  · exact proper_plain h
  · exact proper_cached h

theorem operation_eq_ok {stackBased : Bool} {addr : Nat} {depth : Option Nat} {op : Op}
    {script : Script} (h : operation stackBased addr depth op = .ok script) :
    ∃ code, script = .place (.op addr) :: code ∧ Script.Solid code ∧ ∀ d, depth = some d →
      body stackBased addr d op = .ok code := by
  cases depth with
  | none =>
      cases h
      exact ⟨_, rfl, by simp [Script.solid_code], fun d hd => by cases hd⟩
  | some d =>
      have hcode : ∃ code, body stackBased addr d op = .ok code ∧
          script = .place (.op addr) :: code := by
        cases stackBased
        · obtain ⟨code, hcode, hscript⟩ := except_bind_eq_ok.mp h
          cases hscript
          exact ⟨code, hcode, rfl⟩
        · obtain ⟨code, hcode, hscript⟩ := except_bind_eq_ok.mp h
          cases hscript
          exact ⟨code, hcode, rfl⟩
      obtain ⟨code, hcode, rfl⟩ := hcode
      refine ⟨code, rfl, (proper_body hcode).1, ?_⟩
      intro d' hd
      cases hd
      exact hcode

/-- The scripts of operations from an address on. -/
def Scripts (stackBased : Bool) (first : Nat) (entries : List (Op × Option Nat))
    (scripts : List Script) : Prop :=
  (entries.zipIdx first).mapM (fun entry => operation stackBased entry.2 entry.1.2 entry.1.1) =
    .ok scripts

variable {stackBased : Bool}

theorem Scripts.cons {first : Nat} {op : Op} {depth : Option Nat} {entries : List (Op × Option Nat)}
    {scripts : List Script} (h : Scripts stackBased first ((op, depth) :: entries) scripts) :
    ∃ script rest, operation stackBased first depth op = .ok script ∧
      Scripts stackBased (first + 1) entries rest ∧ scripts = script :: rest := by
  rw [Scripts, List.zipIdx_cons] at h
  exact mapM_cons_eq_ok h

theorem Scripts.solid {first : Nat} {entries : List (Op × Option Nat)} {scripts : List Script}
    (h : Scripts stackBased first entries scripts) : Script.Solid scripts.flatten := by
  induction entries generalizing first scripts with
  | nil =>
      cases h
      exact List.not_mem_nil
  | cons entry entries ih =>
      obtain ⟨script, rest, hscript, hrest, rfl⟩ := h.cons
      obtain ⟨body, rfl, hbody, -⟩ := operation_eq_ok hscript
      rw [List.flatten_cons, Script.solid_append, Script.solid_cons_place]
      exact ⟨hbody, ih hrest⟩

/-- The code of operations that control reaches has no undefined instruction. -/
theorem Scripts.proper {first : Nat} {entries : List (Op × Option Nat)} {scripts : List Script}
    (h : Scripts stackBased first entries scripts) (hreached : ∀ entry ∈ entries, entry.2 ≠ none) :
    Script.Proper scripts.flatten := by
  induction entries generalizing first scripts with
  | nil =>
      cases h
      exact ⟨List.not_mem_nil, List.not_mem_nil⟩
  | cons entry entries ih =>
      obtain ⟨script, rest, hscript, hrest, rfl⟩ := h.cons
      obtain ⟨code, rfl, -, hcode⟩ := operation_eq_ok hscript
      obtain ⟨depth, hdepth⟩ := Option.ne_none_iff_exists'.mp (hreached entry List.mem_cons_self)
      rw [List.flatten_cons, Script.proper_append, Script.proper_cons_place]
      exact ⟨proper_body (hcode depth hdepth),
        ih hrest fun entry hentry => hreached entry (List.mem_cons_of_mem _ hentry)⟩

variable {process : Process}

theorem Scripts.first {first : Nat} {entries : List (Op × Option Nat)} {scripts : List Script}
    (h : Scripts stackBased first entries scripts) (hne : entries ≠ []) {start last : BitVec 64}
    (hstands : process.Stands scripts.flatten start last) : start = process.label (.op first) := by
  cases entries with
  | nil => exact absurd rfl hne
  | cons entry entries =>
      obtain ⟨script, rest, hscript, -, rfl⟩ := h.cons
      obtain ⟨body, rfl, -⟩ := operation_eq_ok hscript
      exact hstands.1.symm

/-- The code of each operation is where its label is, and that of the next one begins at its end. -/
theorem Scripts.get {first : Nat} {entries : List (Op × Option Nat)} {scripts : List Script}
    (h : Scripts stackBased first entries scripts) {start last : BitVec 64}
    (hstands : process.Stands scripts.flatten start last) {i : Nat} {op : Op} {depth : Nat}
    (hi : entries[i]? = some (op, some depth)) :
    ∃ code next, body stackBased (first + i) depth op = .ok code ∧
      process.Stands code (process.label (.op (first + i))) next ∧
      (i + 1 < entries.length → next = process.label (.op (first + (i + 1)))) := by
  induction entries generalizing first scripts start i with
  | nil => cases hi
  | cons entry entries ih =>
      obtain ⟨script, rest, hscript, hrest, rfl⟩ := h.cons
      obtain ⟨body, rfl, -, hbody⟩ := operation_eq_ok hscript
      rw [List.flatten_cons] at hstands
      obtain ⟨middle, hhead, htail⟩ := hstands.append
      cases i with
      | zero =>
          cases hi
          obtain ⟨hlabel, hhead⟩ := hhead
          refine ⟨body, middle, hbody depth rfl, hlabel ▸ hhead, ?_⟩
          intro hlt
          have hne : entries ≠ [] := by
            intro hnil
            rw [hnil] at hlt
            exact Nat.lt_irrefl 1 hlt
          exact hrest.first hne htail
      | succ i =>
          obtain ⟨body, next, hb, hs, hn⟩ := ih hrest htail hi
          have hindex : first + 1 + i = first + (i + 1) := by omega
          rw [hindex] at hb hs
          refine ⟨body, next, hb, hs, fun hlt => ?_⟩
          rw [hn (Nat.lt_of_succ_lt_succ hlt)]
          congr 2
          omega

theorem proper_datum (mark : CodeLabel) {text : String} (h : (Bytes.ofText text).toList ≠ []) :
    Script.Proper (Routines.datum mark text) := by
  simpa [Script.Proper, Script.Solid, Routines.datum] using h

theorem proper_support (needs : Needs) : Script.Proper (support needs) := by
  have hroutine : Script.Proper Routines.trap ∧ Script.Proper Routines.printInt ∧
      Script.Proper Routines.printBool := by
    simp [Script.Proper, Script.Solid, Routines.trap, Routines.printInt, Routines.printBool, Code.script]
  have htrap : Script.Proper (Routines.datum .trapText Machine.trapMessage) :=
    proper_datum _ (by decide +kernel)
  have htexts : Script.Proper (Routines.datum .trueText Routines.trueText ++
      Routines.datum .falseText Routines.falseText) :=
    Script.proper_append.mpr ⟨proper_datum _ (by decide +kernel), proper_datum _ (by decide +kernel)⟩
  simp only [support, Script.proper_append]
  exact ⟨⟨⟨⟨proper_optional hroutine.1, proper_optional hroutine.2.1⟩, proper_optional hroutine.2.2⟩,
    proper_optional htrap⟩, proper_optional htexts⟩

theorem proper_prologue {slots : Nat} {code : Code} (h : Frame.prologue slots = .ok code) :
    .data [] ∉ code ∧ .undefined ∉ code := by
  obtain ⟨size, -, rfl⟩ := Frame.prologue_eq_ok h
  rw [Frame.setup]
  split <;> simp

theorem script_eq_ok {options : CodeOptions} {program : Program} {depths : Flow.Depths}
    {script : Script} (h : CodeGeneration.script options program depths = .ok script) :
    ∃ code scripts, Frame.prologue program.slots.size = .ok code ∧
      Scripts options.stackBased 0 (program.ops.toList.zip depths.toList) scripts ∧
      script = optional options.entryPoint Routines.start ++ (.place .main :: Code.script code) ++
        scripts.flatten ++ (.place .leave :: Code.script Frame.epilogue) ++
        support (needs program.ops) := by
  obtain ⟨code, hcode, h⟩ := except_bind_eq_ok.mp h
  obtain ⟨body, hbody, h⟩ := except_bind_eq_ok.mp h
  obtain ⟨scripts, hscripts, hbody⟩ := except_bind_eq_ok.mp hbody
  cases hbody
  cases h
  exact ⟨code, scripts, hcode, hscripts, rfl⟩

/-- All that surrounds the code of the operations is proper. -/
theorem script_surround {options : CodeOptions} {program : Program} {depths : Flow.Depths}
    {script : Script} (h : CodeGeneration.script options program depths = .ok script) :
    ∃ before scripts after,
      Scripts options.stackBased 0 (program.ops.toList.zip depths.toList) scripts ∧
      script = before ++ scripts.flatten ++ after ∧ Script.Proper before ∧ Script.Proper after := by
  obtain ⟨code, scripts, hcode, hscripts, rfl⟩ := script_eq_ok h
  have hstart : Script.Proper (optional options.entryPoint Routines.start) :=
    proper_optional (by simp [Script.Proper, Script.Solid, Routines.start, Code.script])
  have hleave : Script.Proper (Code.script Frame.epilogue) := by
    simp [Script.proper_code, Frame.epilogue]
  refine ⟨_, scripts, _, hscripts, List.append_assoc _ _ _, ?_, ?_⟩
  · rw [Script.proper_append, Script.proper_cons_place]
    exact ⟨hstart, Script.proper_code.mpr (proper_prologue hcode)⟩
  · rw [Script.proper_append, Script.proper_cons_place]
    exact ⟨hleave, proper_support _⟩

theorem solid_script {options : CodeOptions} {program : Program} {depths : Flow.Depths}
    {script : Script} (h : CodeGeneration.script options program depths = .ok script) :
    Script.Solid script := by
  obtain ⟨before, scripts, after, hscripts, rfl, hbefore, hafter⟩ := script_surround h
  rw [Script.solid_append, Script.solid_append]
  exact ⟨⟨hbefore.1, hscripts.solid⟩, hafter.1⟩

/-- With a depth for every operation there is no undefined instruction at all. -/
theorem proper_script {options : CodeOptions} {program : Program} {depths : Flow.Depths}
    {script : Script} (h : CodeGeneration.script options program depths = .ok script)
    (hreached : none ∉ depths) : Script.Proper script := by
  obtain ⟨before, scripts, after, hscripts, rfl, hbefore, hafter⟩ := script_surround h
  have hentries : ∀ entry ∈ program.ops.toList.zip depths.toList, entry.2 ≠ none := by
    intro entry hentry hnone
    exact hreached (hnone ▸ Array.mem_toList_iff.mp (List.of_mem_zip hentry).2)
  rw [Script.proper_append, Script.proper_append]
  exact ⟨⟨hbefore, hscripts.proper hentries⟩, hafter⟩

end CodeGeneration

theorem Assembler.mem_lines_run {label : Type} [DecidableEq label] {assembler final : Assembler label}
    {script : List (Directive label)} (hrun : script.foldlM perform assembler = .ok final)
    {line : Line label} (hline : line ∈ final.lines) :
    line ∈ assembler.lines ∨ .emit line.instr ∈ script := by
  induction script generalizing assembler with
  | nil =>
      cases hrun
      exact .inl hline
  | cons directive script ih =>
      obtain ⟨next, hdo, hrun⟩ := run_cons hrun
      rcases ih hrun with hold | hnew
      · cases directive with
        | emit instr =>
            cases hdo
            rcases Array.mem_push.mp hold with hold | rfl
            · exact .inl hold
            · exact .inr List.mem_cons_self
        | place mark =>
            obtain ⟨-, -, rfl⟩ := place_eq_ok hdo
            exact .inl hold
      · exact .inr (List.mem_cons_of_mem _ hnew)

/-- Every assembled instruction comes from the script. -/
theorem Assembler.mem_of_mem_assemble {label : Type} [DecidableEq label] {final : Assembler label}
    {script : List (Directive label)} (hrun : script.foldlM perform {} = .ok final) {placed : Placed label}
    (hplaced : placed ∈ assemble final.lines.toList) : .emit placed.instr ∈ script := by
  have hline : placed.toLine ∈ final.lines := by
    rw [← Array.mem_toList_iff, ← (assemble_spec final.lines.toList).1]
    exact List.mem_map_of_mem hplaced
  exact (mem_lines_run hrun hline).resolve_left (Array.not_mem_empty _)

theorem Assembler.solid_assemble {script : Script} {final : Assembler CodeLabel} (hsolid : Script.Solid script)
    (hrun : script.foldlM perform {} = .ok final) : (assemble final.lines.toList).Solid := by
  intro placed hplaced hdata
  exact hsolid (hdata ▸ mem_of_mem_assemble hrun hplaced)

theorem CodeGeneration.assemble_eq_ok {labels : List CodeLabel} {script : Script} {code : Assembled CodeLabel}
    (h : assemble labels script = .ok code) : ∃ final, script.foldlM Assembler.perform {} = .ok final ∧
      final.waiting = none ∧ code = Assembler.assemble final.lines.toList := by
  obtain ⟨-, -, h⟩ := except_bind_eq_ok.mp h
  obtain ⟨final, hrun, hfinish⟩ := except_bind_eq_ok.mp (mapError_eq_ok.mp h)
  rw [Assembler.finish] at hfinish
  split at hfinish
  · cases hfinish
  · next hwaiting =>
      split at hfinish
      · exact ⟨final, hrun, by simpa using hwaiting, (Except.ok.inj hfinish).symm⟩
      · cases hfinish

theorem compile_eq_ok {program : Program} {options : CodeOptions} {machine : MachineCode}
    (h : program.compile options = .ok machine) : ∃ depths script assembly, program.depths = .ok depths ∧
      CodeGeneration.script options program depths = .ok script ∧
      CodeGeneration.assemble (CodeGeneration.labels options program.ops depths) script = .ok assembly.code ∧
      CodeGeneration.Resolved options program.ops depths assembly ∧
      machine = MachineCode.describe program options (CodeGeneration.needs program.ops) assembly := by
  rw [Program.compile] at h
  split at h
  · cases h
  · next depths hdepths =>
      simp only at h
      split at h
      · next assembly hassembly =>
          cases h
          obtain ⟨script, hscript, hassembly⟩ := except_bind_eq_ok.mp hassembly
          obtain ⟨code, hassemble, hresolve⟩ := except_bind_eq_ok.mp hassembly
          obtain ⟨rfl, hresolved⟩ := CodeGeneration.resolve_eq_ok hresolve
          exact ⟨depths, script, assembly, hdepths, hscript, hassemble, hresolved, rfl⟩
      · cases h

namespace Process
variable {process : Process}

/-- A script is somewhere in memory. -/
def Contains (process : Process) (script : Script) : Prop :=
  ∃ first last, process.Stands script first last

theorem Contains.append {script script' : Script} (h : process.Contains (script ++ script')) :
    process.Contains script ∧ process.Contains script' := by
  obtain ⟨first, last, h⟩ := h
  obtain ⟨middle, hfirst, hsecond⟩ := h.append
  exact ⟨⟨first, middle, hfirst⟩, ⟨middle, last, hsecond⟩⟩

theorem Contains.optional {present : Bool} {script : Script}
    (h : process.Contains (CodeGeneration.optional present script)) (hpresent : present = true) :
    process.Contains script := by
  subst hpresent
  exact h

theorem contains_of_assemble (h : process.Loaded) {labels : List CodeLabel} {script : Script}
    (hassemble : CodeGeneration.assemble labels script = .ok process.code)
    (hsolid : Script.Solid script) : process.Contains script := by
  obtain ⟨final, hrun, hdone, hcode⟩ := CodeGeneration.assemble_eq_ok hassemble
  have hsolid' : process.code.Solid := hcode ▸ Assembler.solid_assemble hsolid hrun
  exact ⟨_, _, stands_run h hrun hdone (Assembler.distinct_empty.run hrun) hcode hsolid'⟩

/-- A script of less than a page can be loaded behind the fourth megabyte and used with 64 kilobytes of
stack. -/
theorem exists_contains (labels : List CodeLabel) (script : Script)
    (hassemble : (CodeGeneration.assemble labels script).toOption.any
      (fun code => decide (code.bytes.size < 4096)) = true) (hsolid : .emit (.data []) ∉ script) :
    ∃ process : Process, process.Loaded ∧ process.low = 140737488289792 ∧
      process.high = 140737488355328 ∧ process.Contains script := by
  obtain ⟨code, hcode, hsize⟩ := exists_ok_of_any hassemble
  have hsize : code.bytes.size < 4096 := of_decide_eq_true hsize
  have hloaded : (load code 4194304 140737488289792 140737488355328).Loaded :=
    loaded_load (by omega) (by decide) (by decide)
  exact ⟨_, hloaded, rfl, rfl, contains_of_assemble hloaded hcode hsolid⟩

/-- The parts of a program in memory. -/
structure Compiled (process : Process) (stackBased : Bool) (program : Program)
    (depths : Flow.Depths) : Prop where
  prologue : ∃ code, Frame.prologue program.slots.size = .ok code ∧
    process.Stands (Code.script code) (process.label .main) (process.label (.op 0))
  operation : ∀ {addr depth : Nat} {op : Op}, program.ops[addr]? = some op →
    Flow.At depths addr depth → ∃ code next,
      CodeGeneration.body stackBased addr depth op = .ok code ∧
      process.Stands code (process.label (.op addr)) next ∧
      (addr + 1 < program.ops.size → next = process.label (.op (addr + 1)))
  epilogue : process.Contains (.place .leave :: Code.script Frame.epilogue)
  trap : (CodeGeneration.needs program.ops).trap = true → process.Contains Routines.trap ∧
    process.Contains (Routines.datum .trapText Machine.trapMessage)
  printInt : (CodeGeneration.needs program.ops).printInt = true → process.Contains Routines.printInt
  printBool : (CodeGeneration.needs program.ops).printBool = true →
    process.Contains Routines.printBool ∧
    process.Contains (Routines.datum .trueText Routines.trueText) ∧
    process.Contains (Routines.datum .falseText Routines.falseText)

theorem compiled_of_contains {options : CodeOptions} {program : Program} {depths : Flow.Depths}
    (hdepths : program.depths = .ok depths) {script : Script}
    (hscript : CodeGeneration.script options program depths = .ok script)
    (hcontains : process.Contains script) :
    process.Compiled options.stackBased program depths := by
  obtain ⟨code, scripts, hcode, hscripts, rfl⟩ := CodeGeneration.script_eq_ok hscript
  obtain ⟨hfirst, -, hsize⟩ := Program.depths_spec hdepths
  have hlength : (program.ops.toList.zip depths.toList).length = program.ops.size := by
    rw [List.length_zip, Array.length_toList, Array.length_toList, hsize, Nat.min_self]
  obtain ⟨hprogram, hsupport⟩ := hcontains.append
  obtain ⟨hbody, hleave⟩ := hprogram.append
  obtain ⟨start, last, hbody⟩ := hbody
  obtain ⟨middle, hmain, hbody⟩ := hbody.append
  obtain ⟨entry, -, hlabel, hmain⟩ := hmain.append
  obtain ⟨hsupport, htexts⟩ := hsupport.append
  obtain ⟨hsupport, htrapText⟩ := hsupport.append
  obtain ⟨hsupport, hprintBool⟩ := hsupport.append
  obtain ⟨htrap, hprintInt⟩ := hsupport.append
  refine ⟨⟨code, hcode, ?_⟩, ?_, hleave, fun h => ⟨htrap.optional h, htrapText.optional h⟩,
    fun h => hprintInt.optional h,
    fun h => ⟨hprintBool.optional h, (htexts.optional h).append⟩⟩
  · have hne : program.ops.toList.zip depths.toList ≠ [] := by
      intro hnil
      have hlt := (Array.getElem?_eq_some_iff.mp hfirst).1
      rw [hnil, List.length_nil] at hlength
      omega
    rw [hscripts.first hne hbody, ← hlabel] at hmain
    exact hmain
  · intro addr depth op hop hdepth
    have hget : (program.ops.toList.zip depths.toList)[addr]? = some (op, some depth) := by
      rw [List.getElem?_zip_eq_some]
      exact ⟨by simpa using hop, by simpa [Flow.At] using hdepth⟩
    have hbody := hscripts.get hbody hget
    rw [hlength, Nat.zero_add, Nat.zero_add] at hbody
    exact hbody

/-- A compiled program that is loaded has all its parts in memory. -/
theorem compiled_of_compile (h : process.Loaded) {options : CodeOptions} {program : Program}
    {machine : MachineCode} (hcompile : program.compile options = .ok machine)
    (hcode : process.code = machine.code) :
    ∃ depths, program.depths = .ok depths ∧
      process.Compiled options.stackBased program depths ∧
      process.address machine.mainOffset = process.label .main := by
  obtain ⟨depths, script, assembly, hdepths, hscript, hassemble, hresolved, rfl⟩ := compile_eq_ok hcompile
  have hcode' : process.code = assembly.code := hcode
  rw [← hcode'] at hassemble
  have hcontains := contains_of_assemble h hassemble (CodeGeneration.solid_script hscript)
  refine ⟨depths, hdepths, compiled_of_contains hdepths hscript hcontains, ?_⟩
  rw [label, hcode', MachineCode.mainOffset_describe hresolved]

end Process

end GotoLang.X64
