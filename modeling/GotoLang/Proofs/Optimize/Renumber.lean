import GotoLang.Proofs.Optimize.SameRuns

/-!
# Renumbered operations

Dropping empty operations moves the live ones closer together. A machine with the old operations
corresponds to one with the new operations that stands behind as many live operations. While the old
one passes empty operations the new one waits; then both carry out the same live operation.
-/
namespace GotoLang

namespace Renumber
variable {ops : Array Op}

theorem liveBefore_le (ops : Array Op) (addr : Nat) : liveBefore ops addr ≤ ops.size := by
  have h₁ := List.countP_le_length (p := fun op : Op => decide (op ≠ .nop))
    (l := ops.toList.take addr)
  rw [List.length_take, Array.length_toList] at h₁
  exact h₁.trans (Nat.min_le_right _ _)

theorem toNat_addr (hsize : ops.size < 4294967296) (old : Addr) :
    (addr ops old).toNat = liveBefore ops old.toNat := by
  have h := liveBefore_le ops old.toNat
  rw [addr, Nat.toUInt32_eq, UInt32.toNat_ofNat']
  omega

@[simp] theorem liveBefore_zero (ops : Array Op) : liveBefore ops 0 = 0 := by
  rw [liveBefore, List.take_zero, List.countP_nil]

theorem liveBefore_succ {addr : Nat} {op : Op} (h : ops[addr]? = some op) :
    liveBefore ops (addr + 1) = liveBefore ops addr + if op = .nop then 0 else 1 := by
  have h' : ops.toList[addr]? = some op := by rwa [Array.getElem?_toList]
  rw [liveBefore, List.take_add_one, h', List.countP_append, liveBefore]
  by_cases hop : op = .nop <;> simp [hop]

theorem liveBefore_succ_of_live {addr : Nat} {op : Op} (h : ops[addr]? = some op) (hop : op ≠ .nop) :
    liveBefore ops (addr + 1) = liveBefore ops addr + 1 := by
  rw [liveBefore_succ h, if_neg hop]

theorem liveBefore_of_size_le {addr : Nat} (h : ops.size ≤ addr) :
    liveBefore ops addr = liveBefore ops ops.size := by
  rw [liveBefore, liveBefore, List.take_of_length_le (by simpa using h),
    List.take_of_length_le (by simp)]

theorem liveBefore_of_nops {first last : Nat} (h : Op.Nops ops first last) (hle : first ≤ last) :
    liveBefore ops first = liveBefore ops last := by
  induction hle using Nat.decreasingInduction with
  | self => rfl
  | of_succ k hk ih =>
      rw [← ih h.tail, liveBefore_succ (h k le_rfl hk), if_pos rfl, Nat.add_zero]

theorem liveBefore_of_no_nop (h : ∀ addr : Nat, ops[addr]? ≠ some .nop) {addr : Nat} (hle : addr ≤ ops.size) :
    liveBefore ops addr = addr := by
  induction addr with
  | zero => exact liveBefore_zero ops
  | succ addr ih =>
      have ho := Array.getElem?_eq_getElem (Nat.lt_of_succ_le hle)
      rw [liveBefore_succ_of_live ho fun hnop => h addr (by rw [ho, hnop]), ih (by omega)]

theorem liveBefore_mono {first last : Nat} (hle : first ≤ last) :
    liveBefore ops first ≤ liveBefore ops last := by
  rw [liveBefore, liveBefore]
  exact (List.take_sublist_take_left hle).countP_le

theorem liveBefore_le_size (ops : Array Op) (addr : Nat) : liveBefore ops addr ≤ liveBefore ops ops.size := by
  by_cases hle : addr ≤ ops.size
  · exact liveBefore_mono hle
  · exact (liveBefore_of_size_le (by omega)).le

/-- Two live operations do not stand behind as many live ones. -/
theorem eq_of_liveBefore_eq {first second : Nat} {op op' : Op} (hfirst : ops[first]? = some op)
    (hop : op ≠ .nop) (hsecond : ops[second]? = some op') (hop' : op' ≠ .nop)
    (heq : liveBefore ops first = liveBefore ops second) : first = second := by
  have hafter := liveBefore_succ_of_live hfirst hop
  have hafter' := liveBefore_succ_of_live hsecond hop'
  rcases Nat.lt_trichotomy first second with hlt | rfl | hlt
  · have hle : liveBefore ops (first + 1) ≤ liveBefore ops second := liveBefore_mono hlt
    omega
  · rfl
  · have hle : liveBefore ops (second + 1) ≤ liveBefore ops first := liveBefore_mono hlt
    omega

theorem liveBefore_of_no_live {addr : Nat} (h : Op.nextLive? ops addr = none) :
    liveBefore ops addr = liveBefore ops ops.size := by
  by_cases hle : addr ≤ ops.size
  · exact liveBefore_of_nops (Op.nextLive?_eq_none h) hle
  · exact liveBefore_of_size_le (by omega)

/-- Of the live operations before an address, there is one behind each smaller number of them. -/
theorem exists_of_lt_liveBefore {i last : Nat} (h : i < liveBefore ops last) :
    ∃ (addr : Nat) (op : Op), ops[addr]? = some op ∧ op ≠ .nop ∧ liveBefore ops addr = i := by
  induction last with
  | zero =>
      rw [liveBefore_zero] at h
      omega
  | succ last ih =>
      by_cases hlast : i < liveBefore ops last
      · exact ih hlast
      · cases ho : ops[last]? with
        | none =>
            have hsize : ops.size ≤ last := Array.getElem?_eq_none_iff.mp ho
            rw [liveBefore_of_size_le (by omega), ← liveBefore_of_size_le hsize] at h
            exact absurd h hlast
        | some op =>
            rw [liveBefore_succ ho] at h
            split_ifs at h with hop
            · exact absurd h hlast
            · exact ⟨last, op, ho, hop, by omega⟩

/-- If as many live operations stand before an address as before a live one, only empty operations lead from there
to it. -/
theorem nextLive?_of_liveBefore_eq {addr live : Nat} {op : Op} (ho : ops[live]? = some op) (hop : op ≠ .nop)
    (heq : liveBefore ops addr = liveBefore ops live) : Op.nextLive? ops addr = some live := by
  have hlt : live < ops.size := (Array.getElem?_eq_some_iff.mp ho).1
  have hafter := liveBefore_succ_of_live ho hop
  refine Op.nextLive?_eq_some.mpr ⟨?_, hlt, fun hnop => hop (Option.some.inj (ho.symm.trans hnop)), ?_⟩
  · by_contra hle
    have hmono : liveBefore ops (live + 1) ≤ liveBefore ops addr := liveBefore_mono (by omega)
    omega
  · intro other hf hl
    have ho' := Array.getElem?_eq_getElem (hl.trans hlt)
    by_contra hne
    have hnext := liveBefore_succ_of_live ho' fun hnop => hne (by rw [ho', hnop])
    have hfirst : liveBefore ops addr ≤ liveBefore ops other := liveBefore_mono hf
    have hlast : liveBefore ops (other + 1) ≤ liveBefore ops live := liveBefore_mono hl
    omega

theorem eq_of_nextLive? {addr addr' live live' : Nat} (h : Op.nextLive? ops addr = some live)
    (h' : Op.nextLive? ops addr' = some live') (heq : liveBefore ops live = liveBefore ops live') :
    live = live' := by
  obtain ⟨op, ho, hop⟩ := Op.live_of_nextLive? h
  obtain ⟨op', ho', hop'⟩ := Op.live_of_nextLive? h'
  exact eq_of_liveBefore_eq ho hop ho' hop' heq

theorem eq_of_op_eq {o o' : Op} (h : o' = op ops o) (ht : o'.target? = none) : o = o' := by
  subst h
  cases o with
  | jump target | jumpIf target => cases ht
  | _ => rfl

theorem op_of_inside {bound : Nat} (haddr : ∀ old : Addr, old.toNat ≤ bound → addr ops old = old) {o : Op}
    (ht : ∀ target, o.target? = some target → target.toNat ≤ bound) : op ops o = o := by
  cases o with
  | jump target | jumpIf target =>
      simp only [op, Op.target?, Op.retarget?, Option.getD_some]
      rw [haddr target (ht target rfl)]
  | _ => rfl

theorem op_eq_nop {o : Op} : op ops o = .nop ↔ o = .nop := by
  cases o <;> simp [op, Op.target?, Op.retarget?]

theorem getElem?_filter_countP {α : Type} {p : α → Bool} {l : List α} {i : Nat} {a : α}
    (ha : l[i]? = some a) (hp : p a = true) : (l.filter p)[(l.take i).countP p]? = some a := by
  induction l generalizing i with
  | nil => simp at ha
  | cons b l ih =>
      cases i with
      | zero =>
          cases ha
          simp [hp]
      | succ i =>
          rw [List.getElem?_cons_succ] at ha
          rw [List.take_succ_cons, List.countP_cons, List.filter_cons]
          by_cases hb : p b = true
          · simpa [hb] using ih ha
          · simpa [hb] using ih ha

end Renumber

namespace Program

theorem map_fst_zip_lines {program : Program} (hlines : program.lines.size = program.ops.size) :
    (program.ops.zip program.lines).toList.map Prod.fst = program.ops.toList := by
  rw [Array.toList_zip, List.map_fst_zip]
  simp [hlines]

/-- With a line for each operation, the new operations are the live ones with new targets. -/
theorem toList_ops_renumber {program : Program} (hlines : program.lines.size = program.ops.size) :
    program.renumber.1.ops.toList =
      (program.ops.toList.filter (· ≠ .nop)).map (Renumber.op program.ops) := by
  simp only [renumber, Array.toList_map, Array.toList_filter]
  rw [← map_fst_zip_lines hlines, List.filter_map, List.map_map]
  rfl

theorem size_ops_renumber {program : Program} (hlines : program.lines.size = program.ops.size) :
    program.renumber.1.ops.size = Renumber.liveBefore program.ops program.ops.size := by
  rw [← Array.length_toList, toList_ops_renumber hlines, List.length_map,
    ← List.countP_eq_length_filter, Renumber.liveBefore, List.take_of_length_le (by simp)]

theorem getElem?_renumber {program : Program} (hlines : program.lines.size = program.ops.size)
    {addr : Nat} {op : Op} (ho : program.ops[addr]? = some op) (hop : op ≠ .nop) :
    program.renumber.1.ops[Renumber.liveBefore program.ops addr]? =
      some (Renumber.op program.ops op) := by
  have h : program.ops.toList[addr]? = some op := by rwa [Array.getElem?_toList]
  rw [← Array.getElem?_toList, toList_ops_renumber hlines, List.getElem?_map, Renumber.liveBefore,
    Renumber.getElem?_filter_countP h (by simpa using hop)]
  rfl

/-- A live operation keeps its source line. -/
theorem getElem?_lines_renumber {program : Program} (hlines : program.lines.size = program.ops.size)
    {addr : Nat} {op : Op} (ho : program.ops[addr]? = some op) (hop : op ≠ .nop) :
    program.renumber.1.lines[Renumber.liveBefore program.ops addr]? = program.lines[addr]? := by
  have hlt : addr < program.lines.size := hlines ▸ (Array.getElem?_eq_some_iff.mp ho).1
  have hline := Array.getElem?_eq_getElem hlt
  have hentry : (program.ops.zip program.lines).toList[addr]? = some (op, program.lines[addr]) := by
    rw [Array.getElem?_toList, Array.getElem?_zip_eq_some]
    exact ⟨ho, hline⟩
  have hbefore : ((program.ops.zip program.lines).toList.take addr).map Prod.fst = program.ops.toList.take addr := by
    rw [List.map_take, map_fst_zip_lines hlines]
  have hcount : ((program.ops.zip program.lines).toList.take addr).countP (fun entry => decide (entry.1 ≠ .nop)) =
      Renumber.liveBefore program.ops addr := by
    rw [Renumber.liveBefore, ← hbefore, List.countP_map]
    rfl
  have hkept := Renumber.getElem?_filter_countP (p := fun entry => decide (entry.1 ≠ .nop)) hentry (by simpa using hop)
  simp only [renumber, ← Array.getElem?_toList, Array.toList_map, Array.toList_filter, List.getElem?_map]
  rw [← hcount, hkept, Array.getElem?_toList, hline]
  rfl

/-- Each new operation is a live one that stands behind as many live ones as its new address says. -/
theorem exists_of_getElem?_renumber {program : Program} (hlines : program.lines.size = program.ops.size)
    {i : Nat} {op' : Op} (h : program.renumber.1.ops[i]? = some op') :
    ∃ (addr : Nat) (op : Op), program.ops[addr]? = some op ∧ op ≠ .nop ∧
      Renumber.liveBefore program.ops addr = i ∧ op' = Renumber.op program.ops op := by
  have hlt : i < Renumber.liveBefore program.ops program.ops.size :=
    size_ops_renumber hlines ▸ (Array.getElem?_eq_some_iff.mp h).1
  obtain ⟨addr, op, ho, hop, rfl⟩ := Renumber.exists_of_lt_liveBefore hlt
  rw [getElem?_renumber hlines ho hop] at h
  exact ⟨addr, op, ho, hop, rfl, (Option.some.inj h).symm⟩

theorem renumber_ne_nop {program : Program} (hlines : program.lines.size = program.ops.size) (i : Nat) :
    program.renumber.1.ops[i]? ≠ some .nop := by
  intro h
  obtain ⟨addr, op, -, hop, -, hnew⟩ := exists_of_getElem?_renumber hlines h
  exact hop (Renumber.op_eq_nop.mp hnew.symm)

/-- The next live operation stays the next one. -/
theorem nextLive?_renumber {program : Program} (hlines : program.lines.size = program.ops.size) (addr : Nat) :
    Op.nextLive? program.renumber.1.ops (Renumber.liveBefore program.ops addr) =
      (Op.nextLive? program.ops addr).map (Renumber.liveBefore program.ops) := by
  cases h : Op.nextLive? program.ops addr with
  | none =>
      rw [Renumber.liveBefore_of_no_live h, ← size_ops_renumber hlines, Op.nextLive?, Nat.sub_self]
      rfl
  | some live =>
      obtain ⟨hle, -, -, hnops⟩ := Op.nextLive?_eq_some.mp h
      obtain ⟨op, ho, hop⟩ := Op.live_of_nextLive? h
      have hnew := (Array.getElem?_eq_some_iff.mp (getElem?_renumber hlines ho hop)).1
      rw [Renumber.liveBefore_of_nops hnops hle, Option.map_some, Op.nextLive?_eq_some]
      exact ⟨le_rfl, hnew, renumber_ne_nop hlines _, fun other hf hl => by omega⟩

/-- What stands at the new place of an address is the next live operation from there. -/
theorem nextLive_of_getElem?_renumber {program : Program} (hlines : program.lines.size = program.ops.size)
    {addr : Nat} {op' : Op} (h : program.renumber.1.ops[Renumber.liveBefore program.ops addr]? = some op') :
    ∃ (live : Nat) (op : Op), Op.nextLive? program.ops addr = some live ∧ program.ops[live]? = some op ∧
      op ≠ .nop ∧ Renumber.liveBefore program.ops live = Renumber.liveBefore program.ops addr ∧
      op' = Renumber.op program.ops op := by
  obtain ⟨live, op, ho, hop, heq, hnew⟩ := exists_of_getElem?_renumber hlines h
  exact ⟨live, op, Renumber.nextLive?_of_liveBefore_eq ho hop heq.symm, ho, hop, heq, hnew⟩

theorem size_lines_renumber (program : Program) :
    program.renumber.1.lines.size = program.renumber.1.ops.size := by
  simp [renumber]

end Program

namespace Renumber
variable {ops : Array Op}

/-- The machine with the new operations that corresponds to one with the old operations. -/
def place (ops : Array Op) (m : Machine) : Machine :=
  m.withPc (liveBefore ops m.pc)

theorem halt_place (m : Machine) (status : Word) :
    (place ops m).halt status = (m.halt status).map (place ops) := by
  obtain ⟨pc, stack, slots, ⟨bytes, room, flushFails | flushFails⟩, err⟩ := m <;> rfl

theorem trap_place (m : Machine) : (place ops m).trap = m.trap.map (place ops) := by
  obtain ⟨pc, stack, slots, ⟨bytes, room, flushFails | flushFails⟩, err⟩ := m
  · simp only [place, Machine.withPc, Machine.trap, Bool.false_eq_true, if_false]
    rcases err.print Machine.trapMessage with ⟨err', full | full⟩ <;> rfl
  · rfl

theorem pops_op (ops : Array Op) (o : Op) : (op ops o).pops = o.pops := by
  cases o <;> rfl

/-- A renumbered operation does at the new place what the operation does at the old one. -/
theorem perform_place (hsize : ops.size < 4294967296) (m : Machine) (o : Op) :
    (place ops m).perform (op ops o) = (m.perform o).map (place ops) := by
  generalize hperform : m.perform o = outcome
  apply Machine.Performs.perform_eq
  cases Machine.performs_iff.mpr hperform with
  | push => exact .push
  | load hslot => exact .load hslot
  | loadUnknown hnone => exact .loadUnknown hnone
  | store hs hslot => exact .store hs hslot
  | storeUnknown hs hunknown => exact .storeUnknown hs hunknown
  | unary hs => exact .unary hs
  | binary hs hvalue => exact .binary hs hvalue
  | @divideByZero _ _ _ rest _ hs hvalue htrap =>
      exact .divideByZero hs hvalue (htrap ▸ trap_place { m with stack := rest })
  | @jump target =>
      have hjump : (place ops m).Performs (.jump (addr ops target)) _ := .jump
      rw [toNat_addr hsize] at hjump
      exact hjump
  | @jumpIf target _ _ hs hvalue =>
      have hjump : (place ops m).Performs (.jumpIf (addr ops target)) _ := .jumpIf hs hvalue
      rw [toNat_addr hsize] at hjump
      exact hjump
  | fallThrough hs => exact .fallThrough hs
  | print hs hout => exact .print hs hout
  | printCut hs hout => exact .printCut hs hout
  | @exit status rest _ hs hhalt => exact .exit hs (hhalt ▸ halt_place { m with stack := rest } status)
  | nop => exact .nop
  | underflow hfew => exact .underflow (pops_op ops o ▸ hfew)

theorem transition_place (outcome : Machine.Outcome) :
    (outcome.map (place ops)).transition =
      match outcome.transition with
      | .next n => .next (place ops n)
      | .stop e => .stop e := by
  cases outcome <;> rfl

theorem place_of_nops {m : Machine} {live : Nat} (h : Op.Nops ops m.pc live) (hle : m.pc ≤ live) :
    place ops m = place ops (m.withPc live) := by
  simp only [place, Machine.withPc, liveBefore_of_nops h hle]

end Renumber

namespace Program
variable {program : Program}

/-- At a live operation the new machine makes the step of the old one. -/
theorem move_place (hsize : program.ops.size < 4294967296)
    (hlines : program.lines.size = program.ops.size) {m : Machine} {op : Op}
    (ho : program.ops[m.pc]? = some op) (hop : op ≠ .nop) :
    Machine.move program.renumber.1.ops (Renumber.place program.ops m) =
      match Machine.move program.ops m with
      | .next n => .next (Renumber.place program.ops n)
      | .stop e => .stop e := by
  have ho' := getElem?_renumber hlines ho hop
  have hpc : (Renumber.place program.ops m).withPc (Renumber.liveBefore program.ops m.pc + 1) =
      Renumber.place program.ops (m.withPc (m.pc + 1)) := by
    simp only [Renumber.place, Machine.withPc, Renumber.liveBefore_succ_of_live ho hop]
  rw [Machine.move, Machine.move, Machine.step_of_get ho, ← Renumber.transition_place,
    ← Renumber.perform_place hsize, ← hpc]
  exact congrArg _ (Machine.step_of_get ho')

/-- Where only empty operations are left both machines run past the end. -/
theorem ends_of_no_live (hlines : program.lines.size = program.ops.size) {m : Machine}
    (h : Op.nextLive? program.ops m.pc = none) :
    ∃ e e', Ends (Machine.move program.ops) m e ∧
      Ends (Machine.move program.renumber.1.ops) (Renumber.place program.ops m) e' ∧ e.Alike e' := by
  have hend : ∀ {ops : Array Op} {n : Machine}, ops.size ≤ n.pc →
      Ends (Machine.move ops) n ⟨.error (.pastEnd n.pc), n.out.bytes, n.err.bytes⟩ := by
    intro ops n hn
    refine .stop ?_
    rw [Machine.move, Machine.step_of_size_le hn]
    rfl
  have hnew : Renumber.liveBefore program.ops m.pc = program.renumber.1.ops.size := by
    rw [size_ops_renumber hlines, Renumber.liveBefore_of_no_live h]
  have hnew' := hend (n := Renumber.place program.ops m) (le_of_eq hnew.symm)
  by_cases hle : m.pc ≤ program.ops.size
  · have hpath := ((Op.nextLive?_eq_none h).leads hle).reaches (m := m) rfl
    exact ⟨_, _, (hend (n := m.withPc program.ops.size) le_rfl).before hpath, hnew',
      Ending.alike_pastEnd _ _ _ _⟩
  · exact ⟨_, _, hend (by omega), hnew', Ending.alike_pastEnd _ _ _ _⟩

/-- Old and new operations meet at every live operation and at the end. -/
theorem renumber_sameRuns (hsize : program.ops.size < 4294967296)
    (hlines : program.lines.size = program.ops.size) :
    SameRuns program.ops program.renumber.1.ops := by
  refine SameRuns.of_meeting (R := fun m n => n = Renumber.place program.ops m) ?_ ?_
  · rintro m _ rfl
    cases hl : Op.nextLive? program.ops m.pc with
    | none => exact .inl (ends_of_no_live hlines hl)
    | some live =>
        obtain ⟨hle, -, -, hnops⟩ := Op.nextLive?_eq_some.mp hl
        obtain ⟨op, ho, hop⟩ := Op.live_of_nextLive? hl
        have hpath := (hnops.leads hle).reaches (m := m) rfl
        have hmove := move_place hsize hlines (m := m.withPc live) ho hop
        rw [← Renumber.place_of_nops hnops hle] at hmove
        cases hm : Machine.move program.ops (m.withPc live) with
        | next n =>
            rw [hm] at hmove
            exact .inr ⟨n, _, .tail' hpath hm, .single hmove, rfl⟩
        | stop e =>
            rw [hm] at hmove
            exact .inl ⟨e, e, (Ends.stop hm).before hpath, .stop hmove, .refl e⟩
  · intro m hm
    rw [Renumber.place, hm, Renumber.liveBefore_zero, ← hm]
    rfl

end Program

end GotoLang
