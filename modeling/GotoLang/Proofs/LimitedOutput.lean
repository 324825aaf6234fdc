import GotoLang.Proofs.StackDiscipline

/-!
# Output that is cut off

A sink with limited room takes the bytes that fit and fails at the next one. No operation looks at the
sinks but to write, so a machine with limited sinks goes the way of one whose sinks take everything, up to
the first write that does not fit. What was written by then is the beginning of all that would have been
written, since output only grows. The error sink is written to once, by a division by zero, and nothing
happens after that.
-/
namespace GotoLang

namespace Sink

/-- An empty sink with room for so many bytes. -/
def ofRoom (room : Nat) : Sink :=
  { room := some room }

/-- The bytes of a sink in one that had room for so many when it was empty. -/
def within (sink : Sink) (capacity : Nat) : Sink :=
  { bytes := sink.bytes, room := some (capacity - sink.bytes.size) }

section
variable {sink : Sink} {capacity : Nat} {text : String}

theorem print_within_of_le (h : (sink.append (Bytes.ofText text)).bytes.size ≤ capacity) :
    (sink.within capacity).print text = ((sink.append (Bytes.ofText text)).within capacity, true) := by
  simp only [append, Array.size_append] at h
  have hfits : (Bytes.ofText text).size ≤ capacity - sink.bytes.size := by omega
  simp only [print, write, within, append, if_pos hfits, Array.size_append, Nat.sub_sub]

/-- A text that does not fit fills the sink up. -/
theorem print_within_of_lt (hsink : sink.bytes.size ≤ capacity)
    (h : capacity < (sink.append (Bytes.ofText text)).bytes.size) : ∃ full : Sink,
      (sink.within capacity).print text = (full, false) ∧
      full.bytes = (sink.append (Bytes.ofText text)).bytes.take capacity := by
  simp only [append, Array.size_append] at h
  have hfits : ¬ (Bytes.ofText text).size ≤ capacity - sink.bytes.size := by omega
  simp only [print, write, within, if_neg hfits]
  refine ⟨_, rfl, ?_⟩
  simp only [append, Array.take_eq_extract, Array.extract_append, Array.extract_eq_self_of_le hsink,
    Nat.zero_sub]

end

end Sink

/-- What is seen of a run with limited sinks if this is seen of it with sinks that take everything. -/
def Ending.cut (ending : Ending) (outRoom errRoom : Nat) : Ending :=
  if outRoom < ending.out.size then ⟨.error (.outFailed .noRoom), ending.out.take outRoom, #[]⟩
  else if errRoom < ending.err.size then
    ⟨.error (.errFailed .noRoom), ending.out, ending.err.take errRoom⟩
  else ending

section
variable {outRoom errRoom : Nat}

theorem Ending.cut_of_out (ending : Ending) (h : outRoom < ending.out.size) :
    ending.cut outRoom errRoom = ⟨.error (.outFailed .noRoom), ending.out.take outRoom, #[]⟩ :=
  if_pos h

theorem Ending.cut_of_err (ending : Ending) (hout : ending.out.size ≤ outRoom)
    (h : errRoom < ending.err.size) :
    ending.cut outRoom errRoom = ⟨.error (.errFailed .noRoom), ending.out, ending.err.take errRoom⟩ := by
  rw [cut, if_neg (Nat.not_lt.mpr hout), if_pos h]

theorem Ending.cut_of_fits (ending : Ending) (hout : ending.out.size ≤ outRoom)
    (herr : ending.err.size ≤ errRoom) : ending.cut outRoom errRoom = ending := by
  rw [cut, if_neg (Nat.not_lt.mpr hout), if_neg (Nat.not_lt.mpr herr)]

end

namespace Machine

/-- The same machine with other sinks. -/
def withSinks (machine : Machine) (out err : Sink) : Machine :=
  { machine with out, err }

/-- Write a text and go on. -/
def write (machine : Machine) (text : String) : Outcome :=
  match machine.out.print text with
  | (out, true) => .running { machine with out }
  | (out, false) => .failed (.outFailed .noRoom) { machine with out }

theorem write_empty (m : Machine) : m.write "" = .running m := by
  obtain ⟨pc, stack, slots, ⟨bytes, room, flushFails⟩, err⟩ := m
  have hnothing : Bytes.ofText "" = #[] := rfl
  cases room <;> simp [write, Sink.print, Sink.write, hnothing]

/-- What a machine does, given the sinks: it goes on with a text written, which may be empty, or it
stops. -/
inductive Acts (act : Sink → Sink → Outcome) : Prop
  | writes (text : String) (next : Machine) :
      (∀ out err, act out err = (next.withSinks out err).write text) → Acts act
  | stops (result : Except MachineFault Word) :
      (∀ out err, out.flushFails = false → (act out err).transition = .stop ⟨result, out.bytes, err.bytes⟩) →
      Acts act
  | traps (next : Machine) : (∀ out err, act out err = (next.withSinks out err).trap) → Acts act

section
variable {act : Sink → Sink → Outcome}

theorem Acts.silent (next : Machine) (h : ∀ out err, act out err = .running (next.withSinks out err)) : Acts act :=
  .writes "" next fun out err => (h out err).trans (write_empty _).symm

theorem Acts.halts (status : Word) (next : Machine)
    (h : ∀ out err, act out err = (next.withSinks out err).halt status) : Acts act := by
  refine .stops (.ok status) fun out err hflush => ?_
  rw [h, halt, show (next.withSinks out err).out.flushFails = false from hflush]
  rfl

theorem Acts.sticks (fault : MachineFault) (next : Machine)
    (h : ∀ out err, act out err = .failed fault (next.withSinks out err)) : Acts act := by
  refine .stops (.error fault) fun out err _ => ?_
  rw [h]
  rfl

end

/-- What is printed is the only thing that the sinks can cut. -/
theorem acts_print {m : Machine} {value : Word} {rest : List Word} (hs : m.stack = value :: rest) (ty : Ty) :
    Acts fun out err => (m.withSinks out err).perform (.print ty) := by
  refine .writes (printed value ty) { m with stack := rest } fun out err => ?_
  rw [perform, show (m.withSinks out err).stack = value :: rest from hs]
  rfl

theorem acts_perform (m : Machine) (op : Op) : Acts fun out err => (m.withSinks out err).perform op := by
  obtain ⟨outcome, hperforms⟩ := exists_performs m op
  cases hperforms with
  | @push value => exact .silent { m with stack := value :: m.stack } fun _ _ => Performs.perform_eq .push
  | @load slot value hslot =>
      exact .silent { m with stack := value :: m.stack } fun _ _ => Performs.perform_eq (.load hslot)
  | loadUnknown hnone => exact .sticks _ m fun _ _ => Performs.perform_eq (.loadUnknown hnone)
  | @store slot value rest hs hslot =>
      exact .silent { m with stack := rest, slots := m.slots.setIfInBounds slot.toNat value }
        fun _ _ => Performs.perform_eq (.store hs hslot)
  | @storeUnknown slot value rest hs hslot =>
      exact .sticks _ { m with stack := rest } fun _ _ => Performs.perform_eq (.storeUnknown hs hslot)
  | @unary op value rest hs =>
      exact .silent { m with stack := op.eval value :: rest } fun _ _ => Performs.perform_eq (.unary hs)
  | @binary op lhs rhs value rest hs hvalue =>
      exact .silent { m with stack := value :: rest } fun _ _ => Performs.perform_eq (.binary hs hvalue)
  | @divideByZero op lhs rhs rest outcome hs hvalue =>
      exact .traps { m with stack := rest } fun _ _ => Performs.perform_eq (.divideByZero hs hvalue rfl)
  | @jump target => exact .silent { m with pc := target.toNat } fun _ _ => Performs.perform_eq .jump
  | @jumpIf target value rest hs hvalue =>
      exact .silent { m with stack := rest, pc := target.toNat }
        fun _ _ => Performs.perform_eq (.jumpIf hs hvalue)
  | @fallThrough target rest hs =>
      exact .silent { m with stack := rest } fun _ _ => Performs.perform_eq (.fallThrough hs)
  | print hs | printCut hs => exact acts_print hs _
  | @exit status rest outcome hs =>
      exact .halts status { m with stack := rest } fun _ _ => Performs.perform_eq (.exit hs rfl)
  | nop => exact .silent m fun _ _ => Performs.perform_eq .nop
  | underflow hfew => exact .sticks .stackUnderflow m fun _ _ => Performs.perform_eq (.underflow hfew)

theorem acts_step (ops : Array Op) (m : Machine) : Acts fun out err => (m.withSinks out err).step ops := by
  cases hop : ops[m.pc]? with
  | none =>
      refine .sticks (.pastEnd m.pc) m fun out err => ?_
      rw [step, show (m.withSinks out err).pc = m.pc from rfl, hop]
  | some op =>
      have hstep : (fun out err => (m.withSinks out err).step ops) =
          fun out err => ((m.withPc (m.pc + 1)).withSinks out err).perform op := by
        funext out err
        exact step_of_get (m := m.withSinks out err) hop
      rw [hstep]
      exact acts_perform _ op

theorem write_of_reliable (m : Machine) {out : Sink} (h : out.Reliable) (err : Sink) (text : String) :
    (m.withSinks out err).write text = .running (m.withSinks (out.append (Bytes.ofText text)) err) := by
  rw [write, show (m.withSinks out err).out = out from rfl, Sink.print_of_reliable h]
  rfl

section
variable {ops : Array Op} {m : Machine} {ending : Ending} {outRoom errRoom : Nat}

/-- How a run that ends with sinks that take everything begins, and how it begins with other sinks. -/
theorem acts_of_ends (hm : m.Reliable) {n : Nat} (h : EndsIn (move ops) (n + 1) m ending) :
    (∃ (text : String) (next : Machine),
      (∀ out err, (m.withSinks out err).step ops = (next.withSinks out err).write text) ∧
      EndsIn (move ops) n (next.withSinks (m.out.append (Bytes.ofText text)) m.err) ending) ∨
    (∃ result, (∀ out err, out.flushFails = false →
        move ops (m.withSinks out err) = .stop ⟨result, out.bytes, err.bytes⟩) ∧
      ending = ⟨result, m.out.bytes, m.err.bytes⟩) ∨
    ∃ next : Machine, (∀ out err, (m.withSinks out err).step ops = (next.withSinks out err).trap) ∧
      ending = ⟨.ok trapStatus, m.out.bytes, m.err.bytes ++ Bytes.ofText trapMessage⟩ := by
  rcases acts_step ops m with ⟨text, next, hact⟩ | ⟨result, hact⟩ | ⟨next, hact⟩
  · have hstep := (hact m.out m.err).trans (write_of_reliable next hm.out m.err text)
    obtain ⟨k, hk, h⟩ := h.of_moves (moves_iff.mpr hstep)
    cases hk
    exact .inl ⟨text, next, hact, h⟩
  · have hstop : move ops m = .stop ⟨result, m.out.bytes, m.err.bytes⟩ := hact m.out m.err hm.out.flush
    exact .inr (.inl ⟨result, hact, Ends.unique ⟨_, h⟩ (.stop hstop)⟩)
  · have hstep := (hact m.out m.err).trans (trap_of_reliable (m := next.withSinks m.out m.err) ⟨hm.out, hm.err⟩)
    have hstop : move ops m =
        .stop ⟨.ok trapStatus, m.out.bytes, m.err.bytes ++ Bytes.ofText trapMessage⟩ :=
      congrArg Outcome.transition hstep
    exact .inr (.inr ⟨next, hact, Ends.unique ⟨_, h⟩ (.stop hstop)⟩)

/-- What is written stays. -/
theorem out_grows (hm : m.Reliable) {n : Nat} (h : EndsIn (move ops) n m ending) :
    ∃ more, ending.out = m.out.bytes ++ more := by
  induction n generalizing m with
  | zero => cases h
  | succ n ih =>
      rcases acts_of_ends hm h with ⟨text, next, -, h⟩ | ⟨result, -, rfl⟩ | ⟨next, -, rfl⟩
      · have hnext : Reliable (next.withSinks (m.out.append (Bytes.ofText text)) m.err) :=
          ⟨hm.out.append _, hm.err⟩
        obtain ⟨more, hmore⟩ := ih hnext h
        exact ⟨Bytes.ofText text ++ more, hmore.trans (Array.append_assoc ..)⟩
      · exact ⟨#[], (Array.append_empty ..).symm⟩
      · exact ⟨#[], (Array.append_empty ..).symm⟩

/-- What a machine with limited sinks does where a text is written: the text fits, or it fills the sink and
ends the run. -/
theorem write_within (m : Machine) (text : String) {out : Sink} (err : Sink)
    (hroom : out.bytes.size ≤ outRoom) :
    let longer := out.append (Bytes.ofText text)
    let written := (m.withSinks (out.within outRoom) err).write text
    (longer.bytes.size ≤ outRoom → written = .running (m.withSinks (longer.within outRoom) err)) ∧
    (outRoom < longer.bytes.size → written.transition =
      .stop ⟨.error (.outFailed .noRoom), longer.bytes.take outRoom, err.bytes⟩) := by
  intro longer written
  have hwritten : written = match (out.within outRoom).print text with
      | (out, true) => .running (m.withSinks out err)
      | (out, false) => .failed (.outFailed .noRoom) (m.withSinks out err) := rfl
  rw [hwritten]
  constructor
  · intro hfits
    rw [Sink.print_within_of_le hfits]
  · intro hlong
    obtain ⟨full, hprint, hfull⟩ := Sink.print_within_of_lt hroom hlong
    rw [hprint, ← hfull]
    rfl

/-- The same where the message of a division by zero is written, which ends the run in any case. -/
theorem trap_within (outRoom : Nat) (m : Machine) (out : Sink) {err : Sink} (hroom : err.bytes.size ≤ errRoom) :
    let longer := err.append (Bytes.ofText trapMessage)
    let trapped := (m.withSinks (out.within outRoom) (err.within errRoom)).trap
    (longer.bytes.size ≤ errRoom →
      trapped.transition = .stop ⟨.ok trapStatus, out.bytes, longer.bytes⟩) ∧
    (errRoom < longer.bytes.size →
      trapped.transition = .stop ⟨.error (.errFailed .noRoom), out.bytes, longer.bytes.take errRoom⟩) := by
  intro longer trapped
  have htrapped : trapped = match (err.within errRoom).print trapMessage with
      | (err, true) => (m.withSinks (out.within outRoom) err).halt trapStatus
      | (err, false) => .failed (.errFailed .noRoom) (m.withSinks (out.within outRoom) err) := rfl
  rw [htrapped]
  constructor
  · intro hfits
    rw [Sink.print_within_of_le hfits]
    rfl
  · intro hlong
    obtain ⟨full, hprint, hfull⟩ := Sink.print_within_of_lt hroom hlong
    rw [hprint, ← hfull]
    rfl

theorem ends_within (hm : m.Reliable) (hroom : m.out.bytes.size ≤ outRoom) (herr : m.err.bytes = #[])
    {n : Nat} (h : EndsIn (move ops) n m ending) :
    Ends (move ops) (m.withSinks (m.out.within outRoom) (m.err.within errRoom))
      (ending.cut outRoom errRoom) := by
  have herrRoom : m.err.bytes.size ≤ errRoom := by simp [herr]
  induction n generalizing m with
  | zero => cases h
  | succ n ih =>
      rcases acts_of_ends hm h with ⟨text, next, hact, h⟩ | ⟨result, hact, rfl⟩ | ⟨next, hact, rfl⟩
      · have hnext : Reliable (next.withSinks (m.out.append (Bytes.ofText text)) m.err) :=
          ⟨hm.out.append _, hm.err⟩
        obtain ⟨hgo, hstop⟩ := write_within next text (m.err.within errRoom) hroom
        rcases Nat.lt_or_ge outRoom (m.out.append (Bytes.ofText text)).bytes.size with hlong | hfits
        · -- All output begins with what fills the sink here.
          obtain ⟨more, hmore⟩ : ∃ more, ending.out = (m.out.append (Bytes.ofText text)).bytes ++ more :=
            out_grows hnext h
          have hsize : outRoom < ending.out.size := by
            rw [hmore, Array.size_append]
            exact Nat.lt_add_right _ hlong
          have htake : ending.out.take outRoom = (m.out.append (Bytes.ofText text)).bytes.take outRoom := by
            rw [hmore, Array.take_eq_extract, Array.extract_append]
            simp [Nat.sub_eq_zero_of_le hlong.le]
          rw [ending.cut_of_out hsize, htake, ← herr]
          apply Ends.stop
          rw [move, hact]
          exact hstop hlong
        · have hstep := (hact _ _).trans (hgo hfits)
          exact (ih hnext hfits herr h herrRoom).before (.single (moves_iff.mpr hstep))
      · rw [Ending.cut_of_fits _ hroom herrRoom]
        exact .stop (hact (m.out.within outRoom) (m.err.within errRoom) rfl)
      · have hbytes : m.err.bytes ++ Bytes.ofText trapMessage =
            (m.err.append (Bytes.ofText trapMessage)).bytes := rfl
        obtain ⟨hgo, hstop⟩ := trap_within outRoom next m.out herrRoom
        apply Ends.stop
        rw [move, hact, hbytes]
        generalize m.err.append (Bytes.ofText trapMessage) = longer at hgo hstop ⊢
        rcases Nat.lt_or_ge errRoom longer.bytes.size with hlong | hfits
        · rw [hstop hlong, Ending.cut_of_err _ hroom hlong]
        · rw [hgo hfits, Ending.cut_of_fits _ hroom hfits]

end

end Machine

namespace Program
variable {program : Program} {ending : Ending}

/-- A run that ends also ends with limited sinks. -/
theorem endsWith_ofRoom (h : program.EndsWith {} {} ending) (outRoom errRoom : Nat) :
    program.EndsWith (.ofRoom outRoom) (.ofRoom errRoom) (ending.cut outRoom errRoom) := by
  obtain ⟨n, hn⟩ := endsWith_iff.mp h
  exact endsWith_iff.mpr (Machine.ends_within ⟨⟨rfl, rfl⟩, ⟨rfl, rfl⟩⟩ (Nat.zero_le outRoom) rfl hn)

/-- A checked program ends with a status. -/
theorem exists_status (hv : program.verify = .ok ()) (h : program.EndsWith {} {} ending) :
    ∃ status, ending.result = .ok status := by
  obtain ⟨steps, hend⟩ := h
  obtain ⟨-, depths, hd⟩ := verify_spec hv
  cases hrun : Machine.run program.ops steps (.start program {} {}) with
  | running m =>
      rw [hrun] at hend
      cases hend
  | halted status m =>
      rw [hrun] at hend
      cases hend
      exact ⟨status, rfl⟩
  | failed fault m =>
      have htrusty := Machine.run_trusty (m := .start program {} {}) ⟨⟨rfl, rfl⟩, ⟨rfl, rfl⟩⟩ program.ops steps
      rw [hrun] at htrusty
      exact absurd (((Machine.disciplined_start hd {} {}).run hv hd steps).2 fault m hrun) htrusty

/-- If a checked program ends with sinks that take everything, it ends with limited sinks, too. The output is
the beginning of the unlimited output that has room. The run fails for lack of room for output if and only if
something of it is missing, and then nothing is in the error sink. Otherwise the same holds for the error sink,
and a run that does not fail has the status of the unlimited run. -/
theorem output_cut_at_room (program : Program) (hv : program.verify = .ok ()) (ending : Ending)
    (h : program.EndsWith {} {} ending) (outRoom errRoom : Nat) :
    ∃ status seen, ending.result = .ok status ∧
      program.EndsWith (.ofRoom outRoom) (.ofRoom errRoom) seen ∧
      seen.out = ending.out.take outRoom ∧
      ((∃ fault, seen.result = .error (.outFailed fault)) ↔ outRoom < ending.out.size) ∧
      (outRoom < ending.out.size → seen.err = #[]) ∧
      (ending.out.size ≤ outRoom → seen.err = ending.err.take errRoom ∧
        ((∃ fault, seen.result = .error (.errFailed fault)) ↔ errRoom < ending.err.size) ∧
        (ending.err.size ≤ errRoom → seen.result = .ok status)) := by
  obtain ⟨status, hstatus⟩ := exists_status hv h
  refine ⟨status, ending.cut outRoom errRoom, hstatus, endsWith_ofRoom h outRoom errRoom, ?_⟩
  rcases Nat.lt_or_ge outRoom ending.out.size with hout | hout
  · rw [ending.cut_of_out hout]
    exact ⟨rfl, iff_of_true ⟨.noRoom, rfl⟩ hout, fun _ => rfl, fun hfits => absurd hout (Nat.not_lt.mpr hfits)⟩
  · have hwhole : ending.out = ending.out.take outRoom := (Array.extract_eq_self_of_le hout).symm
    have hnoFault : ¬ outRoom < ending.out.size := Nat.not_lt.mpr hout
    rcases Nat.lt_or_ge errRoom ending.err.size with herr | herr
    · rw [ending.cut_of_err hout herr]
      refine ⟨hwhole, iff_of_false ?_ hnoFault, fun hlong => absurd hlong hnoFault, fun _ => ⟨rfl, ?_, ?_⟩⟩
      · rintro ⟨fault, hfault⟩
        cases hfault
      · exact iff_of_true ⟨.noRoom, rfl⟩ herr
      · exact fun hfits => absurd herr (Nat.not_lt.mpr hfits)
    · have herrWhole : ending.err = ending.err.take errRoom := (Array.extract_eq_self_of_le herr).symm
      rw [ending.cut_of_fits hout herr, hstatus]
      refine ⟨hwhole, iff_of_false ?_ hnoFault, fun hlong => absurd hlong hnoFault,
        fun _ => ⟨herrWhole, iff_of_false ?_ (Nat.not_lt.mpr herr), fun _ => rfl⟩⟩
      · rintro ⟨fault, hfault⟩
        cases hfault
      · rintro ⟨fault, hfault⟩
        cases hfault

/-- A program that prints two numbers and then divides by zero. -/
def dividing : Program where
  ops := #[.push 12, .print .int, .push 345, .print .int, .push 1, .push 0, .binary (.arith .div), .exit]
  lines := #[1, 1, 2, 2, 3, 3, 3, 3]

theorem dividing_ends : dividing.EndsWith {} {}
    ⟨.ok Machine.trapStatus, Bytes.ofText "12\n345\n", Bytes.ofText Machine.trapMessage⟩ :=
  endsWith_of_halts 7 (by decide +kernel)

/-- With room for five bytes the second number is cut in the middle, and the division is not reached. -/
theorem output_cut_at_room_dividing :
    dividing.verify = .ok () ∧
    dividing.EndsWith {} {}
      ⟨.ok Machine.trapStatus, Bytes.ofText "12\n345\n", Bytes.ofText Machine.trapMessage⟩ ∧
    ∃ seen, dividing.EndsWith (.ofRoom 5) (.ofRoom 40) seen ∧ seen.out = Bytes.ofText "12\n34" ∧
      seen.err = #[] ∧ ∃ fault, seen.result = .error (.outFailed fault) := by
  have hv : dividing.verify = .ok () := rfl
  have hlong : 5 < (Bytes.ofText "12\n345\n").size := by decide +kernel
  have htake : (Bytes.ofText "12\n345\n").take 5 = Bytes.ofText "12\n34" := by decide +kernel
  obtain ⟨status, seen, -, hseen, hout, hfault, herr, -⟩ :=
    output_cut_at_room dividing hv _ dividing_ends 5 40
  exact ⟨hv, dividing_ends, seen, hseen, hout.trans htake, herr hlong, hfault.mpr hlong⟩

end Program

end GotoLang
