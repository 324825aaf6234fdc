import GotoLang.Proofs.Building

/-!
# Truth values stay truth values

The operations do not say which of their operands are truth values, and the check does not look at types.
But a program that was built from a text is typed, and it stays so whatever passes are applied to it. So
the operands of connectives, the conditions of transfers and the truth values that are printed are zero or
one, and so are the variables of that type, those included whose declaration was jumped over.
-/
namespace GotoLang

/-- How many truth values an operation takes from the top of the stack. -/
def Op.truths : Op → Nat
  | .binary (.logic _) => 2
  | .unary .not | .jumpIf _ | .print .bool => 1
  | _ => 0

theorem Op.Typed.truths {slots : Array Variable} {op : Op} {st st' : List Ty} {stack : List Word}
    (h : op.Typed (Ty.kinds slots) st st') (hstack : List.Forall₂ (Ty.kinds slots).has st stack) :
    op.truths ≤ stack.length ∧ ∀ value ∈ stack.take op.truths, Ty.Has .bool value := by
  have hnone : 0 ≤ stack.length ∧ ∀ value ∈ stack.take 0, Ty.Has .bool value :=
    ⟨Nat.zero_le _, fun _ hmem => nomatch hmem⟩
  have hone : ∀ k rest, st = k :: rest → k = .bool →
      1 ≤ stack.length ∧ ∀ value ∈ stack.take 1, Ty.Has .bool value := by
    rintro _ rest rfl rfl
    cases hstack with
    | cons hvalue _ =>
        refine ⟨Nat.succ_le_succ (Nat.zero_le _), fun value hmem => ?_⟩
        rw [List.mem_singleton.mp hmem]
        exact hvalue
  cases h with
  | @unary op a b rest hop =>
      cases op with
      | neg => exact hnone
      | not => exact hone a rest rfl hop.1
  | @binary op a b c rest hop =>
      cases op with
      | arith op => exact hnone
      | cmp cond => exact hnone
      | logic op =>
          obtain ⟨rfl, rfl⟩ : a = .bool ∧ b = .bool := of_decide_eq_true hop.1
          cases hstack with
          | cons hrhs hrest =>
          cases hrest with
          | cons hlhs _ =>
              refine ⟨Nat.succ_le_succ (Nat.succ_le_succ (Nat.zero_le _)), fun value hmem => ?_⟩
              rcases List.mem_pair.mp hmem with rfl | rfl
              · exact hrhs
              · exact hlhs
  | jumpIf hk => exact hone _ _ rfl hk
  | @print ty _ _ hk =>
      cases ty with
      | int => exact hnone
      | bool => exact hone _ _ rfl hk
  | _ => exact hnone

namespace Machine
variable {κ : Type} {kinds : Kinds κ}

section
variable {typing : Typing κ} {ops : Array Op} {st : List κ} {m : Machine}

theorem Fits.fill_step (hfits : typing.Fits kinds ops) (h : Fits kinds typing st m) :
    kinds.Fill (m.step ops).machine.slots := by
  obtain ⟨op, st', ho, ht, -⟩ := hfits.flow m.pc st h.place
  rw [step_of_get ho]
  exact fill_perform ht h.stack h.slots

/-- However many steps a machine makes, the typing describes it as long as it runs, and its variables
hold words of their kinds in any case. -/
theorem Fits.run (hfits : typing.Fits kinds ops) (h : Fits kinds typing st m) (steps : Nat) :
    (∀ n, Machine.run ops steps m = .running n → ∃ st', Fits kinds typing st' n) ∧
      kinds.Fill (Machine.run ops steps m).machine.slots := by
  induction steps generalizing m st with
  | zero =>
      refine ⟨?_, h.slots⟩
      intro n hn
      cases hn
      exact ⟨st, h⟩
  | succ steps ih =>
      have hfill := h.fill_step hfits
      rw [Machine.run]
      cases hs : m.step ops with
      | running next =>
          obtain ⟨st', hnext⟩ := h.step hfits hs
          exact ih hnext
      | halted status final =>
          rw [hs] at hfill
          exact ⟨fun n hn => (by cases hn), hfill⟩
      | failed fault final =>
          rw [hs] at hfill
          exact ⟨fun n hn => (by cases hn), hfill⟩

end

end Machine

/-- Whatever passes are applied to a program that was built from a text, and however many steps it makes,
the operands of connectives, conditions and printed truth values are zero or one when they are taken from
the stack, and the variables that were declared as truth values always are. -/
theorem Compilation.build_keeps_truths {config : Config} {host : Host} {text : String}
    {c c' : Compilation} {program : Program} (hstart : start config host = .ok c)
    (hbuild : build text c = .ok program c') (htext : text.utf8ByteSize < 2147483648)
    (passes : List Pass) (out err : Sink) (steps : Nat) :
    let final := Pass.applyAll passes program
    let reached := Machine.run final.ops steps (.start final out err)
    (∀ m op, reached = .running m → final.ops[m.pc]? = some op →
      op.truths ≤ m.stack.length ∧ ∀ value ∈ m.stack.take op.truths, value = 0 ∨ value = 1) ∧
    ∀ (i : Nat) declared, final.slots[i]? = some declared → declared.ty = .bool →
      ∃ value, reached.machine.slots[i]? = some value ∧ (value = 0 ∨ value = 1) := by
  intro final reached
  have hsane : final.Sane := (sane_of_build hstart hbuild htext).applyAll passes
  obtain ⟨typing, hfits⟩ := hsane.typed
  have hinit : Machine.Fits (Ty.kinds final.slots) typing [] (.start final out err) :=
    ⟨hfits.start, .nil, Ty.fill_zero final.slots⟩
  obtain ⟨hrun, hfill⟩ := hinit.run hfits steps
  constructor
  · intro m op hm ho
    obtain ⟨st, hm⟩ := hrun m hm
    obtain ⟨st', ht, -⟩ := hfits.typed hm.place ho
    exact ht.truths hm.stack
  · intro i declared hi hty
    have hlt := (Array.getElem?_eq_some_iff.mp hi).1
    have hslots := hsane.slots
    have hslot : i.toUInt32.toNat = i := UInt32.toNat_ofNat_of_lt' (by rw [UInt32.size]; omega)
    have hkind : (Ty.kinds final.slots).slot i.toUInt32 = some .bool := by
      simp only [Ty.kinds, hslot, hi, Option.map_some, hty]
    obtain ⟨value, hvalue, hhas⟩ := hfill i.toUInt32 .bool hkind
    rw [hslot] at hvalue
    exact ⟨value, hvalue, hhas⟩

/-- A text that jumps over a declaration and then uses what it declares. -/
def Program.skippedText : String :=
  "goto start;\nlet never = true;\nstart:\nlet go = not never and 1 < 2;\nprint go or never;\n" ++
  "if go goto end;\nexit 1;\nend:\n"

theorem Compilation.skipped_builds : ∃ c c' program,
    start { input := "skipped.gt" } .bare = .ok c ∧
    build Program.skippedText c = .ok program c' ∧
    program.slots = #[⟨"never", .bool⟩, ⟨"go", .bool⟩] := by
  have h : builds { input := "skipped.gt" } .bare Program.skippedText
      (fun program => decide (program.slots = #[⟨"never", .bool⟩, ⟨"go", .bool⟩])) = true := by
    decide +kernel
  obtain ⟨c, c', program, hstart, hbuild, htest⟩ := exists_of_builds h
  exact ⟨c, c', program, hstart, hbuild, of_decide_eq_true htest⟩

theorem Compilation.build_keeps_truths_skipped : ∃ c c' program,
    start { input := "skipped.gt" } .bare = .ok c ∧
    build Program.skippedText c = .ok program c' ∧
    Program.skippedText.utf8ByteSize < 2147483648 ∧
    program.slots = #[⟨"never", .bool⟩, ⟨"go", .bool⟩] ∧
    ∀ (out err : Sink) (steps : Nat),
      let final := Pass.applyAll [.foldConstants, .optimize .o2] program
      let reached := Machine.run final.ops steps (.start final out err)
      (∀ m op, reached = .running m → final.ops[m.pc]? = some op →
        op.truths ≤ m.stack.length ∧ ∀ value ∈ m.stack.take op.truths, value = 0 ∨ value = 1) ∧
      ∀ (i : Nat) declared, final.slots[i]? = some declared → declared.ty = .bool →
        ∃ value, reached.machine.slots[i]? = some value ∧ (value = 0 ∨ value = 1) := by
  obtain ⟨c, c', program, hstart, hbuild, hslots⟩ := skipped_builds
  have htext : Program.skippedText.utf8ByteSize < 2147483648 := by decide +kernel
  exact ⟨c, c', program, hstart, hbuild, htext, hslots,
    build_keeps_truths hstart hbuild htext [.foldConstants, .optimize .o2]⟩

end GotoLang
