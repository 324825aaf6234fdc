import GotoLang.Proofs.Kinds
import GotoLang.Proofs.Optimize.Passes

/-!
# Optimized programs stay typed

Whatever kinds a program is typed by, every change that a pass makes leaves it typed. The new typing is
the old one except where operations were emptied: there it is that of the place behind them. Operations
that no longer have a place in the flow of control lose their kinds, and renumbered ones take theirs
along.
-/
namespace GotoLang
variable {κ : Type} {kinds : Kinds κ} {typing : Typing κ} {ops ops' : Array Op}

theorem Renumber.target?_op (ops : Array Op) (o : Op) :
    (op ops o).target? = o.target?.map (addr ops) := by
  cases o <;> rfl

theorem Renumber.isTerminator_op (ops : Array Op) (o : Op) :
    (op ops o).isTerminator = o.isTerminator := by
  cases o <;> rfl

theorem Op.Typed.renumber {op : Op} {st st' : List κ} (h : op.Typed kinds st st') :
    (Renumber.op ops op).Typed kinds st st' := by
  cases h with
  | jump => exact .jump
  | jumpIf hk => exact .jumpIf hk
  | push hk => exact .push hk
  | load hk => exact .load hk
  | store hk => exact .store hk
  | unary hk => exact .unary hk
  | binary hk => exact .binary hk
  | print hk => exact .print hk
  | exit hk => exact .exit hk
  | nop => exact .nop

namespace Typing.Fits

theorem nop (h : typing.Fits kinds ops) {addr : Nat} {st : List κ} (hat : typing addr st)
    (ho : ops[addr]? = some .nop) : typing (addr + 1) st := by
  obtain ⟨st', ht, hnext⟩ := h.typed hat ho
  cases ht
  exact hnext _ (Op.mem_successors.mpr (.inr ⟨rfl, rfl⟩))

theorem jump (h : typing.Fits kinds ops) {addr : Nat} {target : Addr} {st : List κ}
    (hat : typing addr st) (ho : ops[addr]? = some (.jump target)) : typing target.toNat st := by
  obtain ⟨st', ht, hnext⟩ := h.typed hat ho
  cases ht
  exact hnext _ (Op.mem_successors.mpr (.inl ⟨target, rfl, rfl⟩))

/-- Kinds do not change along a silent path. -/
theorem leads (h : typing.Fits kinds ops) {first last : Nat} (hl : Op.Leads ops first last)
    {st : List κ} (hat : typing first st) : typing last st := by
  induction hl with
  | here => exact hat
  | nop ho _ ih => exact ih (h.nop hat ho)
  | jump ho _ ih => exact ih (h.jump hat ho)

theorem push (h : typing.Fits kinds ops) {addr : Nat} {value : Word} {st : List κ}
    (hat : typing addr st) (ho : ops[addr]? = some (.push value)) :
    ∃ k, kinds.has k value ∧ typing (addr + 1) (k :: st) := by
  obtain ⟨st', ht, hnext⟩ := h.typed hat ho
  cases ht with
  | @push _ k _ hk => exact ⟨k, hk, hnext _ (Op.mem_successors.mpr (.inr ⟨rfl, rfl⟩))⟩

/-- Where an operation is entered with what belongs to one of two others, its height is known, too. -/
theorem height_ite (h : typing.Fits kinds ops) {p : Prop} [Decidable p] {addr other : Nat}
    {st st' : List κ} (hst : if p then typing addr st else typing other st)
    (hst' : if p then typing addr st' else typing other st') : st.length = st'.length := by
  split at hst
  · next hp =>
      rw [if_pos hp] at hst'
      exact h.height hst hst'
  · next hp =>
      rw [if_neg hp] at hst'
      exact h.height hst hst'

/-- What a window comes to is typed as the window was. -/
theorem window (h : typing.Fits kinds ops) {first last : Nat} {op : Op}
    (hw : Fold.Window ops first last op) {st : List κ} (hat : typing first st) :
    ∃ st', op.Typed kinds st st' ∧ typing (last + 1) st' ∧
      ∀ target, op.target? = some target → typing target.toNat st' := by
  cases hw with
  | unary h₁ hnops hl hlt =>
      obtain ⟨k, hk, hat₁⟩ := h.push hat h₁
      obtain ⟨st', ht, hnext⟩ := h.typed (h.leads (hnops.leads hlt) hat₁) hl
      cases ht with
      | unary hop =>
          refine ⟨_, .push (kinds.unary_eval hop hk), ?_, fun target ht => ?_⟩
          · exact hnext _ (Op.mem_successors.mpr (.inr ⟨rfl, rfl⟩))
          · cases ht
  | @jumpIf a target h₁ hnops hl hlt =>
      obtain ⟨k, hk, hat₁⟩ := h.push hat h₁
      obtain ⟨st', ht, hnext⟩ := h.typed (h.leads (hnops.leads hlt) hat₁) hl
      cases ht
      have hbehind := hnext _ (Op.mem_successors.mpr (.inr ⟨rfl, rfl⟩))
      split
      · refine ⟨st, .jump, hbehind, fun t ht => ?_⟩
        cases ht
        exact hnext _ (Op.mem_successors.mpr (.inl ⟨target, rfl, rfl⟩))
      · refine ⟨st, .nop, hbehind, fun t ht => ?_⟩
        cases ht
  | binary h₁ hnops h₂ hnops' hl hv hlt hlt' =>
      obtain ⟨k₁, hk₁, hat₁⟩ := h.push hat h₁
      obtain ⟨k₂, hk₂, hat₂⟩ := h.push (h.leads (hnops.leads hlt) hat₁) h₂
      obtain ⟨st', ht, hnext⟩ := h.typed (h.leads (hnops'.leads hlt') hat₂) hl
      cases ht with
      | binary hop =>
          refine ⟨_, .push (kinds.binary_eval hop hk₁ hk₂ hv), ?_, fun target ht => ?_⟩
          · exact hnext _ (Op.mem_successors.mpr (.inr ⟨rfl, rfl⟩))
          · cases ht

theorem fold (h : typing.Fits kinds ops) (hstep : Fold.Step ops ops') : Op.WellTyped kinds ops' := by
  obtain ⟨targets, first, last, op, hcovers, hs, hw, hc⟩ := hstep
  obtain ⟨hlt, hlast⟩ := hw.lt
  -- Emptied operations are entered with what the window leaves.
  refine ⟨fun addr st =>
    if first < addr ∧ addr ≤ last then typing (last + 1) st else typing addr st, ?_, ?_,
    fun hst hst' => h.height_ite hst hst'⟩
  · rw [if_neg (by omega)]
    exact h.start
  · intro addr st hat
    by_cases hin : first < addr ∧ addr ≤ last
    · rw [if_pos hin] at hat
      refine ⟨.nop, st, hc.inside addr (by omega) (by omega), .nop, fun next hnext => ?_⟩
      rcases Op.mem_successors.mp hnext with ⟨t, ht, -⟩ | ⟨-, rfl⟩
      · cases ht
      · split
        · exact hat
        · have heq : addr = last := by omega
          rwa [heq]
    · rw [if_neg hin] at hat
      by_cases hfirst : addr = first
      · subst hfirst
        obtain ⟨st', ht, hbehind, htarget⟩ := h.window hw hat
        refine ⟨op, st', hc.atFirst, ht, fun next hnext => ?_⟩
        rcases Op.mem_successors.mp hnext with ⟨t, hopt, rfl⟩ | ⟨-, rfl⟩
        · rw [if_neg (hcovers.outside hs hlast (hw.target hopt) rfl)]
          exact htarget t hopt
        · rw [if_pos ⟨Nat.lt_succ_self addr, hlt⟩]
          exact hbehind
      · obtain ⟨op', st', ho, ht, hnexts⟩ := h.flow addr st hat
        refine ⟨op', st', (hc.outside addr (by omega)).trans ho, ht, fun next hnext => ?_⟩
        rw [if_neg]
        · exact hnexts next hnext
        · rcases Op.mem_successors.mp hnext with ⟨t, hopt, rfl⟩ | ⟨-, rfl⟩
          · exact hcovers.outside hs hlast ho hopt
          · omega

theorem thread (h : typing.Fits kinds ops) (hstep : Jumps.Thread ops ops') :
    Op.WellTyped kinds ops' := by
  obtain ⟨addr, op, target, final, op', ho, ht, hop', hl, rfl⟩ := hstep
  have haddr : addr < ops.size := (Array.getElem?_eq_some_iff.mp ho).1
  refine ⟨typing, h.start, fun a st hat => ?_, h.height⟩
  by_cases heq : addr = a
  · subst heq
    obtain ⟨st', hty, hnexts⟩ := h.typed hat ho
    have hfinal : typing final.toNat st' :=
      h.leads hl (hnexts _ (Op.mem_successors.mpr (.inl ⟨target, ht, rfl⟩)))
    refine ⟨op', st', Array.getElem?_setIfInBounds_self_of_lt haddr, ?_, fun next hnext => ?_⟩
    · cases hty <;> cases hop'
      · exact .jump
      · exact .jumpIf ‹_›
    · rcases Op.mem_successors.mp hnext with ⟨t, hopt, rfl⟩ | ⟨hterm, rfl⟩
      · cases hty <;> cases hop' <;> cases hopt <;> exact hfinal
      · apply hnexts
        refine Op.mem_successors.mpr (.inr ⟨?_, rfl⟩)
        cases hty <;> cases hop' <;> exact hterm
  · obtain ⟨op₁, st', ho₁, hty, hnexts⟩ := h.flow a st hat
    exact ⟨op₁, st', by rwa [Array.getElem?_setIfInBounds_ne heq], hty, hnexts⟩

theorem bypass (h : typing.Fits kinds ops) (hstep : Jumps.Bypass ops ops') :
    Op.WellTyped kinds ops' := by
  obtain ⟨addr, target, live, ho, hn, ht, rfl⟩ := hstep
  have haddr : addr < ops.size := (Array.getElem?_eq_some_iff.mp ho).1
  obtain ⟨hle, hlt, -, hnops⟩ := Op.nextLive?_eq_some.mp hn
  -- Control now also gets to the live operation through the empty ones before it.
  refine ⟨fun a st => if addr < a ∧ a < live then typing live st else typing a st, ?_, ?_,
    fun hst hst' => h.height_ite hst hst'⟩
  · rw [if_neg (by omega)]
    exact h.start
  have hkeep : ∀ a st, typing a st →
      if addr < a ∧ a < live then typing live st else typing a st := by
    intro a st hat
    split
    · next ha =>
        have hrest : Op.Nops ops a live := fun x hx hxl => hnops x (by omega) hxl
        exact h.leads (hrest.leads (by omega)) hat
    · exact hat
  intro a st hat
  by_cases ha : addr < a ∧ a < live
  · rw [if_pos ha] at hat
    refine ⟨.nop, st, ?_, .nop, fun next hnext => ?_⟩
    · rw [Array.getElem?_setIfInBounds_ne (by omega)]
      exact hnops a ha.1 ha.2
    · rcases Op.mem_successors.mp hnext with ⟨t, hopt, -⟩ | ⟨-, rfl⟩
      · cases hopt
      · split
        · exact hat
        · have heq : a + 1 = live := by omega
          rwa [heq]
  · rw [if_neg ha] at hat
    by_cases heq : addr = a
    · subst heq
      have hlive : typing live st := h.leads (Op.nextLive?_leads ht) (h.jump hat ho)
      refine ⟨.nop, st, Array.getElem?_setIfInBounds_self_of_lt haddr, .nop, fun next hnext => ?_⟩
      rcases Op.mem_successors.mp hnext with ⟨t, hopt, -⟩ | ⟨-, rfl⟩
      · cases hopt
      · split
        · exact hlive
        · have heq : addr + 1 = live := by omega
          rwa [heq]
    · obtain ⟨op', st', ho', hty, hnexts⟩ := h.flow a st hat
      exact ⟨op', st', by rwa [Array.getElem?_setIfInBounds_ne heq], hty,
        fun next hnext => hkeep next st' (hnexts next hnext)⟩

theorem prune (h : typing.Fits kinds ops) : Op.WellTyped kinds (Op.prune ops).1 := by
  obtain ⟨hclosed, hstart⟩ := Prune.reached_spec ops
  have hflag : ∀ {addr}, Prune.Seen [] (Prune.reached ops) addr →
      (Prune.reached ops).getD addr false = true := fun h => h.resolve_right List.not_mem_nil
  refine ⟨fun addr st => (Prune.reached ops).getD addr false = true ∧ typing addr st, ?_, ?_,
    fun hst hst' => h.height hst.2 hst'.2⟩
  · exact ⟨hflag (hstart (h.lt_size h.start)), h.start⟩
  · intro addr st hat
    obtain ⟨hreached, hat⟩ := hat
    obtain ⟨op, st', ho, hty, hnexts⟩ := h.flow addr st hat
    refine ⟨op, st', (Op.getElem?_prune hreached).trans ho, hty, fun next hnext => ?_⟩
    have hat' := hnexts next hnext
    exact ⟨hflag (hclosed addr op hreached ho next hnext (h.lt_size hat')), hat'⟩

/-- A typed place leads to a live operation, which stands behind as many live ones. -/
theorem live (h : typing.Fits kinds ops) {addr : Nat} {st : List κ} (hat : typing addr st) :
    ∃ live, Renumber.liveBefore ops live = Renumber.liveBefore ops addr ∧
      ops[live]? ≠ some .nop ∧ typing live st := by
  cases hl : Op.nextLive? ops addr with
  | none =>
      have hend := (Op.nextLive?_eq_none hl).leads (h.lt_size hat).le
      exact absurd (h.lt_size (h.leads hend hat)) (lt_irrefl _)
  | some live =>
      obtain ⟨hle, -, hlive, hnops⟩ := Op.nextLive?_eq_some.mp hl
      exact ⟨live, (Renumber.liveBefore_of_nops hnops hle).symm, hlive,
        h.leads (hnops.leads hle) hat⟩

theorem renumber {program : Program} (h : typing.Fits kinds program.ops)
    (hreg : program.Regular) : Op.WellTyped kinds program.renumber.1.ops := by
  refine ⟨fun addr st => ∃ old, Renumber.liveBefore program.ops old = addr ∧
    program.ops[old]? ≠ some .nop ∧ typing old st, ?_, ?_, ?_⟩
  · obtain ⟨old, hold, hlive, hat⟩ := h.live h.start
    refine ⟨old, ?_, hlive, hat⟩
    rw [hold, Renumber.liveBefore_zero]
  · intro addr st hat
    obtain ⟨old, rfl, hlive, hat⟩ := hat
    obtain ⟨op, st', ho, hty, hnexts⟩ := h.flow old st hat
    have hop : op ≠ .nop := fun heq => hlive (heq ▸ ho)
    refine ⟨Renumber.op program.ops op, st', Program.getElem?_renumber hreg.lines ho hop,
      hty.renumber, fun next hnext => ?_⟩
    rcases Op.mem_successors.mp hnext with ⟨t, ht, rfl⟩ | ⟨hterm, rfl⟩
    · rw [Renumber.target?_op] at ht
      obtain ⟨t', ht', rfl⟩ := Option.map_eq_some_iff.mp ht
      rw [Renumber.toNat_addr hreg.size]
      exact h.live (hnexts _ (Op.mem_successors.mpr (.inl ⟨t', ht', rfl⟩)))
    · rw [Renumber.isTerminator_op] at hterm
      obtain ⟨live, hlive, hrest⟩ := h.live (hnexts _ (Op.mem_successors.mpr (.inr ⟨hterm, rfl⟩)))
      rw [Renumber.liveBefore_succ_of_live ho hop] at hlive
      exact ⟨live, hlive, hrest⟩
  · rintro addr st st' ⟨old, hold, hlive, hat⟩ ⟨old', hold', hlive', hat'⟩
    obtain ⟨op, _, ho, -⟩ := h.flow old st hat
    obtain ⟨op', _, ho', -⟩ := h.flow old' st' hat'
    -- As many live operations stand before both, so they are the same.
    have heq : old = old' := by
      apply Renumber.eq_of_liveBefore_eq ho _ ho' _ (hold.trans hold'.symm)
      · rintro rfl
        exact hlive ho
      · rintro rfl
        exact hlive' ho'
    exact h.height hat (heq ▸ hat')

end Typing.Fits

theorem Op.Change.wellTyped (hc : Change ops ops') (h : WellTyped kinds ops) :
    WellTyped kinds ops' := by
  obtain ⟨typing, h⟩ := h
  cases hc with
  | fold hstep => exact h.fold hstep
  | thread hstep => exact h.thread hstep
  | bypass hstep => exact h.bypass hstep
  | prune => exact h.prune

namespace Program

theorem Change.wellTyped {program program' : Program} (hc : Change program program')
    (hreg : program.Regular) (h : Op.WellTyped kinds program.ops) :
    Op.WellTyped kinds program'.ops := by
  cases hc with
  | ops hc =>
      induction hc with
      | refl => exact h
      | tail _ hc ih => exact hc.wellTyped ih
  | renumber =>
      obtain ⟨typing, h⟩ := h
      exact h.renumber hreg

/-- A typed program stays typed through any changes. -/
theorem wellTyped_of_changes {program program' : Program} (hreg : program.Regular)
    (hc : Relation.ReflTransGen Change program program') (h : Op.WellTyped kinds program.ops) :
    Op.WellTyped kinds program'.ops := by
  induction hc with
  | refl => exact h
  | tail hcs hc ih => exact hc.wellTyped (preserves_of_changes hreg hcs).1 ih

end Program

end GotoLang
