import GotoLang.Compilation
import GotoLang.Proofs.Lowering.Meaning
import GotoLang.Proofs.Lowering.Typing
import GotoLang.Proofs.Optimize.Typing
import GotoLang.Proofs.Parsing.Tracing
import GotoLang.Proofs.ReadingSize

/-!
# Programs built from texts

A program that is built from a text of less than two gigabytes is small enough for its addresses, has a
line for each operation, and is typed. Passes keep all of this.
-/
namespace GotoLang

namespace Compilation

theorem session_of_start {config : Config} {host : Host} {c : Compilation}
    (h : start config host = .ok c) : c.session = .start config.maxOps config.maxForwardRefs := by
  rw [start] at h
  split at h
  · cases h
  · cases h
    rfl

theorem fresh_of_start {config : Config} {host : Host} {c : Compilation}
    (h : start config host = .ok c) : Lowering.Fresh c.session := by
  rw [session_of_start h]
  exact Lowering.fresh_start _ _

theorem fresh_log {level : Log.Level} {source : Log.Source} {text : String} {c c' : Compilation}
    {u : Unit} (h : log level source text c = .ok u c') (hc : Lowering.Fresh c.session) :
    Lowering.Fresh c'.session := by
  cases h
  exact hc

theorem fresh_finishGraph {graph : GrammarGraph} {c c' : Compilation} {u : Unit}
    (h : finishGraph graph c = .ok u c') (hc : Lowering.Fresh c.session) :
    Lowering.Fresh c'.session := by
  cases h
  exact ⟨hc.ops, hc.lines, hc.pending, hc.bindings, hc.order⟩

theorem lower_eq_ok {ast : Ast} {c c' : Compilation} {program : Program}
    (h : lower ast c = .ok program c') :
    ∃ session, ast.lower c.session = (.ok program, session) := by
  rw [lower] at h
  generalize hl : ast.lower c.session = lowered at h
  obtain ⟨outcome, session⟩ := lowered
  cases outcome with
  | error e => cases h
  | ok program' =>
      cases h
      exact ⟨session, rfl⟩

/-- What is built from a text is its tree, lowered in a session where nothing happened yet. -/
theorem build_eq_ok {text : String} {c c' : Compilation} {program : Program}
    (h : build text c = .ok program c') (hc : Lowering.Fresh c.session) :
    ∃ ast session session', (Reading.ofText text).ast = .ok ast ∧ Lowering.Fresh session ∧
      ast.lower session = (.ok program, session') := by
  obtain ⟨_, c₁, h₁, k₁⟩ := bind_eq_ok.mp h
  cases h₁
  obtain ⟨_, c₂, h₂, k₂⟩ := bind_eq_ok.mp k₁
  have hc₂ := fresh_log h₂ hc
  obtain ⟨_, _, hget, k₂⟩ := bind_eq_ok.mp k₂
  cases hget
  rw [Reading.ast_ofText text (.closed true) c₂.graph]
  cases hast : (Reading.ofText text c₂.graph).ast with
  | error e =>
      rw [hast] at k₂
      obtain ⟨_, c₃, _, k₃⟩ := bind_eq_ok.mp k₂
      cases k₃
  | ok ast =>
      rw [hast] at k₂
      obtain ⟨_, c₃, h₃, k₃⟩ := bind_eq_ok.mp k₂
      obtain ⟨_, c₄, h₄, k₄⟩ := bind_eq_ok.mp k₃
      obtain ⟨_, c₅, h₅, k₅⟩ := bind_eq_ok.mp k₄
      obtain ⟨program', c₆, h₆, k₆⟩ := bind_eq_ok.mp k₅
      obtain ⟨_, c₇, h₇, k₇⟩ := bind_eq_ok.mp k₆
      cases k₇
      obtain ⟨session, hl⟩ := lower_eq_ok h₆
      have hc₅ := fresh_log h₅ (fresh_finishGraph h₄ (fresh_log h₃ hc₂))
      exact ⟨ast, _, session, rfl, hc₅, hl⟩

end Compilation

/-- What is built from a text that is not too long is small enough for its addresses. -/
theorem Compilation.lowered_of_build {config : Config} {host : Host} {text : String}
    {c c' : Compilation} {program : Program} (hstart : start config host = .ok c)
    (hbuild : build text c = .ok program c') (htext : text.utf8ByteSize < 2147483648) :
    ∃ ast layout, (Reading.ofText text).ast = .ok ast ∧ Lowering.Lowered layout ast.stmts program ∧
      program.ops.size < 4294967296 := by
  obtain ⟨ast, session, session', hast, hfresh, hl⟩ := build_eq_ok hbuild (fresh_of_start hstart)
  obtain ⟨hsize, -⟩ := ast.lower_size hfresh hl
  have hbytes := Reading.size_le hast
  have hbound : program.ops.size < 4294967296 := by omega
  obtain ⟨layout, hlowered⟩ := ast.lower_spec hfresh hl hbound
  exact ⟨ast, layout, hast, hlowered, hbound⟩

/-- What a program needs to have for its machine code to do what it does. -/
structure Program.Sane (program : Program) : Prop where
  regular : program.Regular
  slots : program.slots.size < 4294967296
  typed : Op.WellTyped (Ty.kinds program.slots) program.ops

theorem Compilation.sane_of_build {config : Config} {host : Host} {text : String}
    {c c' : Compilation} {program : Program} (hstart : start config host = .ok c)
    (hbuild : build text c = .ok program c') (htext : text.utf8ByteSize < 2147483648) :
    program.Sane := by
  obtain ⟨ast, layout, -, hlowered, hbound⟩ := lowered_of_build hstart hbuild htext
  exact ⟨⟨hbound, hlowered.lines⟩, hlowered.count.trans_lt hbound, hlowered.wellTyped⟩

theorem Program.Sane.changes {program program' : Program} (h : program.Sane)
    (hc : Relation.ReflTransGen Change program program') : program'.Sane := by
  obtain ⟨hreg, hslots, -⟩ := preserves_of_changes h.regular hc
  refine ⟨hreg, hslots ▸ h.slots, ?_⟩
  rw [hslots]
  exact wellTyped_of_changes h.regular hc h.typed

theorem Program.Sane.optimize {program : Program} (h : program.Sane) (level : OptLevel) :
    (program.optimize level).1.Sane :=
  h.changes (changes_optimize h.regular level)

theorem Program.Sane.applyAll {program : Program} (h : program.Sane) (passes : List Pass) :
    (Pass.applyAll passes program).Sane :=
  h.changes (Pass.changes_applyAll h.regular passes)

/-- Surroundings without files and without a linker. -/
def Host.bare : Host where
  patience := 0
  linker _ _ := .refused .notFound

/-- The text of `Program.countdown`. -/
def Program.countdownText : String :=
  "let i = 3;\nagain:\nif i == 0 goto done;\nprint 6 / i;\ni = i - 1;\ngoto again;\ndone:\n"

/-- A text is built into a program that passes a test. -/
def Compilation.builds (config : Config) (host : Host) (text : String) (test : Program → Bool) : Bool :=
  match start config host with
  | .error _ => false
  | .ok c =>
    match build text c with
    | .error _ _ => false
    | .ok program _ => test program

theorem Compilation.exists_of_builds {config : Config} {host : Host} {text : String}
    {test : Program → Bool} (h : builds config host text test = true) : ∃ c c' program,
    start config host = .ok c ∧ build text c = .ok program c' ∧ test program = true := by
  rw [builds] at h
  split at h
  · cases h
  · next c hstart =>
      split at h
      · cases h
      · next program c' hbuild => exact ⟨c, c', program, hstart, hbuild, h⟩

theorem Compilation.countdown_builds : ∃ c c', start { input := "countdown.gt" } .bare = .ok c ∧
    build Program.countdownText c = .ok Program.countdown c' := by
  have h : builds { input := "countdown.gt" } .bare Program.countdownText
      (fun program => decide (program = Program.countdown)) = true := by decide +kernel
  obtain ⟨c, c', program, hstart, hbuild, htest⟩ := exists_of_builds h
  obtain rfl := of_decide_eq_true htest
  exact ⟨c, c', hstart, hbuild⟩

end GotoLang
