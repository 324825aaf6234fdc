import GotoLang.Proofs.Building
import GotoLang.Proofs.Host

/-!
# A failed compilation leaves no product

Whatever makes a compilation fail, all files are as they were, apart from the one that the grammar graph goes
to. A product that goes to a file is written to a new file next to it first; if something goes wrong from then
on, the new file is deleted. What linking makes is deleted in any case. On standard output there is nothing unless it was standard output that failed.
-/
namespace GotoLang

/-- The files are the same, except that there may be another graph at its place. -/
def Files.Redrawn (graphPlace : Option Place) (files files' : Files) : Prop :=
  files' = files ∨ ∃ place content, graphPlace = some place ∧ files' = files.put place content

theorem Files.Redrawn.trans {graphPlace : Option Place} {files files' files'' : Files}
    (h : Redrawn graphPlace files files') (h' : Redrawn graphPlace files' files'') : Redrawn graphPlace files files'' := by
  rcases h with rfl | ⟨place, content, hplace, rfl⟩
  · exact h'
  · rcases h' with rfl | ⟨place', content', hplace', rfl⟩
    · exact .inr ⟨place, content, hplace, rfl⟩
    · obtain rfl : place = place' := Option.some.inj (hplace.symm.trans hplace')
      exact .inr ⟨place, content', hplace, put_put⟩

namespace Compilation

/-- Nothing changed that is seen outside, except that the graph may have been written. -/
structure Draws (c c' : Compilation) : Prop where
  config : c'.config = c.config
  graphPlace : c'.graphPlace = c.graphPlace
  files : Files.Redrawn c.graphPlace c.host.files c'.host.files
  out : c'.host.out = c.host.out

section
variable {α β : Type} {c c' c'' : Compilation} {error : CompileError}

theorem Draws.trans (h : Draws c c') (h' : Draws c' c'') : Draws c c'' :=
  ⟨h'.config.trans h.config, h'.graphPlace.trans h.graphPlace, h.files.trans (h.graphPlace ▸ h'.files),
    h'.out.trans h.out⟩

instance : IsPreorder Compilation Draws where
  refl _ := ⟨rfl, rfl, .inl rfl, rfl⟩
  trans _ _ _ := .trans

/-- A part of a compilation that does no more than draw, whether it fails or not. -/
abbrev Keeps (action : Compile α) : Prop := Along Draws action

theorem keeps_log (level : Log.Level) (source : Log.Source) (text : String) : Keeps (log level source text) :=
  along_modify fun c => ⟨rfl, rfl, .inl (c.host.files_log _), c.host.out_log _⟩

theorem keeps_setStats (change : Stats → Stats) : Keeps (setStats change) :=
  along_modify fun _ => ⟨rfl, rfl, .inl rfl, rfl⟩

theorem keeps_finishGraph (graph : GrammarGraph) : Keeps (finishGraph graph) := by
  refine (along_modify fun c => ?_).bind fun _ => along_get.bind fun _ => keeps_setStats _
  cases hplace : c.graphPlace with
  | none => exact ⟨rfl, hplace.symm, .inl rfl, rfl⟩
  | some place => exact ⟨rfl, hplace.symm, .inr ⟨place, _, hplace, rfl⟩, rfl⟩

theorem keeps_lower (ast : Ast) : Keeps (lower ast) := by
  have hdraws : ∀ c session, Draws c { c with
      session
      host := (session.journal.toList.drop c.session.journal.size).foldl
        (fun host event => host.log event.record) c.host } := by
    intro c session
    obtain ⟨err, hlog⟩ := c.host.exists_logAll Session.Event.record (session.journal.toList.drop c.session.journal.size)
    rw [hlog]
    exact ⟨rfl, rfl, .inl rfl, rfl⟩
  constructor
  · intro c program c' h
    rw [lower] at h
    generalize ast.lower c.session = lowered at h
    obtain ⟨_ | _, session⟩ := lowered
    · cases h
    · cases h
      exact hdraws c session
  · intro c error c' h
    rw [lower] at h
    generalize ast.lower c.session = lowered at h
    obtain ⟨_ | _, session⟩ := lowered
    · cases h
      exact hdraws c session
    · cases h

theorem keeps_build (text : String) : Keeps (build text) := by
  rw [build]
  refine along_get.bind fun c => (keeps_log _ _ _).bind fun _ => along_get.bind fun c' => ?_
  generalize Reading.ofText text c'.graph = reading
  obtain ⟨trace, ast⟩ := reading
  cases ast with
  | error e => exact (keeps_finishGraph _).bind fun _ => along_throw _
  | ok ast =>
      refine (keeps_log _ _ _).bind fun _ => (keeps_finishGraph _).bind fun _ => (keeps_log _ _ _).bind fun _ => ?_
      exact (keeps_lower ast).bind fun _ => (keeps_log _ _ _).bind fun _ => along_pure _

theorem keeps_optimize (program : Program) : Keeps (optimize program) := by
  rw [optimize]
  refine along_get.bind fun c => ?_
  dsimp only
  refine (keeps_log _ _ _).onlyIf fun _ => (keeps_log _ _ _).onlyIf fun _ => (keeps_setStats _).bind fun _ => ?_
  split
  · exact along_pure _
  · exact along_throw _

theorem keeps_machineCode (program : Program) (options : X64.CodeOptions) : Keeps (machineCode program options) := by
  rw [machineCode]
  split
  · exact along_throw _
  · exact (keeps_log _ _ _).bind fun _ => along_pure _

theorem keeps_productCode (program : Program) : Keeps (productCode program) :=
  along_get.bind fun _ => (keeps_machineCode _ _).bind fun _ => (keeps_setStats _).bind fun _ => along_pure _

theorem keeps_object (program : Program) : Keeps (object program) :=
  along_get.bind fun _ => (keeps_productCode _).bind fun _ => (keeps_log _ _ _).bind fun _ => along_pure _

theorem keeps_link (entryPoint : Bool) (object : Bytes) : Keeps (link entryPoint object) := by
  have hdraws : ∀ {c : Compilation} {host}, Link.Restores c.host host → Draws c { c with host } :=
    fun h => ⟨rfl, rfl, .inl h.files, h.out⟩
  constructor
  · intro c bytes c' h
    rw [link] at h
    split at h
    · next hlink =>
        cases h
        exact hdraws ((Link.along_executable entryPoint object).ok hlink)
    · cases h
  · intro c error c' h
    rw [link] at h
    split at h
    · cases h
    · next hlink =>
        cases h
        exact hdraws ((Link.along_executable entryPoint object).error hlink)

/-- Standard output did not take what was written to it. -/
def OutFails (out : Sink) (error : CompileError) (out' : Sink) : Prop :=
  ∃ content, out' = (out.write content).1 ∧
    ((out.write content).2 = false ∧ error = .io "<stdout>" .noRoom ∨
      (out.write content).1.flushFails = true ∧ error = .io "<stdout>" .flushFailed)

/-- What a failure leaves behind: a graph, and something on standard output if that failed or if the program was
executed. -/
structure Fails (c : Compilation) (error : CompileError) (c' : Compilation) : Prop where
  files : Files.Redrawn c.graphPlace c.host.files c'.host.files
  out : c.config.strategy ≠ .execution →
    c'.host.out = c.host.out ∨ c.config.output = none ∧ OutFails c.host.out error c'.host.out

theorem Draws.fails (h : Draws c c') : Fails c error c' :=
  ⟨h.files, fun _ => .inl h.out⟩

theorem Draws.andFails (h : Draws c c') (h' : Fails c' error c'') : Fails c error c'' := by
  refine ⟨h.files.trans (h.graphPlace ▸ h'.files), fun hstrategy => ?_⟩
  rw [← h.out, ← h.config]
  exact h'.out (h.config ▸ hstrategy)

theorem Keeps.andFails {action : Compile α} {next : α → Compile β} (h : Keeps action)
    (hrun : (action >>= next) c = .error error c'')
    (k : ∀ a c', action c = .ok a c' → next a c' = .error error c'' → Fails c' error c'') :
    Fails c error c'' := by
  obtain hfirst | ⟨a, c', hfirst, hnext⟩ := bind_eq_error.mp hrun
  · exact (h.error hfirst).fails
  · exact (h.ok hfirst).andFails (k a c' hfirst hnext)

theorem writeProduct_fails {content : Bytes} (h : writeProduct content c = .error error c') : Fails c error c' := by
  unfold writeProduct at h
  obtain hget | ⟨_, _, hget, h⟩ := bind_eq_error.mp h
  · cases hget
  · cases hget
    cases houtput : c.config.output with
    | none =>
        simp only [houtput] at h
        generalize hwrite : c.host.out.write content = written at h
        obtain ⟨out, complete⟩ := written
        cases complete with
        | false =>
            cases h
            exact ⟨.inl rfl, fun _ => .inr ⟨houtput, content, by rw [hwrite], .inl ⟨by rw [hwrite], rfl⟩⟩⟩
        | true =>
            cases hflush : out.flushFails with
            | false =>
                simp only [hflush] at h
                cases h
            | true =>
                simp only [hflush] at h
                cases h
                exact ⟨.inl rfl, fun _ => .inr ⟨houtput, content, by rw [hwrite], .inr ⟨by rw [hwrite, hflush], rfl⟩⟩⟩
    | some path =>
        simp only [houtput] at h
        generalize hwrite : c.host.writeFile path content _ = written at h
        obtain ⟨outcome, host⟩ := written
        cases outcome with
        | error failure =>
            cases h
            obtain rfl := Host.writeFile_eq_error hwrite
            exact ⟨.inl rfl, fun _ => .inl rfl⟩
        | ok _ => cases h

/-- Executing a program leaves files alone. -/
theorem execute_fails {program : Program} (hstrategy : c.config.strategy = .execution)
    (h : execute program c = .error error c') : Fails c error c' := by
  refine ⟨?_, fun hne => absurd hstrategy hne⟩
  unfold execute at h
  obtain hget | ⟨_, _, hget, h⟩ := bind_eq_error.mp h
  · cases hget
  · cases hget
    have hcode := (keeps_machineCode program { stackBased := c.config.stackBased }).discarded
    obtain hfirst | ⟨_, c₁, hfirst, h⟩ := bind_eq_error.mp h
    · exact (hcode.error hfirst).files
    · obtain hget | ⟨_, _, hget, h⟩ := bind_eq_error.mp h
      · cases hget
      · cases hget
        have hfiles := (hcode.ok hfirst).files
        generalize Machine.run _ _ _ = outcome at h
        cases outcome with
        | halted status machine => cases h
        | failed fault machine =>
            cases h
            exact hfiles
        | running machine =>
            cases h
            exact hfiles

theorem emit_fails {program : Program} (h : emit program c = .error error c') : Fails c error c' := by
  unfold emit at h
  refine (keeps_optimize program).andFails h fun program c₁ _ h => ?_
  refine Keeps.andFails along_get h fun _ _ hget h => ?_
  cases hget
  refine (keeps_log _ _ _).andFails h fun _ c₂ hlog h => ?_
  have hconfig := ((keeps_log _ _ _).ok hlog).config
  cases hstrategy : c₁.config.strategy with
  | listing =>
      rw [hstrategy] at h
      exact writeProduct_fails h
  | assembly =>
      rw [hstrategy] at h
      exact (keeps_productCode _).andFails h fun _ _ _ => writeProduct_fails
  | object =>
      rw [hstrategy] at h
      exact (keeps_object _).andFails h fun _ _ _ => writeProduct_fails
  | executable =>
      rw [hstrategy] at h
      refine (keeps_object _).andFails h fun bytes c₃ _ h => ?_
      exact (keeps_link _ _).andFails h fun _ _ _ => writeProduct_fails
  | execution =>
      rw [hstrategy] at h
      obtain hrun | ⟨status, c₃, -, h⟩ := bind_eq_error.mp h
      · exact execute_fails (hconfig ▸ hstrategy) hrun
      · cases h

theorem work_fails {text : String} (h : work text c = .error error c') : Fails c error c' := by
  rw [work] at h
  refine (keeps_build text).andFails h fun program c₁ _ h => ?_
  obtain hemit | ⟨outcome, c₂, -, h⟩ := bind_eq_error.mp h
  · exact emit_fails hemit
  · cases h

end

end Compilation

/-- The graph goes to a place. -/
def Config.DrawsAt (config : Config) (files : Files) (place : Files.Place) : Prop :=
  ∃ graph, config.graph = some graph ∧ files.locate (Files.Path.ofText graph.path) = .ok place

section
variable {config : Config} {host host' : Host} {error : CompileError} {text : String} {c : Compilation}

theorem Compilation.openGraph_spec (host : Host) (graph : Option GraphConfig) :
    let (_, graphPlace, host') := openGraph host graph
    host'.out = host.out ∧ (graphPlace = none ∧ host'.files = host.files ∨
      ∃ drawn place, graph = some drawn ∧ graphPlace = some place ∧
        host.files.create drawn.path = .ok (place, host'.files)) := by
  cases graph with
  | none => exact ⟨rfl, .inl ⟨rfl, rfl⟩⟩
  | some drawn =>
      rw [openGraph]
      cases hcreate : host.files.create drawn.path with
      | error fault => exact ⟨host.out_log _, .inl ⟨rfl, host.files_log _⟩⟩
      | ok created =>
          obtain ⟨place, files⟩ := created
          refine ⟨Host.out_log _ _, .inr ⟨drawn, place, rfl, rfl, ?_⟩⟩
          rw [hcreate, Host.files_log]

theorem Compilation.start_eq_ok (h : start config host = .ok c) : c.config = config ∧ c.host.out = host.out ∧
    (c.graphPlace = none ∧ c.host.files = host.files ∨ ∃ drawn place, config.graph = some drawn ∧
      c.graphPlace = some place ∧ host.files.create drawn.path = .ok (place, c.host.files)) := by
  rw [start] at h
  split at h
  · cases h
  · cases h
    obtain ⟨hout, hgraph⟩ := openGraph_spec host config.graph
    refine ⟨rfl, (Host.out_log _ _).trans hout, ?_⟩
    rw [Host.files_log]
    exact hgraph

/-- What a failed compilation may have changed: the graph, in a directory that was there, and standard output. -/
structure Leaves (config : Config) (host : Host) (error : CompileError) (host' : Host) : Prop where
  files : host'.files = host.files ∨ ∃ directory name content, host.files.isDirectory directory = true ∧
    config.DrawsAt host.files (directory ++ [name]) ∧ host'.files = host.files.put (directory ++ [name]) content
  out : config.strategy ≠ .execution →
    host'.out = host.out ∨ config.output = none ∧ Compilation.OutFails host.out error host'.out

theorem leaves_refl (config : Config) (host : Host) (error : CompileError) : Leaves config host error host :=
  ⟨.inl rfl, fun _ => .inl rfl⟩

theorem leaves_compileText (h : compileText config text host = (.error error, host')) :
    Leaves config host error host' := by
  rw [compileText] at h
  split at h
  · cases h
    exact leaves_refl config host error
  · next c hstart =>
      split at h
      · cases h
      · next failure c' hwork =>
          cases h
          obtain ⟨hconfig, hout, hgraph⟩ := Compilation.start_eq_ok hstart
          obtain ⟨hfiles, hfails⟩ := Compilation.work_fails hwork
          rw [hconfig, hout] at hfails
          refine ⟨?_, hfails⟩
          rcases hgraph with ⟨hnone, hsame⟩ | ⟨drawn, place, hdrawn, hplace, hcreate⟩
          · rcases hfiles with hkept | ⟨place, _, hplace, -⟩
            · exact .inl (hkept.trans hsame)
            · rw [hnone] at hplace
              cases hplace
          · obtain ⟨hlocate, hempty, directory, name, hdirectory, rfl⟩ := Files.create_eq_ok hcreate
            have hredrawn : Files.Redrawn c.graphPlace host.files c.host.files := .inr ⟨_, _, hplace, hempty⟩
            rcases hredrawn.trans hfiles with hkept | ⟨_, content, hplace', hput⟩
            · exact .inl hkept
            · obtain rfl := Option.some.inj (hplace.symm.trans hplace')
              exact .inr ⟨directory, name, content, hdirectory, ⟨drawn, hdrawn, hlocate⟩, hput⟩

theorem leaves_compileFile (h : compileFile config host = (.error error, host')) : Leaves config host error host' := by
  rw [compileFile] at h
  split at h
  · cases h
    exact leaves_refl config host _
  · split at h
    · cases h
      exact leaves_refl config host _
    · split at h
      · cases h
        exact leaves_refl config host _
      · exact leaves_compileText h

end

/-- Of a compilation that fails, in whatever way, no file remains and none is lost or changed, apart from the one
that the graph goes to. Unless the program was to be executed, nothing is on standard output either, except when
it was standard output that failed. -/
theorem failed_compilation_leaves_no_product (config : Config) (host host' : Host) (error : CompileError)
    (h : (∃ text, compileText config text host = (.error error, host')) ∨
      compileFile config host = (.error error, host')) :
    (∀ place, ¬ config.DrawsAt host.files place → host'.files.content? place = host.files.content? place) ∧
    (∀ place, host'.files.isDirectory place = host.files.isDirectory place) ∧
    (∀ path, (∀ place, host.files.locate (Files.Path.ofText path) = .ok place → ¬ config.DrawsAt host.files place) →
      (host'.files.read path).toOption = (host.files.read path).toOption) ∧
    (config.strategy ≠ .execution →
      host'.out = host.out ∨ config.output = none ∧ Compilation.OutFails host.out error host'.out) := by
  have hleaves : Leaves config host error host' := by
    rcases h with ⟨text, h⟩ | h
    · exact leaves_compileText h
    · exact leaves_compileFile h
  have hcontent : ∀ place, ¬ config.DrawsAt host.files place →
      host'.files.content? place = host.files.content? place := by
    intro place hplace
    rcases hleaves.files with hsame | ⟨directory, name, content, -, hdraws, hput⟩
    · rw [hsame]
    · rw [hput]
      exact Files.content?_put_of_ne fun heq => hplace (heq ▸ hdraws)
  have hdirectories : ∀ place, host'.files.isDirectory place = host.files.isDirectory place := by
    intro place
    rcases hleaves.files with hsame | ⟨directory, name, content, hdirectory, -, hput⟩
    · rw [hsame]
    · rw [hput]
      exact Files.isDirectory_put hdirectory
  refine ⟨hcontent, hdirectories, fun path hpath => ?_, hleaves.out⟩
  exact Files.read_congr hdirectories fun place hlocate => hcontent place (hpath place hlocate)

/-- The product was to replace a directory. By then there is a file with its text, which disappears. -/
theorem failed_compilation_leaves_no_product_directory :
    let config : Config :=
      { input := "a.gt", output := some "out", strategy := .listing, graph := some { path := "a.dot" } }
    let host : Host :=
      { files := { entries := [(["out", "keep"], #[1, 2])] }
        patience := 0
        linker := fun _ _ => .refused .notFound }
    ∃ host', compileText config "exit 0;" host = (.error (.io "out" .isADirectory), host') ∧
      host'.files.content? ["out", "keep"] = some #[1, 2] ∧ host'.files.content? [".tmp0"] = none ∧
      (host'.files.read "out/../out/keep").toOption = (host.files.read "out/../out/keep").toOption ∧
      host'.out = host.out := by
  intro config host
  have hfails : compileText config "exit 0;" host =
      (.error (.io "out" .isADirectory), (compileText config "exit 0;" host).2) :=
    Prod.ext (by decide +kernel) rfl
  obtain ⟨hcontent, -, hread, hout⟩ :=
    failed_compilation_leaves_no_product config host _ _ (.inl ⟨"exit 0;", hfails⟩)
  have hdraws : ∀ place, config.DrawsAt host.files place → place = ["a.dot"] := by
    rintro place ⟨graph, hgraph, hlocate⟩
    cases hgraph
    exact (Except.ok.inj hlocate).symm
  refine ⟨_, hfails, (hcontent _ ?_).trans rfl, (hcontent _ ?_).trans rfl, hread _ ?_,
    (hout ?_).resolve_right ?_⟩
  · exact fun hplace => absurd (hdraws _ hplace) (by decide)
  · exact fun hplace => absurd (hdraws _ hplace) (by decide)
  · intro place hlocate hplace
    cases hdraws _ hplace
    revert hlocate
    decide +kernel
  · decide
  · rintro ⟨hnone, -⟩
    cases hnone

end GotoLang
