import GotoLang.Linking
import GotoLang.Proofs.Files

/-!
# What stays of writing and linking

A file is written to a new place first and moved then. An object is linked in a new directory, which is deleted
again. So a file that could not be written leaves no trace, and neither does linking, whether it fails or not.
-/
namespace GotoLang

namespace Host

section
variable {host host' : Host} {scratch place : Files.Place} {scratchPath path : String} {content : Bytes}
  {executable : Bool} {failure : String × IoFault} {files files' : Files}

theorem exists_log (host : Host) (record : Log.Record) : ∃ err, host.log record = { host with err } := by
  rw [log]
  split
  · split
    · exact ⟨_, rfl⟩
    · exact ⟨host.err, rfl⟩
  · exact ⟨host.err, rfl⟩

@[simp]
theorem files_log (host : Host) (record : Log.Record) : (host.log record).files = host.files := by
  obtain ⟨err, h⟩ := host.exists_log record
  rw [h]

@[simp]
theorem out_log (host : Host) (record : Log.Record) : (host.log record).out = host.out := by
  obtain ⟨err, h⟩ := host.exists_log record
  rw [h]

@[simp]
theorem linker_log (host : Host) (record : Log.Record) : (host.log record).linker = host.linker := by
  obtain ⟨err, h⟩ := host.exists_log record
  rw [h]

theorem exists_logAll {ι : Type} (host : Host) (record : ι → Log.Record) (events : List ι) :
    ∃ err, events.foldl (fun host event => host.log (record event)) host = { host with err } := by
  induction events generalizing host with
  | nil => exact ⟨host.err, rfl⟩
  | cons event events ih =>
      obtain ⟨err, h⟩ := host.exists_log (record event)
      rw [List.foldl_cons, h]
      exact ih _

theorem newName_eq_ok {directory : Files.Path} (h : host.newName directory = .ok (place, path)) :
    host.files.isFree place = true := by
  rw [newName] at h
  split at h
  · cases h
  · split at h
    · cases h
    · next name hname =>
        cases h
        have hfree := List.find?_some hname
        exact hfree

theorem exists_pour (host : Host) (place : Files.Place) (content : Bytes) (files : Files) :
    ∃ complete bytes, host.pour place content files = (complete, files.put place bytes) ∧
      (complete = true → bytes = content) := by
  cases hspace : host.space with
  | none => exact ⟨true, content, by simp [pour, hspace, Sink.write], fun _ => rfl⟩
  | some room =>
      by_cases hroom : content.size ≤ room
      · exact ⟨true, content, by simp [pour, hspace, Sink.write, hroom], fun _ => rfl⟩
      · exact ⟨false, content.extract 0 room, by simp [pour, hspace, Sink.write, hroom], nofun⟩

theorem move_eq_error (h : move scratch path files = .error failure files') : files' = files := by
  obtain hget | ⟨_, _, hget, h⟩ := bind_eq_error.mp h
  · cases hget
  · cases hget
    cases hpersist : files.persist scratch path with
    | error fault =>
        simp only [hpersist] at h
        cases h
        rfl
    | ok moved =>
        simp only [hpersist] at h
        cases h

/-- When the new file cannot take its place, it is all that there is. -/
theorem fill_eq_error (h : host.fill scratch scratchPath path content executable files = .error failure files') :
    ∃ bytes, files' = files.put scratch bytes := by
  obtain ⟨complete, bytes, hpour, -⟩ := host.exists_pour scratch content files
  refine ⟨bytes, ?_⟩
  have hwrite : (modifyGet (host.pour scratch content) : EStateM (String × IoFault) Files Bool) files =
      .ok complete (files.put scratch bytes) := by
    rw [modifyGet_apply, hpour]
  unfold fill at h
  rw [bind_of_ok hwrite] at h
  cases complete with
  | false =>
      cases h
      rfl
  | true =>
      cases executable with
      | false => exact move_eq_error h
      | true =>
          cases hmode : host.modeFault with
          | none =>
              simp only [hmode] at h
              exact move_eq_error h
          | some fault =>
              simp only [hmode] at h
              cases h
              rfl

/-- A product that could not be written leaves no trace. -/
theorem writeFile_eq_error (h : host.writeFile path content executable = (.error failure, host')) : host' = host := by
  rw [writeFile] at h
  split at h
  · cases h
    rfl
  · next scratch scratchPath hname =>
      have hnew := (Files.isFree_iff.mp (newName_eq_ok hname)).1
      split at h
      · cases h
      · next failed files hfill =>
          obtain ⟨bytes, rfl⟩ := fill_eq_error hfill
          rw [Files.remove_put hnew] at h
          cases h
          rfl

end

end Host

namespace Link

/-- Nothing is different outside of a directory. -/
structure Within (place : Files.Place) (host host' : Host) : Prop where
  files : host'.files.removeTree place = host.files.removeTree place
  out : host'.out = host.out

instance (place : Files.Place) : IsPreorder Host (Within place) where
  refl _ := ⟨rfl, rfl⟩
  trans _ _ _ h h' := ⟨h'.files.trans h.files, h'.out.trans h.out⟩

/-- What linking leaves as it was, whether it fails or not. -/
structure Restores (host host' : Host) : Prop where
  files : host'.files = host.files
  out : host'.out = host.out

section
variable {α : Type} {place below : Files.Place} {path : String} {object bytes : Bytes} {command : Command}
  {entryPoint : Bool} {host host' : Host}

theorem restores_of_within (hfree : host.files.isFree place = true)
    (h : Within place { host with files := host.files.addDirectory place } host') :
    Restores host { host' with files := host'.files.removeTree place } := by
  refine ⟨?_, h.out⟩
  show host'.files.removeTree place = host.files
  rw [h.files, Files.removeTree_addDirectory, Files.removeTree_of_isFree hfree]

/-- Work that stays in its directory has no effect when that is deleted. -/
theorem along_inScratch {work : Files.Place → String → Link α} (h : ∀ place path, Along (Within place) (work place path)) :
    Along Restores (inScratch work) := by
  constructor
  all_goals
    intro host result host' hrun
    rw [inScratch] at hrun
    split at hrun
  · cases hrun
  · next place path hname =>
      dsimp only at hrun
      split at hrun
      · next hwork =>
          cases hrun
          exact restores_of_within (Host.newName_eq_ok hname) ((h place path).ok hwork)
      · cases hrun
  · cases hrun
    exact ⟨rfl, rfl⟩
  · next place path hname =>
      dsimp only at hrun
      split at hrun
      · cases hrun
      · next hwork =>
          cases hrun
          exact restores_of_within (Host.newName_eq_ok hname) ((h place path).error hwork)

theorem within_put (host : Host) (content : Bytes) (h : place <+: below) :
    Within place host { host with files := host.files.put below content } :=
  ⟨Files.removeTree_put h, rfl⟩

theorem within_log (host : Host) (record : Log.Record) : Within place host (host.log record) :=
  ⟨by rw [Host.files_log], host.out_log record⟩

theorem along_writeObject (h : place <+: below) : Along (Within place) (writeObject below path object) := by
  refine (along_modifyGet fun host => ?_).bind fun complete => ?_
  · obtain ⟨complete, bytes, hpour, -⟩ := host.exists_pour below object host.files
    rw [hpour]
    exact within_put host bytes h
  · cases complete with
    | true => exact along_pure _
    | false => exact along_throw _

theorem along_callLinker (h : place <+: below) : Along (Within place) (callLinker command below) := by
  refine (along_modify fun host => within_log host _).bind fun _ => along_get.bind fun host => ?_
  cases host.linker command host.files with
  | refused fault => exact along_throw _
  | ended status complaint product =>
      cases product with
      | none => exact along_check _
      | some bytes => exact (along_modify fun host => within_put host bytes h).bind fun _ => along_check _

theorem along_readExecutable : Along (Within place) (readExecutable below path) := by
  refine along_get.bind fun host => ?_
  cases host.files.content? below with
  | none => exact along_throw _
  | some bytes => exact along_pure _

/-- Linking does nothing that is seen outside, whether it fails or not. -/
theorem along_executable (entryPoint : Bool) (object : Bytes) : Along Restores (executable entryPoint object) :=
  along_inScratch fun _ _ => (along_writeObject (List.prefix_append _ _)).bind fun _ =>
    (along_callLinker (List.prefix_append _ _)).bind fun _ => along_readExecutable

theorem writeObject_eq_ok {u : Unit} (h : writeObject place path object host = .ok u host') :
    host' = { host with files := host.files.put place object } := by
  obtain ⟨complete, written, hpour, hcomplete⟩ := host.exists_pour place object host.files
  obtain ⟨complete', between, hwrite, h⟩ := bind_eq_ok.mp h
  rw [modifyGet_apply, hpour] at hwrite
  cases hwrite
  cases complete with
  | false => cases h
  | true =>
      cases h
      rw [hcomplete rfl]

theorem callLinker_eq_ok {u : Unit} (h : callLinker command place host = .ok u host') :
    ∃ complaint product, host.linker command host.files = .ended (.code 0) complaint product ∧
      host'.files = product.elim host.files (host.files.put place) := by
  obtain ⟨_, logged, hlog, h⟩ := bind_eq_ok.mp h
  cases hlog
  rw [get_bind, Host.linker_log, Host.files_log] at h
  cases hrun : host.linker command host.files with
  | refused fault =>
      simp only [hrun] at h
      cases h
  | ended status complaint product =>
      simp only [hrun] at h
      cases product with
      | none =>
          obtain ⟨hstatus, rfl⟩ := check_eq_ok h
          rw [not_not.mp hstatus]
          exact ⟨complaint, none, rfl, host.files_log _⟩
      | some bytes =>
          obtain ⟨_, _, hput, h⟩ := bind_eq_ok.mp h
          cases hput
          obtain ⟨hstatus, rfl⟩ := check_eq_ok h
          rw [not_not.mp hstatus]
          exact ⟨complaint, some bytes, rfl, congrArg (Files.put · place bytes) (host.files_log _)⟩

theorem readExecutable_eq_ok (h : readExecutable place path host = .ok bytes host') :
    host.files.content? place = some bytes := by
  rw [readExecutable, get_bind] at h
  cases hfound : host.files.content? place with
  | none =>
      simp only [hfound] at h
      cases h
  | some found =>
      simp only [hfound] at h
      cases h
      rfl

/-- What linking returns is what a linker that succeeded made of the object. The directory is new, so there is no
other file that could be taken for the executable. -/
theorem executable_eq_ok (h : executable entryPoint object host = .ok bytes host') :
    ∃ place path complaint, host.newName (Files.Path.ofText host.temporary) = .ok (place, path) ∧
      host.linker (Linker.command entryPoint s!"{path}/program.o" s!"{path}/program")
        ((host.files.addDirectory place).put (place ++ ["program.o"]) object) =
          .ended (.code 0) complaint (some bytes) := by
  rw [executable, inScratch] at h
  split at h
  · cases h
  · next place path hname =>
      dsimp only at h
      split at h
      · next found linked hwork =>
          cases h
          obtain ⟨_, _, hwrite, hwork⟩ := bind_eq_ok.mp hwork
          obtain ⟨_, _, hcall, hread⟩ := bind_eq_ok.mp hwork
          cases writeObject_eq_ok hwrite
          obtain ⟨complaint, product, hrun, hfiles⟩ := callLinker_eq_ok hcall
          have hcontent := readExecutable_eq_ok hread
          rw [hfiles] at hcontent
          refine ⟨place, path, complaint, hname, ?_⟩
          cases product with
          | some made =>
              rw [Option.elim_some, Files.content?_put] at hcontent
              cases hcontent
              exact hrun
          | none =>
              -- The directory is new, so the only file in it is the object.
              have hnone := Files.content?_below_of_isFree (Host.newName_eq_ok hname)
                (List.prefix_append place ["program"])
              rw [Option.elim_none, Files.content?_put_of_ne (by simp)] at hcontent
              exact absurd (hnone.symm.trans hcontent) nofun
      · cases h

end

end Link

end GotoLang
