import GotoLang.Proofs.Lowering.Visit

/-!
# The lowered program

After the last statement every waiting transfer gets its address. What results is the code of all
statements under one layout, in which the place of each variable is its slot and the place of each
label is the first operation behind it.
-/
namespace GotoLang
open Source

namespace Lowering

theorem patch_eq_ok {buffer buffer' : EmissionBuffer} {addr target : Addr}
    (h : buffer.patch addr target = .ok buffer') :
    buffer'.ops.toList = buffer.ops.toList.modify addr.toNat (Op.retarget target) ∧
      buffer'.lines = buffer.lines := by
  unfold EmissionBuffer.patch at h
  split at h
  · next op ho =>
      cases h
      obtain ⟨old, hold, hop⟩ := Option.bind_eq_some_iff.mp ho
      refine ⟨?_, rfl⟩
      have hlist : buffer.ops.toList[addr.toNat]? = some old := by
        rw [Array.getElem?_toList]
        exact hold
      rw [Array.toList_setIfInBounds]
      apply List.ext_getElem?
      intro i
      rw [List.getElem?_modify, List.getElem?_set]
      split
      · next he =>
          subst he
          have hlt := (List.getElem?_eq_some_iff.mp hlist).1
          rw [hlist, if_pos hlt]
          simp [Op.retarget, hop]
      · simp
  · cases h

theorem foldlM_patch {resolved : List (Addr × Addr)} {buffer buffer' : EmissionBuffer}
    (h : resolved.foldlM (fun buffer p => buffer.patch p.1 p.2) buffer = .ok buffer') :
    buffer'.ops.toList = resolved.foldl
        (fun ops p => ops.modify p.1.toNat (Op.retarget p.2)) buffer.ops.toList ∧
      buffer'.lines = buffer.lines := by
  induction resolved generalizing buffer with
  | nil =>
      cases h
      exact ⟨rfl, rfl⟩
  | cons p rest ih =>
      rw [List.foldlM_cons] at h
      obtain ⟨next, hp, hrest⟩ := except_bind_eq_ok.mp h
      obtain ⟨hops, hlines⟩ := patch_eq_ok hp
      rw [List.foldl_cons, ← hops, ← hlines]
      exact ih hrest

theorem resolveOne_eq_ok {table : LabelTable} {buffer : EmissionBuffer} {r : LabelTable.Reference}
    {p : Addr × Addr} (h : table.resolveOne buffer r = .ok p) :
    ∃ addr, table.lookup r.label = some addr ∧ p = (r.slot, addr) := by
  unfold LabelTable.resolveOne at h
  split at h
  · cases h
  · next addr ha =>
      split at h
      · cases h
        exact ⟨addr, ha, rfl⟩
      · cases h

theorem mapM_resolveOne {table : LabelTable} {buffer : EmissionBuffer}
    {pending : List LabelTable.Reference} {resolved : List (Addr × Addr)}
    (h : pending.mapM (table.resolveOne buffer) = .ok resolved) :
    resolved = pending.map (fun r => (r.slot, (table.lookup r.label).getD 0)) ∧
      ∀ r ∈ pending, (table.lookup r.label).isSome := by
  induction pending generalizing resolved with
  | nil =>
      cases h
      exact ⟨rfl, fun r hr => by cases hr⟩
  | cons r rest ih =>
      rw [List.mapM_cons] at h
      obtain ⟨p, hr, h₁⟩ := except_bind_eq_ok.mp h
      obtain ⟨ps, hrest, h₂⟩ := except_bind_eq_ok.mp h₁
      cases h₂
      obtain ⟨hps, hall⟩ := ih hrest
      obtain ⟨addr, ha, hp⟩ := resolveOne_eq_ok hr
      rw [List.map_cons, hps, hp, ha]
      refine ⟨rfl, ?_⟩
      intro r' hr'
      rcases List.mem_cons.mp hr' with rfl | hr'
      · rw [ha]
        rfl
      · exact hall r' hr'

/-- Finishing gives every waiting transfer the address its label is bound to. -/
theorem finish_spec {slots : Array Variable} {session session' : Session} {program : Program}
    (h : Session.finish slots session = .ok program session') :
    program.ops.toList = patch (fun name => (session.labels.lookup name).getD 0)
        session.buffer.ops.toList session.labels.pending.toList ∧
      program.lines = session.buffer.lines ∧ program.slots = slots ∧
      program.marks = session.labels.marks ∧
      ∀ r ∈ session.labels.pending.toList, (session.labels.lookup r.label).isSome := by
  unfold Session.finish at h
  split at h
  · cases h
  · next count labels buffer hr =>
      cases h
      obtain ⟨resolved, hm, h₁⟩ := except_bind_eq_ok.mp hr
      obtain ⟨buffer', hf, h₂⟩ := except_bind_eq_ok.mp h₁
      cases h₂
      obtain ⟨hresolved, hall⟩ := mapM_resolveOne hm
      obtain ⟨hops, hlines⟩ := foldlM_patch hf
      refine ⟨?_, hlines, rfl, rfl, hall⟩
      rw [hops, hresolved, List.foldl_map]
      rfl

/-- A program is the code of some statements under a layout, with its epilogue. -/
structure Lowered (layout : Layout) (stmts : List Stmt) (program : Program) : Prop where
  ops : program.ops.toList = code layout stmts ++ [.push 0, .exit]
  lines : program.lines.size = program.ops.size
  scope : layout.scope = scope stmts
  typed : ∀ stmt ∈ stmts, Typed layout.scope stmt
  label : ∀ stmt ∈ stmts, ∀ name, destination? stmt = some name → ∃ before behind span,
    stmts = before ++ .label name span :: behind ∧ after? name stmts = some behind ∧
      (layout.addr name).toNat = size before
  slot : ∀ name ty, layout.scope name = some ty →
    program.slots[(layout.slot name).toNat]? = some ⟨name, ty⟩
  count : program.slots.size ≤ program.ops.size
  marks : program.marks.toList = marks 0 stmts
  distinct : ((Source.marks 0 stmts).map Mark.name).Nodup

/-- The statements come first, then the two operations of the epilogue, and then the session is finished. -/
theorem stages_of_program {ast : Ast} {st st' : State} {program : Program}
    (h : Lowering.program ast st = .ok program st') : ∃ st₁ st₂ st₃ session',
      stmts ast.stmts st = .ok () st₁ ∧ emit (.push 0) ast.stop st₁ = .ok () st₂ ∧
      emit .exit ast.stop st₂ = .ok () st₃ ∧
      Session.finish st₃.symbols.slots st₃.session = .ok program session' := by
  obtain ⟨_, st₁, h₁, k₁⟩ := bind_eq_ok.mp h
  obtain ⟨_, st₂, h₂, k₂⟩ := bind_eq_ok.mp k₁
  obtain ⟨_, st₃, h₃, k₃⟩ := bind_eq_ok.mp k₂
  obtain ⟨_, st₄, h₄, k₄⟩ := bind_eq_ok.mp k₃
  cases h₄
  obtain ⟨session', hfinish, -⟩ := emission_eq_ok.mp k₄
  exact ⟨st₁, st₂, st₃, session', h₁, h₂, h₃, hfinish⟩

/-- A program is found to have as many operations as its statements and its epilogue. -/
theorem program_size {ast : Ast} {session : Session} {program : Program} {st' : State}
    (hfresh : Fresh session) (h : Lowering.program ast { session } = .ok program st') :
    program.ops.size = size ast.stmts + 2 ∧ program.lines.size = program.ops.size := by
  obtain ⟨st₁, st₂, st₃, session', h₁, h₂, h₃, hfinish⟩ := stages_of_program h
  obtain ⟨hops, hlines, -⟩ := finish_spec hfinish
  have hstmts := grows_stmts _ _ _ _ h₁
  have hpush := grows_emit _ _ _ _ _ h₂
  have hexit := grows_emit _ _ _ _ _ h₃
  simp only [hfresh.ops, hfresh.lines, List.size_toArray, List.length_nil, Nat.zero_add] at hstmts
  have hsize : program.ops.size = st₃.session.buffer.ops.size := by
    rw [← Array.length_toList, hops, length_patch, Array.length_toList]
  constructor
  · omega
  · rw [hlines]
    omega

theorem program_spec {ast : Ast} {session : Session} {program : Program} {st' : State}
    (hfresh : Fresh session) (h : Lowering.program ast { session } = .ok program st')
    (hsize : program.ops.size < 4294967296) : ∃ layout, Lowered layout ast.stmts program := by
  obtain ⟨hcount, hlines⟩ := program_size hfresh h
  obtain ⟨st₁, st₂, st₃, session', h₁, h₂, h₃, hfinish⟩ := stages_of_program h
  obtain ⟨hops, -, hslots, hmarks, hall⟩ := finish_spec hfinish
  have he := (emit_spec h₂).trans (emit_spec h₃)
  have hgrows : st₁.session.buffer.ops.size = size ast.stmts := by
    have h := (grows_stmts _ _ _ _ h₁).1
    simpa only [hfresh.ops, List.size_toArray, List.length_nil, Nat.zero_add] using h
  have hv := hfresh.visited.stmts h₁ (by omega)
  rw [List.nil_append] at hv
  rw [he.labels] at hops hall
  refine ⟨known st₁, ?_, ?_, hv.scope_known, hv.typed _ (agrees_known st₁), ?_, ?_, ?_, ?_,
    hv.labels.distinct⟩
  · rw [hops, he.ops, patch_append _ hv.waiting, ← hv.code _ (agrees_known st₁)]
    rfl
  · exact hlines
  · intro stmt hs name hd
    have hbound : (st₁.session.labels.lookup name).isSome := by
      rcases hv.destinations stmt hs name hd with hb | ⟨r, hr, he⟩
      · exact hb
      · rw [← he]
        exact hall r hr
    obtain ⟨addr, ha⟩ := Option.isSome_iff_exists.mp hbound
    obtain ⟨before, behind, span, hstmts, hafter, haddr⟩ := hv.labels.some name addr ha
    refine ⟨before, behind, span, hstmts, hafter, ?_⟩
    rw [(agrees_known st₁).label name addr ha, haddr]
    apply UInt32.toNat_ofNat_of_lt'
    rw [UInt32.size]
    have hle : size before ≤ size ast.stmts := by
      rw [hstmts, size_append]
      exact Nat.le_add_right _ _
    have := hv.size
    omega
  · intro name ty hty
    obtain ⟨symbol, hf, rfl⟩ := Option.map_eq_some_iff.mp hty
    have hfew : st₁.symbols.size ≤ 4294967296 := hv.slots.trans (by omega)
    rw [(agrees_known st₁).vars _ symbol hf |>.1, hslots, he.symbols]
    exact hv.vars.paired.getElem?_slot hfew hf
  · rw [hslots, he.symbols]
    have hfew : st₁.symbols.slots.size ≤ st₁.session.buffer.ops.size := hv.slots
    omega
  · rw [hmarks, he.labels]
    exact hv.labels.marks

end Lowering

theorem Ast.lower_eq_ok {ast : Ast} {session session' : Session} {program : Program}
    (h : ast.lower session = (.ok program, session')) :
    ∃ st, Lowering.program ast { session } = .ok program st := by
  unfold Ast.lower at h
  split at h
  · next st hp =>
      cases h
      exact ⟨st, hp⟩
  · cases h

theorem Ast.lower_size {ast : Ast} {session session' : Session} {program : Program}
    (hfresh : Lowering.Fresh session) (h : ast.lower session = (.ok program, session')) :
    program.ops.size = size ast.stmts + 2 ∧ program.lines.size = program.ops.size := by
  obtain ⟨st, hp⟩ := lower_eq_ok h
  exact Lowering.program_size hfresh hp

theorem Ast.lower_spec {ast : Ast} {session session' : Session} {program : Program}
    (hfresh : Lowering.Fresh session) (h : ast.lower session = (.ok program, session'))
    (hsize : program.ops.size < 4294967296) :
    ∃ layout, Lowering.Lowered layout ast.stmts program := by
  obtain ⟨st, hp⟩ := lower_eq_ok h
  exact Lowering.program_spec hfresh hp hsize

end GotoLang
