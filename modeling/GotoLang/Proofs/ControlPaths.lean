import GotoLang.Program.Flow
import GotoLang.Proofs.Behaviour

/-!
# Paths of control

The check follows control from the first operation and notes for each operation the depth of the stack on
entry. There are more paths than it can follow, since it leaves every operation only once: a loop has paths
of any length. It is exact all the same. It accepts a program if and only if no path leaves the program, comes
to a transfer that is not bound or to an operation that takes more values than there are, and any two paths to an
operation arrive there with the same depth. What it notes is then that depth, and nothing for an operation that no
path gets to.

This holds for whatever order the addresses are visited in. The depths that a search knows are closed under control
up to what it has still to visit, so at the end they contain all paths; and all that it has seen is on some path, so
if it refuses there is a path with the fault.

Visits are bounded, and a search that ran out of them would accept. It cannot: a visit is paid for by the
address it takes off the list, and an operation that is left for the first time pays for the two it adds.
-/
namespace GotoLang

namespace Flow

/-- The depth on entry to an operation is known. -/
def At (depths : Depths) (addr depth : Nat) : Prop :=
  depths[addr]? = some (some depth)

/-- An address with this depth is known or still to be visited. -/
def Seen (work : Work) (depths : Depths) (addr depth : Nat) : Prop :=
  At depths addr depth ∨ (addr, depth) ∈ work

/-- An operation can be entered with a depth, and everything it leads to was seen with the depth that
it leaves. -/
structure Passes (ops : Array Op) (work : Work) (depths : Depths) (addr depth : Nat) (op : Op) :
    Prop where
  get : ops[addr]? = some op
  bound : op.target? ≠ some placeholder
  enough : op.pops ≤ depth
  onward : ∀ next ∈ op.successors addr, Seen work depths next (depth - op.pops + op.pushes)

/-- All known depths are closed under control. -/
def Closed (ops : Array Op) (work : Work) (depths : Depths) : Prop :=
  ∀ addr depth, At depths addr depth → ∃ op, Passes ops work depths addr depth op

theorem at_unique {depths : Depths} {addr d d' : Nat} (h : At depths addr d)
    (h' : At depths addr d') : d = d' := by
  rw [At, h] at h'
  cases h'
  rfl

theorem Closed.mono {ops : Array Op} {work work' : Work} {depths depths' : Depths}
    (h : Closed ops work depths)
    (hseen : ∀ addr depth, Seen work depths addr depth → Seen work' depths' addr depth)
    {addr depth : Nat} (hat : At depths addr depth) :
    ∃ op, Passes ops work' depths' addr depth op := by
  obtain ⟨op, hp⟩ := h addr depth hat
  exact ⟨op, hp.get, hp.bound, hp.enough, fun next hn => hseen _ _ (hp.onward next hn)⟩

section
variable {depths : Depths} {addr : Nat}

theorem at_of_getD {known : Nat} (h : depths.getD addr none = some known) :
    At depths addr known := by
  rw [Array.getD_eq_getD_getElem?] at h
  cases ho : depths[addr]? with
  | none => simp [ho] at h
  | some entry =>
      simp only [ho, Option.getD_some] at h
      rw [At, ho, h]

theorem at_setIfInBounds {depth other d : Nat} (hlt : addr < depths.size)
    (hnone : depths.getD addr none = none) :
    At (depths.setIfInBounds addr (some depth)) other d ↔
      other = addr ∧ d = depth ∨ At depths other d := by
  have hget : depths[addr]? = some none := by
    rw [Array.getD_eq_getD_getElem?, Array.getElem?_eq_getElem hlt, Option.getD_some] at hnone
    rw [Array.getElem?_eq_getElem hlt, hnone]
  by_cases hne : addr = other
  · subst hne
    rw [At, Array.getElem?_setIfInBounds_self_of_lt hlt, At, hget]
    simp [eq_comm]
  · rw [At, Array.getElem?_setIfInBounds_ne hne]
    simp [At, Ne.symm hne]

theorem count_setIfInBounds (depth : Nat) (hlt : addr < depths.size)
    (hnone : depths.getD addr none = none) :
    (depths.setIfInBounds addr (some depth)).count none + 1 = depths.count none := by
  have hget : depths[addr] = none := by
    rwa [Array.getD_eq_getD_getElem?, Array.getElem?_eq_getElem hlt, Option.getD_some] at hnone
  have hpos : 0 < depths.count none := Array.count_pos_iff.mpr (hget ▸ Array.getElem_mem hlt)
  rw [Array.setIfInBounds, dif_pos hlt, Array.count_set hlt, hget]
  simp
  omega

end

/-- Visit an address with a depth: the depths that are known then, and what the operation leads to. -/
def visit (ops : Array Op) (depths : Depths) (addr depth : Nat) :
    Except ProgramFault (Depths × Work) :=
  match ops[addr]? with
  | none => .error (.pastEnd addr)
  | some op =>
    match depths.getD addr none with
    | some known => if known = depth then .ok (depths, []) else .error (.depthConflict addr known depth)
    | none =>
      if op.target? = some placeholder then .error (.unboundTransfer addr)
      else if depth < op.pops then .error (.stackUnderflow addr op)
      else
        let after := depth - op.pops + op.pushes
        .ok (depths.setIfInBounds addr (some depth), (op.successors addr).reverse.map (·, after))

/-- Follow control for a number of visits, with the list of what is left rearranged before each of them. -/
def followBy (arrange : Nat → Work → Work) (ops : Array Op) :
    Nat → Work → Depths → Except ProgramFault Depths
  | 0, _, depths => .ok depths
  | visits + 1, work, depths =>
    match arrange visits work with
    | [] => .ok depths
    | (addr, depth) :: rest =>
      match visit ops depths addr depth with
      | .error fault => .error fault
      | .ok (depths, reached) => followBy arrange ops visits (reached ++ rest) depths

/-- The check takes what it added last. -/
theorem follow_eq (ops : Array Op) (visits : Nat) (work : Work) (depths : Depths) :
    follow ops visits work depths = followBy (fun _ work => work) ops visits work depths := by
  fun_induction follow ops visits work depths with
  | case1 visits depths => cases visits <;> rfl
  | case2 depths head work => rfl
  | case3 visits addr depth work depths ho => simp [followBy, visit, ho]
  | case4 visits addr work depths op ho depth hk ih => simp [followBy, visit, ho, hk, ih]
  | case5 visits addr depth work depths op ho known hk hne => simp [followBy, visit, ho, hk, hne]
  | case6 visits addr depth work depths op ho hk hbound => simp [followBy, visit, ho, hk, hbound]
  | case7 visits addr depth work depths op ho hk hbound hpops =>
      simp [followBy, visit, ho, hk, hbound, hpops]
  | case8 visits addr depth work depths op ho hk hbound hpops after reached ih =>
      simp only [followBy, visit, ho, hk, hbound, hpops, if_false]
      exact ih

section
variable {ops : Array Op} {depths depths' : Depths} {addr depth : Nat} {work reached : Work}

/-- A visit finds the depth that is known, or enters the operation for the first time. -/
theorem visit_eq_ok (h : visit ops depths addr depth = .ok (depths', reached)) :
    ∃ op, ops[addr]? = some op ∧
      (At depths addr depth ∧ depths' = depths ∧ reached = [] ∨
        depths.getD addr none = none ∧ op.target? ≠ some placeholder ∧ op.pops ≤ depth ∧
          depths' = depths.setIfInBounds addr (some depth) ∧
          reached = (op.successors addr).reverse.map (·, depth - op.pops + op.pushes)) := by
  rw [visit] at h
  split at h
  · cases h
  · next op ho =>
      refine ⟨op, ho, ?_⟩
      split at h
      · next known hk =>
          split at h
          · next heq =>
              cases h
              exact .inl ⟨heq ▸ at_of_getD hk, rfl, rfl⟩
          · cases h
      · next hk =>
          split at h
          · cases h
          · next hbound =>
              split at h
              · cases h
              · next hpops =>
                  cases h
                  exact .inr ⟨hk, hbound, Nat.le_of_not_lt hpops, rfl, rfl⟩

/-- Nothing is forgotten in a visit. -/
theorem seen_visit (h : visit ops depths addr depth = .ok (depths', reached))
    (hsize : depths.size = ops.size) {a d : Nat} (hseen : Seen ((addr, depth) :: work) depths a d) :
    Seen (reached ++ work) depths' a d := by
  obtain ⟨op, ho, ⟨hat, rfl, rfl⟩ | ⟨hk, -, -, rfl, rfl⟩⟩ := visit_eq_ok h
  · rcases hseen with hknown | hwork
    · exact .inl hknown
    · rcases List.mem_cons.mp hwork with heq | hwork
      · cases heq
        exact .inl hat
      · exact .inr hwork
  · have hlt : addr < depths.size := hsize ▸ (Array.getElem?_eq_some_iff.mp ho).1
    rcases hseen with hknown | hwork
    · exact .inl ((at_setIfInBounds hlt hk).mpr (.inr hknown))
    · rcases List.mem_cons.mp hwork with heq | hwork
      · cases heq
        exact .inl ((at_setIfInBounds hlt hk).mpr (.inl ⟨rfl, rfl⟩))
      · exact .inr (List.mem_append_right _ hwork)

/-- What an operation leads to is on the list when its depth gets known. -/
theorem Closed.visit (hclosed : Closed ops ((addr, depth) :: work) depths)
    (h : visit ops depths addr depth = .ok (depths', reached)) (hsize : depths.size = ops.size) :
    Closed ops (reached ++ work) depths' := by
  have hkeep : ∀ a d, At depths a d → ∃ op, Passes ops (reached ++ work) depths' a d op :=
    fun a d hat => hclosed.mono (fun _ _ hseen => seen_visit h hsize hseen) hat
  obtain ⟨op, ho, ⟨-, rfl, -⟩ | ⟨hk, hbound, henough, rfl, rfl⟩⟩ := visit_eq_ok h
  · exact hkeep
  · have hlt : addr < depths.size := hsize ▸ (Array.getElem?_eq_some_iff.mp ho).1
    intro a d hat
    rcases (at_setIfInBounds hlt hk).mp hat with ⟨rfl, rfl⟩ | hat
    · refine ⟨op, ho, hbound, henough, fun next hnext => .inr (List.mem_append_left _ ?_)⟩
      exact List.mem_map_of_mem (List.mem_reverse.mpr hnext)
    · exact hkeep a d hat

theorem size_visit (h : visit ops depths addr depth = .ok (depths', reached)) :
    depths'.size = depths.size := by
  obtain ⟨op, -, ⟨-, rfl, -⟩ | ⟨-, -, -, rfl, -⟩⟩ := visit_eq_ok h
  · rfl
  · exact Array.size_setIfInBounds

/-- A visit is paid for. -/
theorem visit_pays (h : visit ops depths addr depth = .ok (depths', reached))
    (hsize : depths.size = ops.size) :
    reached.length + 2 * depths'.count none ≤ 2 * depths.count none := by
  obtain ⟨op, ho, ⟨-, rfl, rfl⟩ | ⟨hk, -, -, rfl, rfl⟩⟩ := visit_eq_ok h
  · simp
  · have hlt : addr < depths.size := hsize ▸ (Array.getElem?_eq_some_iff.mp ho).1
    have hcount := count_setIfInBounds depth hlt hk
    have hlength := op.length_successors_le addr
    rw [List.length_map, List.length_reverse]
    omega

end

section
variable {arrange : Nat → Work → Work} {ops : Array Op} {visits : Nat} {work : Work}
  {depths final : Depths}

theorem seen_of_perm {work' : Work} (hperm : work'.Perm work) {a d : Nat} :
    Seen work' depths a d ↔ Seen work depths a d :=
  or_congr_right hperm.mem_iff

/-- An accepting search knows in the end what was seen, and what it knows is closed. -/
theorem followBy_spec (harrange : ∀ left work, (arrange left work).Perm work)
    (hok : followBy arrange ops visits work depths = .ok final) (hsize : depths.size = ops.size)
    (hclosed : Closed ops work depths)
    (hvisits : work.length + 2 * depths.count none ≤ visits) :
    Closed ops [] final ∧ final.size = ops.size ∧
      ∀ addr depth, Seen work depths addr depth → At final addr depth := by
  induction visits generalizing work depths with
  | zero =>
      cases hok
      obtain rfl : work = [] := List.eq_nil_of_length_eq_zero (by omega)
      exact ⟨hclosed, hsize, fun addr depth h => h.resolve_right List.not_mem_nil⟩
  | succ visits ih =>
      have hperm := harrange visits work
      have hlength := hperm.length_eq
      have hclosed' : Closed ops (arrange visits work) depths :=
        fun _ _ hat => hclosed.mono (fun _ _ => (seen_of_perm hperm).mpr) hat
      rw [followBy] at hok
      split at hok
      · next hnil =>
          cases hok
          rw [hnil] at hclosed' hperm
          refine ⟨hclosed', hsize, fun addr depth hseen => ?_⟩
          exact ((seen_of_perm hperm).mpr hseen).resolve_right List.not_mem_nil
      · next addr depth rest hcons =>
          rw [hcons] at hclosed' hperm hlength
          split at hok
          · cases hok
          · next depths' reached hvisit =>
              have hpays := visit_pays hvisit hsize
              obtain ⟨hc, hs, hr⟩ := ih hok ((size_visit hvisit).trans hsize)
                (hclosed'.visit hvisit hsize)
                (by rw [List.length_append]; rw [List.length_cons] at hlength; omega)
              exact ⟨hc, hs, fun a d hseen =>
                hr a d (seen_visit hvisit hsize ((seen_of_perm hperm).mpr hseen))⟩

end

theorem not_at_replicate {size addr depth : Nat} : ¬ At (Array.replicate size none) addr depth := by
  intro hat
  rw [At, Array.getElem?_replicate] at hat
  split at hat <;> cases hat

/-- Search a whole program, with what is left to visit arranged in some way before each visit. -/
def search (arrange : Nat → Work → Work) (ops : Array Op) : Except ProgramFault Depths :=
  followBy arrange ops (2 * ops.size + 1) [(0, 0)] (Array.replicate ops.size none)

/-- The first operation is entered with an empty stack, and all depths are closed under control. -/
theorem search_spec {arrange : Nat → Work → Work} {ops : Array Op} {depths : Depths}
    (harrange : ∀ left work, (arrange left work).Perm work) (h : search arrange ops = .ok depths) :
    At depths 0 0 ∧ Closed ops [] depths ∧ depths.size = ops.size := by
  obtain ⟨hclosed, hsize, hseen⟩ := followBy_spec harrange h Array.size_replicate
    (fun _ _ hat => absurd hat not_at_replicate) (by simp; omega)
  exact ⟨hseen 0 0 (.inr (List.mem_singleton_self _)), hclosed, hsize⟩

/-- A path of control from the first operation on: the operations that it passes and the address that it gets
to, which may be outside of the program. -/
inductive Path (ops : Array Op) : List Op → Nat → Prop
  | start : Path ops [] 0
  | step {passed : List Op} {addr next : Nat} {op : Op} : Path ops passed addr → ops[addr]? = some op →
      next ∈ op.successors addr → Path ops (passed ++ [op]) next

/-- The depth of the stack behind operations that began with an empty one. -/
def depthAfter (passed : List Op) : Nat :=
  passed.foldl (fun depth op => depth - op.pops + op.pushes) 0

theorem depthAfter_snoc (passed : List Op) (op : Op) :
    depthAfter (passed ++ [op]) = depthAfter passed - op.pops + op.pushes := by
  rw [depthAfter, List.foldl_append]
  rfl

/-- Some path gets to an address with a depth. -/
def Reached (ops : Array Op) (addr depth : Nat) : Prop :=
  ∃ passed, Path ops passed addr ∧ depthAfter passed = depth

/-- What the check demands of all paths. -/
structure Regular (ops : Array Op) : Prop where
  /-- No path leaves the program. -/
  inside : ∀ {passed : List Op} {addr : Nat}, Path ops passed addr → addr < ops.size
  /-- No path comes to a transfer whose label is not bound. -/
  bound : ∀ {passed : List Op} {addr : Nat} {op : Op}, Path ops passed addr → ops[addr]? = some op →
    op.target? ≠ some placeholder
  /-- No operation on a path takes more values than there are. -/
  enough : ∀ {passed : List Op} {addr : Nat} {op : Op}, Path ops passed addr → ops[addr]? = some op →
    op.pops ≤ depthAfter passed
  /-- Two paths to one address arrive with one depth. -/
  agree : ∀ {passed passed' : List Op} {addr : Nat}, Path ops passed addr → Path ops passed' addr →
    depthAfter passed = depthAfter passed'

section
variable {ops : Array Op} {depths : Depths}

/-- Depths that are closed under control contain all paths. -/
theorem Closed.path (hclosed : Closed ops [] depths) (hstart : At depths 0 0) {passed : List Op}
    {addr : Nat} (hpath : Path ops passed addr) : At depths addr (depthAfter passed) := by
  induction hpath with
  | start => exact hstart
  | step _ ho hnext ih =>
      obtain ⟨op', hpasses⟩ := hclosed _ _ ih
      obtain rfl := Option.some.inj (ho.symm.trans hpasses.get)
      rw [depthAfter_snoc]
      exact (hpasses.onward _ hnext).resolve_right List.not_mem_nil

theorem regular_of_closed (hclosed : Closed ops [] depths) (hstart : At depths 0 0) : Regular ops := by
  have hpasses : ∀ {passed addr}, Path ops passed addr →
      ∃ op, Passes ops [] depths addr (depthAfter passed) op :=
    fun hpath => hclosed _ _ (hclosed.path hstart hpath)
  refine ⟨?_, ?_, ?_, ?_⟩
  · intro passed addr hpath
    obtain ⟨op, hop⟩ := hpasses hpath
    exact (Array.getElem?_eq_some_iff.mp hop.get).1
  · intro passed addr op hpath ho
    obtain ⟨op', hop⟩ := hpasses hpath
    obtain rfl := Option.some.inj (ho.symm.trans hop.get)
    exact hop.bound
  · intro passed addr op hpath ho
    obtain ⟨op', hop⟩ := hpasses hpath
    obtain rfl := Option.some.inj (ho.symm.trans hop.get)
    exact hop.enough
  · intro passed passed' addr hpath hpath'
    exact at_unique (hclosed.path hstart hpath) (hclosed.path hstart hpath')

/-- All that a search has seen is on some path. -/
def Founded (ops : Array Op) (work : Work) (depths : Depths) : Prop :=
  ∀ addr depth, Seen work depths addr depth → Reached ops addr depth

variable {depths' : Depths} {addr depth : Nat} {work reached : Work}

theorem Founded.visit (hfounded : Founded ops ((addr, depth) :: work) depths)
    (h : visit ops depths addr depth = .ok (depths', reached)) (hsize : depths.size = ops.size) :
    Founded ops (reached ++ work) depths' := by
  have hold : ∀ a d, At depths a d ∨ (a, d) ∈ work → Reached ops a d :=
    fun a d hseen => hfounded a d (hseen.imp_right (List.mem_cons_of_mem _))
  obtain ⟨op, ho, ⟨-, rfl, rfl⟩ | ⟨hk, -, -, rfl, rfl⟩⟩ := visit_eq_ok h
  · exact hold
  · have hlt : addr < depths.size := hsize ▸ (Array.getElem?_eq_some_iff.mp ho).1
    obtain ⟨passed, hpath, hdepth⟩ := hfounded addr depth (.inr List.mem_cons_self)
    rintro a d (hknown | hwork)
    · rcases (at_setIfInBounds hlt hk).mp hknown with ⟨rfl, rfl⟩ | hknown
      · exact ⟨passed, hpath, hdepth⟩
      · exact hold a d (.inl hknown)
    · rcases List.mem_append.mp hwork with hnew | hwork
      · -- The path goes on to what the operation leads to.
        obtain ⟨next, hnext, heq⟩ := List.mem_map.mp hnew
        cases heq
        refine ⟨passed ++ [op], hpath.step ho (List.mem_reverse.mp hnext), ?_⟩
        rw [depthAfter_snoc, hdepth]
      · exact hold a d (.inr hwork)

/-- A visit that is refused is on a path with a fault. -/
theorem Regular.visit (h : Regular ops) (hfounded : Founded ops ((addr, depth) :: work) depths) :
    ∃ result, Flow.visit ops depths addr depth = .ok result := by
  obtain ⟨passed, hpath, rfl⟩ := hfounded addr depth (.inr List.mem_cons_self)
  have ho := Array.getElem?_eq_getElem (h.inside hpath)
  simp only [Flow.visit, ho]
  split
  · next known hk =>
      obtain ⟨passed', hpath', rfl⟩ := hfounded addr known (.inl (at_of_getD hk))
      rw [if_pos (h.agree hpath' hpath)]
      exact ⟨_, rfl⟩
  · rw [if_neg (h.bound hpath ho), if_neg (Nat.not_lt_of_le (h.enough hpath ho))]
    exact ⟨_, rfl⟩

variable {arrange : Nat → Work → Work} {visits : Nat} {final : Depths}

theorem Founded.perm {work' : Work} (hfounded : Founded ops work depths) (hperm : work'.Perm work) :
    Founded ops work' depths :=
  fun addr depth hseen => hfounded addr depth ((seen_of_perm hperm).mp hseen)

/-- What a search knows in the end is on paths. -/
theorem Founded.followBy (harrange : ∀ left work, (arrange left work).Perm work)
    (hfounded : Founded ops work depths) (hsize : depths.size = ops.size)
    (hok : followBy arrange ops visits work depths = .ok final) {addr depth : Nat}
    (hat : At final addr depth) : Reached ops addr depth := by
  induction visits generalizing work depths with
  | zero =>
      cases hok
      exact hfounded addr depth (.inl hat)
  | succ visits ih =>
      have hfounded := hfounded.perm (harrange visits work)
      rw [Flow.followBy] at hok
      split at hok
      · cases hok
        exact hfounded addr depth (.inl hat)
      · next first depth' rest hcons =>
          rw [hcons] at hfounded
          split at hok
          · cases hok
          · next depths' reached hvisit =>
              exact ih (hfounded.visit hvisit hsize) ((size_visit hvisit).trans hsize) hok

theorem Regular.followBy (h : Regular ops) (harrange : ∀ left work, (arrange left work).Perm work)
    (hfounded : Founded ops work depths) (hsize : depths.size = ops.size) :
    ∃ final, Flow.followBy arrange ops visits work depths = .ok final := by
  induction visits generalizing work depths with
  | zero => exact ⟨depths, rfl⟩
  | succ visits ih =>
      have hfounded := hfounded.perm (harrange visits work)
      rw [Flow.followBy]
      split
      · exact ⟨depths, rfl⟩
      · next first depth' rest hcons =>
          rw [hcons] at hfounded
          obtain ⟨⟨depths', reached⟩, hvisit⟩ := h.visit hfounded
          rw [hvisit]
          exact ih (hfounded.visit hvisit hsize) ((size_visit hvisit).trans hsize)

theorem founded_start (ops : Array Op) : Founded ops [(0, 0)] (Array.replicate ops.size none) := by
  rintro addr depth (hknown | hwork)
  · exact absurd hknown not_at_replicate
  · cases List.mem_singleton.mp hwork
    exact ⟨[], .start, rfl⟩

/-- A search accepts if and only if all paths are as the check demands. -/
theorem exists_search_iff (harrange : ∀ left work, (arrange left work).Perm work) :
    (∃ depths, search arrange ops = .ok depths) ↔ Regular ops := by
  constructor
  · rintro ⟨depths, h⟩
    obtain ⟨hstart, hclosed, -⟩ := search_spec harrange h
    exact regular_of_closed hclosed hstart
  · intro h
    exact h.followBy harrange (founded_start ops) Array.size_replicate

/-- An accepting search knows the depths of all paths and no others. -/
theorem at_search_iff (harrange : ∀ left work, (arrange left work).Perm work)
    (h : search arrange ops = .ok depths) {addr depth : Nat} :
    At depths addr depth ↔ Reached ops addr depth := by
  obtain ⟨hstart, hclosed, -⟩ := search_spec harrange h
  constructor
  · intro hat
    exact Founded.followBy harrange (founded_start ops) Array.size_replicate h hat
  · rintro ⟨passed, hpath, rfl⟩
    exact hclosed.path hstart hpath

theorem depths_ext (hsize : depths.size = depths'.size)
    (h : ∀ addr depth, At depths addr depth ↔ At depths' addr depth) : depths = depths' := by
  apply Array.ext hsize
  intro addr hlt hlt'
  have hget : ∀ depth, depths[addr] = some depth ↔ depths'[addr] = some depth := by
    intro depth
    simpa [At, hlt, hlt'] using h addr depth
  exact Option.ext hget

/-- Two searches that go different ways accept together and with the same depths. -/
theorem search_eq_ok {arrange' : Nat → Work → Work}
    (harrange : ∀ left work, (arrange left work).Perm work)
    (harrange' : ∀ left work, (arrange' left work).Perm work)
    (h : search arrange ops = .ok depths) : search arrange' ops = .ok depths := by
  obtain ⟨depths', h'⟩ := (exists_search_iff harrange').mpr ((exists_search_iff harrange).mp ⟨depths, h⟩)
  have hsize := (search_spec harrange h).2.2
  have hsize' := (search_spec harrange' h').2.2
  rw [h', depths_ext (hsize'.trans hsize.symm)]
  intro addr depth
  rw [at_search_iff harrange h, at_search_iff harrange' h']

end

end Flow

namespace Program

/-- The check of a program without operations finds no first one to visit. -/
theorem depths_eq_ok_iff {program : Program} {depths : Flow.Depths} :
    program.depths = .ok depths ↔ Flow.search (fun _ work => work) program.ops = .ok depths := by
  rw [Program.depths]
  split
  · next hempty =>
      have hempty : program.ops = #[] := Array.isEmpty_iff.mp hempty
      rw [hempty]
      constructor <;> intro h <;> cases h
  · rw [Flow.follow_eq]
    rfl

/-- What the check finds: the first operation is entered with an empty stack, and all depths are closed
under control. -/
theorem depths_spec {program : Program} {depths : Flow.Depths} (h : program.depths = .ok depths) :
    Flow.At depths 0 0 ∧ Flow.Closed program.ops [] depths ∧ depths.size = program.ops.size :=
  Flow.search_spec (fun _ _ => .refl _) (depths_eq_ok_iff.mp h)

theorem exists_depths_iff {program : Program} :
    (∃ depths, program.depths = .ok depths) ↔ Flow.Regular program.ops := by
  simp only [depths_eq_ok_iff]
  exact Flow.exists_search_iff fun _ _ => .refl _

/-- The check accepts a program if and only if all paths of control, however long, are as it demands. It then
knows the depth at each operation that some path gets to, and none at the others. Any other order of the visits
leads to the same depths. -/
theorem depths_exact (program : Program) :
    ((∃ depths, program.depths = .ok depths) ↔ Flow.Regular program.ops) ∧
    (∀ depths, program.depths = .ok depths → depths.size = program.ops.size ∧ ∀ addr depth,
      depths[addr]? = some (some depth) ↔
        ∃ passed, Flow.Path program.ops passed addr ∧ Flow.depthAfter passed = depth) ∧
    ∀ arrange : Nat → Flow.Work → Flow.Work, (∀ left work, (arrange left work).Perm work) →
      ∀ depths, Flow.search arrange program.ops = .ok depths ↔ program.depths = .ok depths := by
  refine ⟨exists_depths_iff, fun depths h => ⟨(depths_spec h).2.2, fun addr depth => ?_⟩, ?_⟩
  · exact Flow.at_search_iff (fun _ _ => .refl _) (depths_eq_ok_iff.mp h)
  · intro arrange harrange depths
    rw [depths_eq_ok_iff]
    constructor
    · exact Flow.search_eq_ok harrange fun _ _ => .refl _
    · exact Flow.search_eq_ok (fun _ _ => .refl _) harrange

/-- A program with a loop and an operation behind a jump. No path gets to that operation, which would find no
values to add, and a search that takes the oldest address first finds the same depths. -/
theorem depths_exact_loop :
    let program : Program :=
      { ops := #[.push 1, .jumpIf 0, .jump 4, .binary (.arith .add), .push 0, .exit] }
    program.depths = .ok #[some 0, some 1, some 0, none, some 0, some 1] ∧
      Flow.Regular program.ops ∧ (∀ passed, ¬ Flow.Path program.ops passed 3) ∧
      Flow.search (fun _ work => work.reverse) program.ops =
        .ok #[some 0, some 1, some 0, none, some 0, some 1] := by
  intro program
  have h : program.depths = .ok #[some 0, some 1, some 0, none, some 0, some 1] := by decide +kernel
  obtain ⟨haccepts, hexact, horder⟩ := depths_exact program
  refine ⟨h, haccepts.mp ⟨_, h⟩, fun passed hpath => ?_, ?_⟩
  · have hat := ((hexact _ h).2 3 _).mpr ⟨passed, hpath, rfl⟩
    cases hat
  · exact (horder _ (fun _ work => List.reverse_perm work) _).mpr h

end Program

end GotoLang
