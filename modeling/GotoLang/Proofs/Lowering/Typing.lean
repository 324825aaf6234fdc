import GotoLang.Proofs.Kinds
import GotoLang.Proofs.Lowering.Resolve

/-!
# Lowered programs are typed

The type rules of the source carry over to the stack: wherever control gets in a lowered program, the
types of the values on the stack are known, and a truth value is zero or one. The code of a statement
is a block that starts and ends with an empty stack, and transfers go from the end of a block to the
start of one.
-/
namespace GotoLang
open Source

namespace Ty

/-- The types as kinds, for a program with these variables. -/
def kinds (slots : Array Variable) : Kinds Ty where
  has := Has
  slot slot := slots[slot.toNat]?.map Variable.ty
  ty ty k := k = ty
  unary op a b := a = op.ty ∧ b = op.ty
  binary op a b c := accepts a b op = true ∧ c = op.resultTy
  unary_eval := by
    intro op a b x h _
    obtain ⟨-, rfl⟩ := h
    cases op with
    | neg => trivial
    | not => exact has_toInt64 _
  binary_eval := by
    intro op a b c x y z h _ _ hz
    obtain ⟨-, rfl⟩ := h
    cases op with
    | arith op => trivial
    | cmp cond =>
        cases hz
        exact has_toInt64 _
    | logic op =>
        cases hz
        exact has_toInt64 _

/-- Zero is of every type. -/
theorem fill_zero (slots : Array Variable) :
    (kinds slots).Fill (Array.replicate slots.size 0) := by
  intro slot ty hty
  obtain ⟨declared, hdeclared, -⟩ := Option.map_eq_some_iff.mp hty
  have hlt := (Array.getElem?_eq_some_iff.mp hdeclared).1
  refine ⟨0, by rw [Array.getElem?_replicate, if_pos hlt], ?_⟩
  cases ty with
  | int => trivial
  | bool => exact .inl rfl

end Ty

variable {κ : Type} {kinds : Kinds κ}

/-- The kinds before and after operations that are carried out one behind the other. -/
inductive Op.Chain (kinds : Kinds κ) : List Op → List κ → List κ → Prop
  | nil {st : List κ} : Chain kinds [] st st
  | cons {op : Op} {ops : List Op} {st mid st' : List κ} : op.Typed kinds st mid →
      Chain kinds ops mid st' → Chain kinds (op :: ops) st st'

theorem Op.Chain.append {first second : List Op} {st mid st' : List κ}
    (h : Chain kinds first st mid) (k : Chain kinds second mid st') :
    Chain kinds (first ++ second) st st' := by
  induction h with
  | nil => exact k
  | cons ht _ ih => exact .cons ht (ih k)

theorem Op.Chain.snoc {ops : List Op} {op : Op} {st mid st' : List κ} (h : Chain kinds ops st mid)
    (ht : op.Typed kinds mid st') : Chain kinds (ops ++ [op]) st st' :=
  h.append (.cons ht .nil)

/-- Operations that leave stacks of the same height found stacks of the same height. -/
theorem Op.Chain.height {ops : List Op} {st st' final final' : List κ} (h : Chain kinds ops st final)
    (k : Chain kinds ops st' final') (heq : final.length = final'.length) :
    st.length = st'.length := by
  induction h generalizing st' with
  | nil =>
      cases k
      exact heq
  | cons ht _ ih =>
      cases k with
      | cons ht' hrest =>
          have hmid := ih hrest heq
          obtain ⟨henough, hleaves⟩ := ht.height
          obtain ⟨henough', hleaves'⟩ := ht'.height
          omega

theorem Op.following_of_append {more behind behind' : List (List Op)}
    {pre pre' post post' : List Op} {op op' : Op}
    (h : (pre ++ op :: post) :: behind = more ++ (pre' ++ op' :: post') :: behind')
    (haddr : pre.length = more.flatten.length + pre'.length) : op :: post = op' :: post' := by
  cases more with
  | nil =>
      have hblock := (List.cons.inj h).1
      rw [List.flatten_nil, List.length_nil, Nat.zero_add] at haddr
      exact (List.append_inj hblock haddr).2
  | cons block more =>
      obtain ⟨rfl, -⟩ := List.cons.inj h
      simp only [List.flatten_cons, List.length_append, List.length_cons] at haddr
      omega

/-- An operation is in one block only, so what follows it there is known by its address. -/
theorem Op.following_unique {before before' behind behind' : List (List Op)}
    {pre pre' post post' : List Op} {op op' : Op}
    (h : before ++ (pre ++ op :: post) :: behind = before' ++ (pre' ++ op' :: post') :: behind')
    (haddr : before.flatten.length + pre.length = before'.flatten.length + pre'.length) :
    op :: post = op' :: post' := by
  rcases List.append_eq_append_iff.mp h with ⟨more, rfl, hrest⟩ | ⟨more, rfl, hrest⟩
  · rw [List.flatten_append, List.length_append] at haddr
    exact following_of_append hrest (by omega)
  · rw [List.flatten_append, List.length_append] at haddr
    exact (following_of_append hrest (by omega)).symm

/-- Transfers at the ends of blocks that each start and end with an empty stack. -/
structure Op.Blocks (kinds : Kinds κ) (blocks : List (List Op)) : Prop where
  chain : ∀ block ∈ blocks, Chain kinds block [] []
  transfer : ∀ block ∈ blocks, ∀ pre op post target, block = pre ++ op :: post →
    op.target? = some target → post = [] ∧ ∃ before behind, blocks = before ++ behind ∧
      behind.flatten ≠ [] ∧ target.toNat = before.flatten.length
  ends : ∃ front, blocks.flatten = front ++ [.exit]

namespace Op.Blocks

/-- The types where control may be in the midst of a block. -/
def typing (kinds : Kinds κ) (blocks : List (List Op)) : Typing κ := fun addr st =>
  ∃ before pre op post behind, blocks = before ++ (pre ++ op :: post) :: behind ∧
    addr = before.flatten.length + pre.length ∧ Chain kinds (op :: post) st []

variable {blocks : List (List Op)}

theorem typing_start (h : Blocks kinds blocks) (before behind : List (List Op))
    (heq : blocks = before ++ behind) (hne : behind.flatten ≠ []) :
    typing kinds blocks before.flatten.length [] := by
  induction behind generalizing before with
  | nil => exact absurd rfl hne
  | cons block behind ih =>
      cases block with
      | nil =>
          have hrest := ih (before ++ [[]]) (by simp [heq]) hne
          simpa using hrest
      | cons op post =>
          refine ⟨before, [], op, post, behind, heq, rfl, ?_⟩
          exact h.chain _ (heq ▸ List.mem_append_right _ List.mem_cons_self)

theorem wellTyped (h : Blocks kinds blocks) {ops : Array Op} (hops : ops.toList = blocks.flatten) :
    WellTyped kinds ops := by
  obtain ⟨front, hfront⟩ := h.ends
  refine ⟨typing kinds blocks, ?_, ?_, ?_⟩
  · exact h.typing_start [] blocks rfl (by simp [hfront])
  · intro addr st hat
    obtain ⟨before, pre, op, post, behind, heq, rfl, hchain⟩ := hat
    have hmem : pre ++ op :: post ∈ blocks := heq ▸ List.mem_append_right _ List.mem_cons_self
    have hflat : ops.toList = (before.flatten ++ pre) ++ op :: (post ++ behind.flatten) := by
      simp [hops, heq]
    have ho : ops[before.flatten.length + pre.length]? = some op := by
      rw [← Array.getElem?_toList, hflat, ← List.length_append, List.getElem?_append_right le_rfl,
        Nat.sub_self]
      rfl
    cases hchain with
    | @cons _ _ _ mid _ ht hpost =>
        refine ⟨op, mid, ho, ht, fun next hnext => ?_⟩
        rcases Op.mem_successors.mp hnext with ⟨target, hopt, rfl⟩ | ⟨hterm, rfl⟩
        · obtain ⟨rfl, before', behind', heq', hne, hlen⟩ :=
            h.transfer _ hmem pre op post target rfl hopt
          cases hpost
          rw [hlen]
          exact h.typing_start before' behind' heq' hne
        · cases hpost with
          | nil =>
              have hnext := h.typing_start (before ++ [pre ++ [op]]) behind
                (by simp [heq]) fun hnil => by
                  -- Behind the last operation of all there would be nothing left.
                  have hlast : (before.flatten ++ pre) ++ [op] = front ++ [.exit] := by
                    rw [← hfront, ← hops, hflat, hnil]
                    rfl
                  obtain ⟨-, hexit⟩ := List.append_inj' hlast rfl
                  cases hexit
                  cases hterm
              simpa [Nat.add_assoc] using hnext
          | @cons op' post' _ mid' _ ht' hpost' =>
              refine ⟨before, pre ++ [op], op', post', behind, by simp [heq], ?_, .cons ht' hpost'⟩
              rw [List.length_append, List.length_singleton, Nat.add_assoc]
  · rintro addr st st' ⟨before, pre, op, post, behind, heq, haddr, hchain⟩
      ⟨before', pre', op', post', behind', heq', haddr', hchain'⟩
    rw [following_unique (heq.symm.trans heq') (haddr.symm.trans haddr')] at hchain
    exact hchain.height hchain' rfl

end Op.Blocks

section
variable {layout : Layout} {slots : Array Variable}

/-- The slots of the variables in scope hold values of their types. -/
def Layout.Suits (layout : Layout) (slots : Array Variable) : Prop :=
  ∀ name ty, layout.scope name = some ty → slots[(layout.slot name).toNat]? = some ⟨name, ty⟩

theorem Layout.Suits.slot (h : layout.Suits slots) {name : String} {ty : Ty}
    (hty : layout.scope name = some ty) : (Ty.kinds slots).slot (layout.slot name) = some ty := by
  simp only [Ty.kinds, h name ty hty, Option.map_some]

theorem Expr.chain_code (h : layout.Suits slots) {e : Expr} {ty : Ty}
    (hty : e.ty? layout.scope = some ty) (st : List Ty) :
    Op.Chain (Ty.kinds slots) (e.code layout) st (ty :: st) := by
  induction e generalizing ty st with
  | int value span =>
      cases hty
      exact .cons (.push (k := Ty.int) trivial) .nil
  | bool value span =>
      cases hty
      exact .cons (.push (k := Ty.bool) (Ty.has_toInt64 value)) .nil
  | var name span => exact .cons (.load (h.slot hty)) .nil
  | unary op operand span ih =>
      rw [ty?] at hty
      split at hty
      · next hoperand =>
          cases hty
          exact (ih hoperand st).snoc (.unary ⟨rfl, rfl⟩)
      · cases hty
  | binary op lhs rhs span ihl ihr =>
      rw [ty?] at hty
      obtain ⟨a, ha, hty⟩ := Option.bind_eq_some_iff.mp hty
      obtain ⟨b, hb, hty⟩ := Option.bind_eq_some_iff.mp hty
      split at hty
      · next hop =>
          cases hty
          exact ((ihl ha st).append (ihr hb (a :: st))).snoc (.binary ⟨hop, rfl⟩)
      · cases hty

theorem Stmt.chain_code (h : layout.Suits slots) {stmt : Stmt} (hty : Typed layout.scope stmt) :
    Op.Chain (Ty.kinds slots) (stmt.code layout) [] [] := by
  cases stmt with
  | label name span => exact .nil
  | declare name value span =>
      obtain ⟨ty, hvalue, hname⟩ := hty
      exact (value.chain_code h hvalue []).snoc (.store (h.slot hname))
  | assign name value span =>
      obtain ⟨ty, hvalue, hname⟩ := hty
      exact (value.chain_code h hvalue []).snoc (.store (h.slot hname))
  | print value span =>
      obtain ⟨ty, hvalue⟩ := hty
      refine (value.chain_code h hvalue []).snoc (.print ?_)
      rw [hvalue]
      rfl
  | goto name span => exact .cons .jump .nil
  | ifGoto cond name span => exact (cond.chain_code h hty []).snoc (.jumpIf rfl)
  | exit value span => exact (value.chain_code h hty []).snoc (.exit rfl)

/-- The code of an expression has no transfers. -/
theorem Expr.target?_code {e : Expr} {op : Op} (h : op ∈ e.code layout) : op.target? = none := by
  induction e with
  | int value span =>
      rw [List.mem_singleton.mp h]
      rfl
  | bool value span =>
      rw [List.mem_singleton.mp h]
      rfl
  | var name span =>
      rw [List.mem_singleton.mp h]
      rfl
  | unary op operand span ih =>
      rcases List.mem_append.mp h with h | h
      · exact ih h
      · rw [List.mem_singleton.mp h]
        rfl
  | binary op lhs rhs span ihl ihr =>
      rcases List.mem_append.mp h with h | h
      · rcases List.mem_append.mp h with h | h
        · exact ihl h
        · exact ihr h
      · rw [List.mem_singleton.mp h]
        rfl

/-- Behind operations without transfers, only the last one may be one. -/
theorem Op.transfer_last {b pre post : List Op} {op last : Op} {target : Addr}
    (hbody : ∀ op ∈ b, op.target? = none) (h : b ++ [last] = pre ++ op :: post)
    (hop : op.target? = some target) : post = [] ∧ last = op := by
  rcases List.eq_nil_or_concat post with rfl | ⟨post', last', rfl⟩
  · obtain ⟨-, hlast⟩ := List.append_inj' h rfl
    cases hlast
    exact ⟨rfl, rfl⟩
  · have h' : b ++ [last] = (pre ++ op :: post') ++ [last'] := by simpa using h
    obtain ⟨rfl, -⟩ := List.append_inj' h' rfl
    rw [hbody op (List.mem_append_right _ List.mem_cons_self)] at hop
    cases hop

/-- A transfer is the last operation of its statement and goes to the label that this names. -/
theorem Stmt.transfer_code {stmt : Stmt} {pre post : List Op} {op : Op} {target : Addr}
    (h : stmt.code layout = pre ++ op :: post) (hop : op.target? = some target) :
    post = [] ∧ ∃ name, destination? stmt = some name ∧ target = layout.addr name := by
  cases stmt with
  | label name span => simp [code] at h
  | declare name value span =>
      obtain ⟨-, rfl⟩ := Op.transfer_last (fun _ => Expr.target?_code) h hop
      cases hop
  | assign name value span =>
      obtain ⟨-, rfl⟩ := Op.transfer_last (fun _ => Expr.target?_code) h hop
      cases hop
  | print value span =>
      obtain ⟨-, rfl⟩ := Op.transfer_last (fun _ => Expr.target?_code) h hop
      cases hop
  | goto name span =>
      obtain ⟨rfl, rfl⟩ := Op.transfer_last (b := []) (fun _ hmem => absurd hmem List.not_mem_nil) h hop
      cases hop
      exact ⟨rfl, name, rfl, rfl⟩
  | ifGoto cond name span =>
      obtain ⟨rfl, rfl⟩ := Op.transfer_last (fun _ => Expr.target?_code) h hop
      cases hop
      exact ⟨rfl, name, rfl, rfl⟩
  | exit value span =>
      obtain ⟨-, rfl⟩ := Op.transfer_last (fun _ => Expr.target?_code) h hop
      cases hop

end

namespace Lowering

/-- The code of the statements, one block each, and the epilogue. -/
def blocks (layout : Layout) (stmts : List Stmt) : List (List Op) :=
  stmts.map (Stmt.code layout) ++ [[.push 0, .exit]]

theorem flatten_blocks (layout : Layout) (stmts : List Stmt) :
    (blocks layout stmts).flatten = code layout stmts ++ [.push 0, .exit] := by
  rw [blocks, List.flatten_append, code, List.flatMap_def]
  rfl

theorem length_flatten_code (layout : Layout) (stmts : List Stmt) :
    (stmts.map (Stmt.code layout)).flatten.length = size stmts := by
  rw [← Source.length_code layout stmts, code, List.flatMap_def]

theorem Lowered.blocks {layout : Layout} {stmts : List Stmt} {program : Program}
    (h : Lowered layout stmts program) :
    Op.Blocks (Ty.kinds program.slots) (blocks layout stmts) := by
  refine ⟨?_, ?_, code layout stmts ++ [.push 0], ?_⟩
  · intro block hblock
    rcases List.mem_append.mp hblock with hblock | hblock
    · obtain ⟨stmt, hstmt, rfl⟩ := List.mem_map.mp hblock
      exact stmt.chain_code h.slot (h.typed stmt hstmt)
    · rw [List.mem_singleton.mp hblock]
      exact .cons (.push (k := Ty.int) trivial) (.cons (.exit (k := Ty.int) rfl) .nil)
  · intro block hblock pre op post target heq hop
    rcases List.mem_append.mp hblock with hblock | hblock
    · obtain ⟨stmt, hstmt, rfl⟩ := List.mem_map.mp hblock
      obtain ⟨hpost, name, hname, rfl⟩ := Stmt.transfer_code heq hop
      obtain ⟨before, behind, span, hsplit, -, haddr⟩ := h.label stmt hstmt name hname
      refine ⟨hpost, before.map (Stmt.code layout), Lowering.blocks layout (.label name span :: behind),
        ?_, ?_, ?_⟩
      · simp [Lowering.blocks, hsplit]
      · simp [flatten_blocks]
      · rw [haddr, length_flatten_code]
    · rw [List.mem_singleton.mp hblock] at heq
      obtain ⟨-, rfl⟩ := Op.transfer_last (b := [.push 0])
        (fun op hmem => by rw [List.mem_singleton.mp hmem]; rfl) heq hop
      cases hop
  · rw [flatten_blocks]
    simp

/-- The types of the source are those of the stack. -/
theorem Lowered.wellTyped {layout : Layout} {stmts : List Stmt} {program : Program}
    (h : Lowered layout stmts program) :
    Op.WellTyped (Ty.kinds program.slots) program.ops :=
  h.blocks.wellTyped (h.ops.trans (flatten_blocks layout stmts).symm)

end Lowering

end GotoLang
