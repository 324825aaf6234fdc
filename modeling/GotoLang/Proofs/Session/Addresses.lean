import GotoLang.Config
import GotoLang.Proofs.Session.Failure
import Mathlib.Data.List.Nodup

/-!
# Addresses of emitted operations

The address of an operation is its index as a 32-bit number. Without a capacity the buffer is full before an
index gets as large as the placeholder, so every address is an index. A capacity that was asked for is taken
as it is, however large. With more room than there are addresses below the placeholder, the operation at index
`2 ^ 32 - 1` gets the placeholder as its address, and those behind it get addresses that were given before.
-/
namespace GotoLang

namespace Session

/-- Append operations with their source lines; the addresses they get. -/
def emitAll : List (Op × Nat) → Emit (List Addr)
  | [] => pure []
  | entry :: rest => do
    let addr ← emit entry.1 entry.2
    let addrs ← emitAll rest
    return addr :: addrs

/-- Every operation got its index as its address and is found there; no address was given twice, and none is
the placeholder. -/
structure Faithful (entries : List (Op × Nat)) (addrs : List Addr) (session : Session) : Prop where
  stored : session.buffer.ops.toList = entries.map Prod.fst
  length : addrs.length = entries.length
  index : ∀ (i : Nat) (addr : Addr), addrs[i]? = some addr → addr.toNat = i
  found : ∀ (i : Nat) (addr : Addr) (entry : Op × Nat), addrs[i]? = some addr → entries[i]? = some entry →
    session.buffer.get? addr = some entry.1
  distinct : addrs.Nodup
  proper : placeholder ∉ addrs

/-- The addresses of so many operations from an index on. -/
def addresses (first count : Nat) : List Addr :=
  (List.range' first count).map Nat.toUInt32

theorem addresses_succ (first count : Nat) :
    addresses first (count + 1) = first.toUInt32 :: addresses (first + 1) count := by
  rw [addresses, List.range'_succ, List.map_cons]
  rfl

theorem getLast?_addresses (first count : Nat) :
    (addresses first (count + 1)).getLast? = some (first + count).toUInt32 := by
  rw [addresses, List.range'_1_concat, List.map_append, List.map_singleton, List.getLast?_concat]

section
variable {entries : List (Op × Nat)} {session last : Session} {addrs : List Addr}

/-- The operations are stored one behind the other, and there was room for all of them. -/
theorem emitAll_eq_ok (h : emitAll entries session = .ok addrs last)
    (hroom : session.buffer.ops.size ≤ session.buffer.limit) :
    addrs = addresses session.buffer.ops.size entries.length ∧
    last.buffer.ops.toList = session.buffer.ops.toList ++ entries.map Prod.fst ∧
    session.buffer.ops.size + entries.length ≤ session.buffer.limit := by
  induction entries generalizing session addrs with
  | nil =>
      cases h
      exact ⟨rfl, (List.append_nil _).symm, hroom⟩
  | cons entry rest ih =>
      obtain ⟨addr, next, hemit, h⟩ := bind_eq_ok.mp h
      obtain ⟨more, last', hrest, h⟩ := bind_eq_ok.mp h
      cases h
      obtain ⟨hfull, rfl, rfl⟩ := emit_eq_ok hemit
      have hlt := EmissionBuffer.isFull_eq_false.mp hfull
      have hsize : (session.emitted entry.1 entry.2).buffer.ops.size = session.buffer.ops.size + 1 :=
        Array.size_push _
      have hlimit : (session.emitted entry.1 entry.2).buffer.limit = session.buffer.limit := rfl
      obtain ⟨rfl, hops, hlength⟩ := ih hrest (by omega)
      refine ⟨?_, ?_, ?_⟩
      · rw [hsize, List.length_cons, addresses_succ]
        rfl
      · rw [hops, emitted, EmissionBuffer.push, Array.toList_push, List.append_assoc]
        rfl
      · rw [List.length_cons]
        omega

theorem exists_emitAll (h : session.buffer.ops.size + entries.length ≤ session.buffer.limit) :
    ∃ addrs last, emitAll entries session = .ok addrs last := by
  induction entries generalizing session with
  | nil => exact ⟨[], session, rfl⟩
  | cons entry rest ih =>
      rw [List.length_cons] at h
      have hfull : session.buffer.isFull = false := EmissionBuffer.isFull_eq_false.mpr (by omega)
      have hroom : (session.emitted entry.1 entry.2).buffer.ops.size + rest.length ≤
          (session.emitted entry.1 entry.2).buffer.limit := by
        show (session.buffer.ops.push entry.1).size + rest.length ≤ session.buffer.limit
        rw [Array.size_push]
        omega
      obtain ⟨more, last, hrest⟩ := ih hroom
      exact ⟨_, last, bind_eq_ok.mpr ⟨_, _, emit_of_room hfull,
        bind_eq_ok.mpr ⟨more, last, hrest, rfl⟩⟩⟩

end

/-- Below the placeholder no index is cut. -/
theorem toNat_addresses {count : Nat} (hcount : count ≤ placeholder.toNat) :
    (addresses 0 count).map UInt32.toNat = List.range count := by
  have hsame : ∀ i ∈ List.range count, (UInt32.toNat ∘ Nat.toUInt32) i = i := by
    intro i hi
    have hlt : i < 4294967295 := Nat.lt_of_lt_of_le (List.mem_range.mp hi) hcount
    exact Nat.mod_eq_of_lt (by omega)
  rw [addresses, List.map_map, ← List.range_eq_range', List.map_congr_left hsame, List.map_id']

theorem placeholder_mem_addresses {count : Nat} (hcount : placeholder.toNat < count) :
    placeholder ∈ addresses 0 count :=
  List.mem_map.mpr ⟨placeholder.toNat, List.mem_range'.mpr ⟨placeholder.toNat, hcount, by simp⟩, by decide⟩

/-- With addresses from zero on, all is well exactly as long as the placeholder is not reached. -/
theorem faithful_iff {entries : List (Op × Nat)} {session : Session}
    (hstored : session.buffer.ops.toList = entries.map Prod.fst) :
    Faithful entries (addresses 0 entries.length) session ↔ entries.length ≤ placeholder.toNat := by
  constructor
  · intro h
    by_contra hlong
    exact h.proper (placeholder_mem_addresses (Nat.not_le.mp hlong))
  · intro hlength
    have hrange := toNat_addresses hlength
    have hindex : ∀ (i : Nat) (addr : Addr), (addresses 0 entries.length)[i]? = some addr → addr.toNat = i := by
      intro i addr hi
      have hget : (List.range entries.length)[i]? = some addr.toNat := by
        rw [← hrange, List.getElem?_map, hi]
        rfl
      obtain ⟨hi, heq⟩ := List.getElem?_eq_some_iff.mp hget
      rw [← heq, List.getElem_range]
    refine ⟨hstored, ?_, hindex, ?_, ?_, ?_⟩
    · rw [addresses, List.length_map, List.length_range']
    · intro i addr entry hi hentry
      rw [EmissionBuffer.get?, hindex i addr hi, ← Array.getElem?_toList, hstored, List.getElem?_map, hentry]
      rfl
    · exact List.Nodup.of_map UInt32.toNat (hrange ▸ List.nodup_range)
    · intro hmem
      have hmem : placeholder.toNat ∈ (addresses 0 entries.length).map UInt32.toNat := List.mem_map_of_mem hmem
      rw [hrange, List.mem_range] at hmem
      exact absurd hmem (Nat.not_lt.mpr hlength)

/-- A new session accepts operations up to its capacity and gives them addresses from zero on. -/
theorem emitAll_start (maxOps : Option Nat) (maxForwardRefs : Nat) (entries : List (Op × Nat)) :
    (∀ addrs last, emitAll entries (.start maxOps maxForwardRefs) = .ok addrs last →
      addrs = addresses 0 entries.length ∧ last.buffer.ops.toList = entries.map Prod.fst ∧
        entries.length ≤ maxOps.getD placeholder.toNat) ∧
    (entries.length ≤ maxOps.getD placeholder.toNat →
      ∃ addrs last, emitAll entries (.start maxOps maxForwardRefs) = .ok addrs last) := by
  have hstart : ∀ n, (start maxOps maxForwardRefs).buffer.ops.size + n ≤
      (start maxOps maxForwardRefs).buffer.limit ↔ n ≤ maxOps.getD placeholder.toNat := by
    intro n
    show 0 + n ≤ _ ↔ _
    rw [Nat.zero_add]
    rfl
  constructor
  · intro addrs last h
    obtain ⟨haddrs, hops, hlength⟩ := emitAll_eq_ok h (Nat.zero_le _)
    exact ⟨haddrs, hops, (hstart _).mp hlength⟩
  · intro h
    exact exists_emitAll ((hstart _).mpr h)

/-- The addresses of operations that were emitted are faithful if and only if there are not more of them than
addresses below the placeholder. So they always are if and only if no larger capacity is asked for. -/
theorem addresses_faithful_iff (config : Config) :
    (∀ entries addrs last,
      emitAll entries (.start config.maxOps config.maxForwardRefs) = .ok addrs last →
        (Faithful entries addrs last ↔ entries.length ≤ placeholder.toNat)) ∧
    ((∀ entries addrs last,
      emitAll entries (.start config.maxOps config.maxForwardRefs) = .ok addrs last →
        Faithful entries addrs last) ↔
      ∀ capacity, config.maxOps = some capacity → capacity ≤ placeholder.toNat) := by
  have hstart := emitAll_start config.maxOps config.maxForwardRefs
  have hfaithful : ∀ entries addrs last,
      emitAll entries (.start config.maxOps config.maxForwardRefs) = .ok addrs last →
        (Faithful entries addrs last ↔ entries.length ≤ placeholder.toNat) := by
    intro entries addrs last h
    obtain ⟨rfl, hops, -⟩ := (hstart entries).1 addrs last h
    exact faithful_iff hops
  refine ⟨hfaithful, ?_, ?_⟩
  · intro h capacity hcapacity
    -- The buffer is filled up.
    have hroom : (List.replicate capacity (Op.nop, 1)).length ≤ config.maxOps.getD placeholder.toNat := by
      rw [List.length_replicate, hcapacity, Option.getD_some]
    obtain ⟨addrs, last, hall⟩ := (hstart _).2 hroom
    have hlength := (hfaithful _ addrs last hall).mp (h _ addrs last hall)
    rwa [List.length_replicate] at hlength
  · intro h entries addrs last hall
    obtain ⟨-, -, hlength⟩ := (hstart entries).1 addrs last hall
    refine (hfaithful entries addrs last hall).mpr (hlength.trans ?_)
    cases hmax : config.maxOps with
    | none => exact Nat.le_refl _
    | some capacity => exact h capacity hmax

/-- Three operations in a session without a capacity, the last of them a transfer. -/
theorem addresses_faithful_iff_three : ∃ last,
    emitAll [(.push 1, 1), (.print .int, 1), (.jump 0, 2)] (.start none 4096) = .ok [0, 1, 2] last ∧
    Faithful [(.push 1, 1), (.print .int, 1), (.jump 0, 2)] [0, 1, 2] last :=
  ⟨_, rfl, ((addresses_faithful_iff { input := "three.gt" }).1 _ _ _ rfl).mpr (by decide)⟩

/-- With a capacity of `2 ^ 32 + 1`, which is accepted, the placeholder is given as an address, and the last
operation gets the address of the first one. -/
theorem large_capacity_repeats_addresses :
    let config : Config := { input := "large.gt", maxOps := some 4294967297 }
    let entries : List (Op × Nat) := List.replicate 4294967296 (.nop, 1) ++ [(.exit, 1)]
    config.validate = .ok () ∧ ∃ addrs last,
      emitAll entries (.start config.maxOps config.maxForwardRefs) = .ok addrs last ∧
      placeholder ∈ addrs ∧ addrs.head? = some 0 ∧ addrs.getLast? = some 0 ∧
      last.buffer.get? 0 = some .nop := by
  intro config entries
  have hlength : entries.length = 4294967296 + 1 := by
    rw [List.length_append, List.length_replicate, List.length_singleton]
  have hfirst : entries[0]? = some (.nop, 1) := by
    rw [List.getElem?_append_left (by rw [List.length_replicate]; decide), List.getElem?_replicate]
    exact if_pos (by decide)
  have hvalid : config.validate = .ok () := rfl
  -- From here on the list is not to be looked at.
  clear_value entries
  obtain ⟨hall, hexists⟩ := emitAll_start config.maxOps config.maxForwardRefs entries
  obtain ⟨addrs, last, h⟩ := hexists hlength.le
  obtain ⟨haddrs, hops, -⟩ := hall addrs last h
  refine ⟨hvalid, addrs, last, h, ?_, ?_, ?_, ?_⟩
  · rw [haddrs]
    exact placeholder_mem_addresses (hlength ▸ by decide)
  · rw [haddrs, hlength, addresses_succ]
    rfl
  · rw [haddrs, hlength, getLast?_addresses]
    decide
  · show last.buffer.ops[0]? = _
    rw [← Array.getElem?_toList, hops, List.getElem?_map, hfirst]
    rfl

end Session

end GotoLang
