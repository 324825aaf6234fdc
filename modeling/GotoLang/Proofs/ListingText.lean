import GotoLang.Program.Listing
import GotoLang.Proofs.Lexing.Scan
import GotoLang.Proofs.X64.AssemblyText

/-!
# A listing can be read in one way

Two programs with the same listing have the same operations and the same slots. With debug information they also
have the same source lines and, at each address of an operation, the same labels. The listing holds nothing else.

Fields of a listing have no fixed width: numbers grow past their leading zeros, and a long operation leaves no
blank before its comment. What keeps them apart are characters that a field cannot have, so every step below is
the same cancellation: texts of one class of characters, each followed by something of another, are equal if the
whole is.
-/
namespace GotoLang

/-- The names that the scanner reads as words. -/
def isIdentifier (name : String) : Bool :=
  match name.toList with
  | [] => false
  | c :: cs => Lexer.isWordStart c && cs.all Lexer.isWordPart

namespace Program

/-- Programs with one source line for each operation, whose names are words. -/
structure Legible (program : Program) : Prop where
  lines : program.lines.size = program.ops.size
  slots : ∀ info ∈ program.slots, isIdentifier info.name
  marks : ∀ mark ∈ program.marks, isIdentifier mark.name

/-- The labels at an address, in the order of their definition. -/
def labelsAt (program : Program) (addr : Nat) : List String :=
  (program.marks.toList.filter (·.addr.toNat = addr)).map Mark.name

end Program

namespace Listing

section
variable {α : Type} {p : α → Bool} {xs ys rest rest' : List α}

theorem takeWhile_append_of_stop (hxs : ∀ x ∈ xs, p x) (hrest : ∀ x ∈ rest.head?, p x = false) :
    (xs ++ rest).takeWhile p = xs := by
  rw [List.takeWhile_append_of_pos hxs]
  cases rest with
  | nil => rw [List.takeWhile_nil, List.append_nil]
  | cons x rest => rw [List.takeWhile_cons_of_neg (by simp [hrest x rfl]), List.append_nil]

theorem append_inj_of_stop (hxs : ∀ x ∈ xs, p x) (hys : ∀ y ∈ ys, p y) (hrest : ∀ x ∈ rest.head?, p x = false)
    (hrest' : ∀ y ∈ rest'.head?, p y = false) (h : xs ++ rest = ys ++ rest') : xs = ys ∧ rest = rest' := by
  have heq : xs = ys := by
    rw [← takeWhile_append_of_stop hxs hrest, h, takeWhile_append_of_stop hys hrest']
  subst heq
  exact ⟨rfl, List.append_cancel_left h⟩

/-- Blocks that end in the first entry out of a class are determined by all entries in a row. -/
theorem blocks_inj {blocks blocks' : List (List α × α)}
    (hblocks : ∀ block ∈ blocks, (∀ x ∈ block.1, p x) ∧ p block.2 = false)
    (hblocks' : ∀ block ∈ blocks', (∀ x ∈ block.1, p x) ∧ p block.2 = false)
    (h : (blocks.flatMap fun block => block.1 ++ [block.2]) = blocks'.flatMap fun block => block.1 ++ [block.2]) :
    blocks = blocks' := by
  induction blocks generalizing blocks' with
  | nil =>
      cases blocks' with
      | nil => rfl
      | cons block' blocks' => simp at h
  | cons block blocks ih =>
      cases blocks' with
      | nil => simp at h
      | cons block' blocks' =>
          obtain ⟨hclass, hend⟩ := hblocks block List.mem_cons_self
          obtain ⟨hclass', hend'⟩ := hblocks' block' List.mem_cons_self
          simp only [List.flatMap_cons, List.append_assoc, List.singleton_append] at h
          obtain ⟨hfirst, hrest⟩ := append_inj_of_stop hclass hclass' (by simpa using hend) (by simpa using hend') h
          obtain ⟨hlast, hrest⟩ := List.cons.inj hrest
          have hblock : block = block' := Prod.ext hfirst hlast
          rw [hblock, ih (fun b hb => hblocks b (List.mem_cons_of_mem _ hb))
            (fun b hb => hblocks' b (List.mem_cons_of_mem _ hb)) hrest]

end

/-- Texts of one class of characters. -/
def Over (p : Char → Bool) (text : String) : Prop :=
  ∀ c ∈ text.toList, p c

instance (p : Char → Bool) (text : String) : Decidable (Over p text) :=
  decidable_of_iff (text.toList.all p) List.all_eq_true

/-- The characters of a listing outside of comments and line ends. -/
def isInk (c : Char) : Bool :=
  Lexer.isWordPart c || [' ', '%', '.', ':', '-', '?'].contains c

/-- Texts that do not end in white space. -/
def isFirm (text : String) : Bool :=
  text.toList.getLast?.any fun c => ! isSpace c

section
variable {p q : Char → Bool} {text text' rest rest' : String}

theorem over_append : Over p (text ++ text') ↔ Over p text ∧ Over p text' := by
  simp only [Over, String.toList_append, List.mem_append, or_imp, forall_and]

theorem Over.mono (h : Over p text) (hpq : ∀ c, p c → q c) : Over q text :=
  fun c hc => hpq c (h c hc)

theorem text_inj_of_stop (htext : Over p text) (htext' : Over p text') (hrest : ∀ c ∈ rest.toList.head?, p c = false)
    (hrest' : ∀ c ∈ rest'.toList.head?, p c = false) (h : text ++ rest = text' ++ rest') :
    text = text' ∧ rest = rest' := by
  have hlist := congrArg String.toList h
  rw [String.toList_append, String.toList_append] at hlist
  obtain ⟨hfirst, hlast⟩ := append_inj_of_stop htext htext' hrest hrest' hlist
  exact ⟨String.toList_inj.mp hfirst, String.toList_inj.mp hlast⟩

/-- Fields before the same separator, which starts with a character that they do not have. -/
theorem field_inj {sep : String} (htext : Over p text) (htext' : Over p text')
    (hsep : sep.toList.head?.any fun c => ! p c) (h : text ++ sep ++ rest = text' ++ sep ++ rest') :
    text = text' ∧ rest = rest' := by
  rw [Option.any_eq_true] at hsep
  obtain ⟨c, hc, hstop⟩ := hsep
  have hhead : ∀ tail : String, ∀ d ∈ (sep ++ tail).toList.head?, p d = false := by
    intro tail d hd
    rw [String.toList_append, List.head?_append, hc, Option.some_or] at hd
    cases hd
    simpa using hstop
  rw [String.append_assoc, String.append_assoc] at h
  obtain ⟨heq, hrest⟩ := text_inj_of_stop htext htext' (hhead rest) (hhead rest') h
  exact ⟨heq, (String.append_right_inj sep).mp hrest⟩

theorem isFirm_append (h : isFirm text') : isFirm (text ++ text') := by
  rw [isFirm, Option.any_eq_true] at h ⊢
  obtain ⟨c, hc, hspace⟩ := h
  refine ⟨c, ?_, hspace⟩
  rw [String.toList_append, List.getLast?_append, hc, Option.some_or]

theorem isSpace_of_isWordPart {c : Char} (h : Lexer.isWordPart c) : isSpace c = false := by
  rw [Lexical.isWordPart_eq, Bool.or_eq_true, Lexical.isWordStart_iff, Lexical.isDigit_char_iff] at h
  simp only [isSpace, Bool.or_eq_false_iff, Bool.and_eq_false_iff, decide_eq_false_iff_not]
  omega

theorem isFirm_of_over (h : Over Lexer.isWordPart text) (hne : text ≠ "") : isFirm text := by
  have hlist : text.toList ≠ [] := fun hnil => hne (String.toList_inj.mp hnil)
  have hspace := isSpace_of_isWordPart (h _ (List.getLast_mem hlist))
  rw [isFirm, List.getLast?_eq_some_getLast hlist, Option.any_some, hspace, Bool.not_false]

theorem Over.word (h : Over Char.isDigit text) : Over Lexer.isWordPart text :=
  h.mono fun c hc => by rw [Lexical.isWordPart_eq, hc, Bool.or_true]

theorem Over.ink (h : Over Lexer.isWordPart text) : Over isInk text :=
  h.mono fun c hc => by rw [isInk, hc, Bool.true_or]

/-- Blanks that fill up a line can be taken away again. -/
theorem trimEnd_blanks (h : isFirm text) (n : Nat) :
    trimEnd (text ++ String.ofList (List.replicate n ' ')) = text := by
  rw [isFirm, Option.any_eq_true] at h
  obtain ⟨c, hc, hspace⟩ := h
  obtain ⟨cs, hcs⟩ := List.getLast?_eq_some_iff.mp hc
  have hblanks : ∀ b ∈ (List.replicate n ' ').reverse, isSpace b := by
    intro b hb
    rw [List.eq_of_mem_replicate (List.mem_reverse.mp hb)]
    rfl
  rw [trimEnd, String.toList_append, String.toList_ofList, List.reverse_append, List.dropWhile_append_of_pos hblanks,
    hcs, List.reverse_append, List.reverse_singleton, List.singleton_append,
    List.dropWhile_cons_of_neg (by simpa using hspace), List.reverse_cons, List.reverse_reverse, ← hcs,
    String.ofList_toList]

theorem trimEnd_of_firm (h : isFirm text) : trimEnd text = text := by
  simpa using trimEnd_blanks h 0

end

theorem over_nat (n : Nat) : Over Char.isDigit (toString n) := by
  intro c hc
  rw [show toString n = n.repr from rfl, Nat.toList_repr] at hc
  exact Nat.isDigit_of_mem_toDigits (by decide) (by decide) hc

theorem over_addr (n : Nat) : Over Char.isDigit (Numeral.addr n) := by
  refine over_append.mpr ⟨fun c hc => ?_, over_nat n⟩
  rw [String.toList_ofList] at hc
  rw [List.eq_of_mem_replicate hc]
  rfl

theorem isFirm_nat (n : Nat) : isFirm (toString n) :=
  isFirm_of_over (over_nat n).word Nat.repr_ne_empty

theorem value_nat (n : Nat) : Nat.ofDigitChars 10 (toString n).toList 0 = n := by
  rw [show toString n = n.repr from rfl, Nat.toList_repr, Nat.ofDigitChars_ten_toDigits]

/-- Leading zeros do not change the value. -/
theorem value_addr (n : Nat) : Nat.ofDigitChars 10 (Numeral.addr n).toList 0 = n := by
  rw [Numeral.addr, Numeral.padded, String.toList_append, String.toList_ofList, Nat.ofDigitChars_append,
    Nat.ofDigitChars_replicate_zero, Nat.mul_zero, value_nat]

theorem nat_injective {n m : Nat} (h : toString n = toString m) : n = m := by
  rw [← value_nat n, h, value_nat]

theorem addr_injective {n m : Nat} (h : Numeral.addr n = Numeral.addr m) : n = m := by
  rw [← value_addr n, h, value_addr]

/-- A number without a sign is not one with a sign. -/
theorem nat_ne_minus (n : Nat) (text : String) : toString n ≠ "-" ++ text := by
  intro h
  have hminus : Over Char.isDigit "-" := (over_append.mp (h ▸ over_nat n)).1
  exact absurd hminus (by decide)

theorem int_injective {a b : Int} (h : toString a = toString b) : a = b := by
  rw [Int.toString_eq_repr, Int.toString_eq_repr, Int.repr_eq_if, Int.repr_eq_if] at h
  split at h <;> split at h
  · have := nat_injective h
    omega
  · exact absurd h (nat_ne_minus _ _)
  · exact absurd h.symm (nat_ne_minus _ _)
  · have := nat_injective ((String.append_right_inj "-").mp h)
    omega

theorem over_int (a : Int) : Over isInk (toString a) := by
  rw [Int.toString_eq_repr, Int.repr_eq_if]
  split
  · exact (over_nat _).word.ink
  · exact over_append.mpr ⟨by decide, (over_nat _).word.ink⟩

theorem isFirm_int (a : Int) : isFirm (toString a) := by
  rw [Int.toString_eq_repr, Int.repr_eq_if]
  split
  · exact isFirm_nat _
  · exact isFirm_append (isFirm_nat _)

theorem isIdentifier_iff {name : String} : isIdentifier name ↔
    ∃ c cs, name.toList = c :: cs ∧ Lexer.isWordStart c ∧ ∀ d ∈ cs, Lexer.isWordPart d := by
  rw [isIdentifier]
  split
  · next hnil => simp [hnil]
  · next c cs hcons => simp [hcons]

theorem over_identifier {name : String} (h : isIdentifier name) : Over Lexer.isWordPart name := by
  obtain ⟨c, cs, hcons, hstart, hpart⟩ := isIdentifier_iff.mp h
  intro d hd
  rw [hcons] at hd
  rcases List.mem_cons.mp hd with rfl | hd
  · rw [Lexical.isWordPart_eq, hstart, Bool.true_or]
  · exact hpart d hd

theorem isFirm_identifier {name : String} (h : isIdentifier name) : isFirm name := by
  refine isFirm_of_over (over_identifier h) ?_
  rintro rfl
  cases h

section
variable {slots slots' : Array Variable} {slot : Slot}

theorem slotName_cases (hslots : ∀ info ∈ slots, isIdentifier info.name) (slot : Slot) :
    isIdentifier (slotName slots slot) ∨ slotName slots slot = "?" := by
  rw [slotName]
  split
  · next info hinfo => exact .inl (hslots info (Array.mem_of_getElem? hinfo))
  · exact .inr rfl

/-- What stands before the first blank of an operation. -/
def opcode : Op → String
  | .binary (.cmp cond) => s!"cmp.{cond.mnemonic}"
  | other => other.mnemonic

/-- What stands behind the first blank of an operation. -/
def argument? (slots : Array Variable) : Op → Option String
  | .push value => some (toString value.toInt)
  | .load slot | .store slot => some ("%" ++ toString slot.toNat ++ " " ++ slotName slots slot)
  | .jump target | .jumpIf target => some (Numeral.addr target.toNat)
  | _ => none

def operand (slots : Array Variable) (o : Op) : String :=
  (argument? slots o).elim "" (" " ++ ·)

/-- The operation with operands of zero. -/
def form : Op → Op
  | .push _ => .push 0
  | .load _ => .load 0
  | .store _ => .store 0
  | .jump _ => .jump 0
  | .jumpIf _ => .jumpIf 0
  | other => other

def forms : List Op :=
  [.push 0, .load 0, .store 0, .unary .neg, .unary .not, .binary (.arith .add), .binary (.arith .sub),
    .binary (.arith .mul), .binary (.arith .div), .binary (.arith .rem), .binary (.cmp .eq), .binary (.cmp .ne),
    .binary (.cmp .lt), .binary (.cmp .le), .binary (.cmp .gt), .binary (.cmp .ge), .binary (.logic .and),
    .binary (.logic .or), .jump 0, .jumpIf 0, .print .int, .print .bool, .exit, .nop]

theorem form_mem_forms (o : Op) : form o ∈ forms := by
  cases o with
  | unary f => cases f <;> decide
  | binary f =>
      rcases f with f | f | f
      all_goals cases f <;> decide
  | print ty => cases ty <;> decide
  | _ => simp only [form]; decide

theorem opcode_form (o : Op) : opcode (form o) = opcode o := by
  cases o <;> rfl

theorem form_eq_of_opcode {o o' : Op} (h : opcode o = opcode o') : form o = form o' := by
  have hforms : (forms.map opcode).Nodup := by decide
  rw [← opcode_form o, ← opcode_form o'] at h
  exact List.inj_on_of_nodup_map hforms (form_mem_forms o) (form_mem_forms o') h

theorem op_eq_append (o : Op) : op slots o = opcode o ++ operand slots o := by
  cases o with
  | push value =>
      show "push " ++ _ = "push" ++ (" " ++ _)
      rw [← String.append_assoc]
      rfl
  | load slot =>
      show "load %" ++ _ ++ " " ++ _ = "load" ++ (" " ++ ("%" ++ _ ++ " " ++ _))
      simp only [← String.append_assoc]
      rfl
  | store slot =>
      show "store %" ++ _ ++ " " ++ _ = "store" ++ (" " ++ ("%" ++ _ ++ " " ++ _))
      simp only [← String.append_assoc]
      rfl
  | jump target =>
      show "jmp " ++ _ = "jmp" ++ (" " ++ _)
      rw [← String.append_assoc]
      rfl
  | jumpIf target =>
      show "jmp.if " ++ _ = "jmp.if" ++ (" " ++ _)
      rw [← String.append_assoc]
      rfl
  | binary f => cases f <;> exact String.append_empty.symm
  | _ => exact String.append_empty.symm

theorem over_opcode (o : Op) : Over (· != ' ') (opcode o) := by
  have hforms : ∀ o ∈ forms, Over (· != ' ') (opcode o) := by decide
  rw [← opcode_form o]
  exact hforms (form o) (form_mem_forms o)

theorem head_operand (o : Op) : ∀ c ∈ (operand slots o).toList.head?, (c != ' ') = false := by
  intro c hc
  rw [operand] at hc
  cases harg : argument? slots o with
  | none =>
      rw [harg] at hc
      cases hc
  | some text =>
      rw [harg, Option.elim_some, String.toList_append] at hc
      cases hc
      rfl

theorem slot_injective {slot slot' : Slot} {name name' : String}
    (h : "%" ++ toString slot.toNat ++ " " ++ name = "%" ++ toString slot'.toNat ++ " " ++ name') : slot = slot' := by
  replace h : "%" ++ (toString slot.toNat ++ " " ++ name) = "%" ++ (toString slot'.toNat ++ " " ++ name') := by
    simpa only [String.append_assoc] using h
  obtain ⟨hslot, -⟩ := field_inj (over_nat _) (over_nat _) (by decide) ((String.append_right_inj "%").mp h)
  exact UInt32.toNat_inj.mp (nat_injective hslot)

theorem form_of_argument {o : Op} (h : argument? slots o = none) : form o = o := by
  cases o with
  | push | load | store | jump | jumpIf => cases h
  | _ => rfl

theorem argument_injective {o o' : Op} (hform : form o = form o') (h : argument? slots o = argument? slots' o') :
    o = o' := by
  cases o with
  | push value =>
      cases o' with
      | push value' => exact congrArg Op.push (Int64.toInt_inj.mp (int_injective (Option.some.inj h)))
      | _ => cases hform
  | load slot =>
      cases o' with
      | load slot' => exact congrArg Op.load (slot_injective (Option.some.inj h))
      | _ => cases hform
  | store slot =>
      cases o' with
      | store slot' => exact congrArg Op.store (slot_injective (Option.some.inj h))
      | _ => cases hform
  | jump target =>
      cases o' with
      | jump target' => exact congrArg Op.jump (UInt32.toNat_inj.mp (addr_injective (Option.some.inj h)))
      | _ => cases hform
  | jumpIf target =>
      cases o' with
      | jumpIf target' => exact congrArg Op.jumpIf (UInt32.toNat_inj.mp (addr_injective (Option.some.inj h)))
      | _ => cases hform
  | _ => exact hform.trans (form_of_argument (h.symm.trans rfl))

theorem operand_injective {o o' : Op} (h : operand slots o = operand slots' o') :
    argument? slots o = argument? slots' o' := by
  have hblank : ∀ text : String, " " ++ text ≠ "" := fun text h => by
    have := congrArg String.toList h
    rw [String.toList_append] at this
    cases this
  rw [operand, operand] at h
  cases harg : argument? slots o <;> cases harg' : argument? slots' o' <;> rw [harg, harg'] at h
  · exact absurd h.symm (hblank _)
  · exact absurd h (hblank _)
  · exact congrArg some ((String.append_right_inj " ").mp h)

/-- The text of an operation tells which one it is, whatever the slots are called. -/
theorem op_injective {o o' : Op} (h : op slots o = op slots' o') : o = o' := by
  rw [op_eq_append, op_eq_append] at h
  obtain ⟨hcode, hoperand⟩ :=
    text_inj_of_stop (over_opcode o) (over_opcode o') (head_operand o) (head_operand o') h
  exact argument_injective (form_eq_of_opcode hcode) (operand_injective hoperand)

theorem argument_plain (hslots : ∀ info ∈ slots, isIdentifier info.name) (o : Op) :
    ∀ text ∈ argument? slots o, Over isInk text ∧ isFirm text := by
  have hslot : ∀ slot : Slot, Over isInk ("%" ++ toString slot.toNat ++ " " ++ slotName slots slot) ∧
      isFirm ("%" ++ toString slot.toNat ++ " " ++ slotName slots slot) := by
    intro slot
    have hname : Over isInk (slotName slots slot) ∧ isFirm (slotName slots slot) := by
      rcases slotName_cases hslots slot with h | h
      · exact ⟨(over_identifier h).ink, isFirm_identifier h⟩
      · rw [h]
        decide
    exact ⟨over_append.mpr ⟨over_append.mpr ⟨over_append.mpr ⟨by decide, (over_nat _).word.ink⟩, by decide⟩, hname.1⟩,
      isFirm_append hname.2⟩
  have haddr : ∀ n : Nat, Over isInk (Numeral.addr n) ∧ isFirm (Numeral.addr n) := fun n =>
    ⟨(over_addr n).word.ink, isFirm_append (isFirm_nat n)⟩
  intro text htext
  cases o with
  | push value => exact Option.some.inj htext ▸ ⟨over_int _, isFirm_int _⟩
  | load slot => exact Option.some.inj htext ▸ hslot slot
  | store slot => exact Option.some.inj htext ▸ hslot slot
  | jump target => exact Option.some.inj htext ▸ haddr _
  | jumpIf target => exact Option.some.inj htext ▸ haddr _
  | _ => cases htext

theorem op_plain (hslots : ∀ info ∈ slots, isIdentifier info.name) (o : Op) :
    Over isInk (op slots o) ∧ isFirm (op slots o) := by
  have hforms : ∀ o ∈ forms, Over isInk (opcode o) ∧ isFirm (opcode o) := by decide
  have hcode := hforms (form o) (form_mem_forms o)
  rw [opcode_form] at hcode
  rw [op_eq_append, operand]
  cases harg : argument? slots o with
  | none => rwa [Option.elim_none, String.append_empty]
  | some text =>
      obtain ⟨hover, hfirm⟩ := argument_plain hslots o text harg
      rw [Option.elim_some]
      exact ⟨over_append.mpr ⟨hcode.1, over_append.mpr ⟨by decide, hover⟩⟩, isFirm_append (isFirm_append hfirm)⟩

end

section
variable {program other : Program} {debug : Bool} {addr : Nat} {o o' : Op}

open X64.Listing (OneLine oneLine_append oneLine_nat textLines textLines_join textLines_of_oneLine)

/-- The line of an operation without the comment. -/
def entry (program : Program) (addr : Nat) (o : Op) : String :=
  Numeral.addr addr ++ ":  " ++ op program.slots o

theorem entry_plain (hprogram : program.Legible) (addr : Nat) (o : Op) :
    Over isInk (entry program addr o) ∧ isFirm (entry program addr o) := by
  obtain ⟨hover, hfirm⟩ := op_plain hprogram.slots o
  exact ⟨over_append.mpr ⟨over_append.mpr ⟨(over_addr addr).word.ink, by decide⟩, hover⟩, isFirm_append hfirm⟩

theorem opLine_plain (hprogram : program.Legible) (addr : Nat) (o : Op) :
    opLine program false addr o = entry program addr o :=
  trimEnd_of_firm (entry_plain hprogram addr o).2

theorem opLine_noted {source : Nat} (hsource : program.lines[addr]? = some source) :
    opLine program true addr o = fill noteColumn (entry program addr o) ++ "; line " ++ toString source := by
  unfold opLine
  rw [hsource]
  exact trimEnd_of_firm (isFirm_append (isFirm_nat source))

theorem exists_source (hprogram : program.Legible) (haddr : addr < program.ops.size) :
    ∃ source, program.lines[addr]? = some source :=
  ⟨_, Array.getElem?_eq_getElem (hprogram.lines ▸ haddr)⟩

theorem over_fill {text : String} (h : Over isInk text) (width : Nat) : Over isInk (fill width text) := by
  refine over_append.mpr ⟨h, fun c hc => ?_⟩
  rw [String.toList_ofList] at hc
  rw [List.eq_of_mem_replicate hc]
  rfl

theorem fill_injective {text text' : String} {width : Nat} (htext : isFirm text) (htext' : isFirm text')
    (h : fill width text = fill width text') : text = text' := by
  rw [← trimEnd_blanks htext (width - text.utf8ByteSize), ← trimEnd_blanks htext' (width - text'.utf8ByteSize)]
  exact congrArg trimEnd h

/-- The comment starts at the first semicolon, with or without blanks before it. -/
theorem opLine_injective (hprogram : program.Legible) (hother : other.Legible) (haddr : addr < program.ops.size)
    (haddr' : addr < other.ops.size) (h : opLine program debug addr o = opLine other debug addr o') :
    o = o' ∧ (debug = true → program.lines[addr]? = other.lines[addr]?) := by
  have hentry := entry_plain hprogram addr o
  have hentry' := entry_plain hother addr o'
  have hop : entry program addr o = entry other addr o' → o = o' := fun heq =>
    op_injective ((String.append_right_inj _).mp heq)
  cases debug with
  | false =>
      rw [opLine_plain hprogram, opLine_plain hother] at h
      exact ⟨hop h, nofun⟩
  | true =>
      obtain ⟨source, hsource⟩ := exists_source hprogram haddr
      obtain ⟨source', hsource'⟩ := exists_source hother haddr'
      rw [opLine_noted hsource, opLine_noted hsource'] at h
      obtain ⟨hfill, hnote⟩ := field_inj (over_fill hentry.1 _) (over_fill hentry'.1 _) (by decide) h
      refine ⟨hop (fill_injective hentry.2 hentry'.2 hfill), fun _ => ?_⟩
      rw [hsource, hsource', nat_injective hnote]

theorem slotLine_injective {slot : Nat} {info info' : Variable} (hinfo : isIdentifier info.name)
    (hinfo' : isIdentifier info'.name) (h : slotLine slot info = slotLine slot info') : info = info' := by
  have h : "slot %" ++ toString slot ++ " " ++ (info.name ++ " : " ++ info.ty.text) =
      "slot %" ++ toString slot ++ " " ++ (info'.name ++ " : " ++ info'.ty.text) := by
    simp only [← String.append_assoc]
    exact h
  obtain ⟨hname, hty⟩ :=
    field_inj (over_identifier hinfo) (over_identifier hinfo') (by decide) ((String.append_right_inj _).mp h)
  have htext : ∀ ty ty' : Ty, ty.text = ty'.text → ty = ty' := by
    intro ty ty'
    cases ty <;> cases ty' <;> decide
  cases info
  cases info'
  rw [Variable.mk.injEq]
  exact ⟨hname, htext _ _ hty⟩

theorem markLines_eq_map (program : Program) (addr : Nat) :
    markLines program true addr = (program.labelsAt addr).map (· ++ ":") := by
  rw [Program.labelsAt, List.map_map]
  rfl

theorem oneLine_of_over {text : String} (h : Over isInk text) : OneLine text :=
  fun hmem => absurd (h _ hmem) (by decide)

theorem oneLine_identifier {name : String} (h : isIdentifier name) : OneLine name :=
  oneLine_of_over (over_identifier h).ink

theorem oneLine_opLine (hprogram : program.Legible) (haddr : addr < program.ops.size) :
    OneLine (opLine program debug addr o) := by
  have hentry := (entry_plain hprogram addr o).1
  cases debug with
  | false =>
      rw [opLine_plain hprogram]
      exact oneLine_of_over hentry
  | true =>
      obtain ⟨source, hsource⟩ := exists_source hprogram haddr
      rw [opLine_noted hsource, oneLine_append, oneLine_append]
      exact ⟨⟨oneLine_of_over (over_fill hentry _), by decide⟩, oneLine_nat source⟩

theorem oneLine_markLines (hprogram : program.Legible) : ∀ line ∈ markLines program debug addr, OneLine line := by
  intro line hline
  cases debug with
  | false => cases hline
  | true =>
      obtain ⟨mark, hmark, rfl⟩ := List.mem_map.mp hline
      have hname := hprogram.marks mark (Array.mem_toList_iff.mp (List.mem_of_mem_filter hmark))
      exact oneLine_append.mpr ⟨oneLine_identifier hname, by decide⟩

theorem lt_of_mem_zipIdx (h : (o, addr) ∈ program.ops.toList.zipIdx) : addr < program.ops.size := by
  rw [List.mk_mem_zipIdx_iff_getElem?, Array.getElem?_toList] at h
  exact (Array.getElem?_eq_some_iff.mp h).1

theorem oneLine_lines (hprogram : program.Legible) : ∀ line ∈ lines program debug, OneLine line := by
  intro line hline
  rw [lines, List.mem_append, List.mem_append, List.mem_append] at hline
  rcases hline with ((hline | hline) | hline) | hline
  · rcases List.mem_cons.mp hline with rfl | hline
    · decide
    · rw [List.mem_singleton.mp hline]
      exact oneLine_append.mpr ⟨oneLine_append.mpr ⟨oneLine_append.mpr ⟨by decide, oneLine_nat _⟩, by decide⟩,
        oneLine_nat _⟩
  · obtain ⟨⟨info, slot⟩, hmem, rfl⟩ := List.mem_map.mp hline
    have hname := hprogram.slots info (Array.mem_toList_iff.mp (List.fst_mem_of_mem_zipIdx hmem))
    have hty : OneLine info.ty.text := by cases info.ty <;> decide
    refine oneLine_append.mpr ⟨oneLine_append.mpr ⟨oneLine_append.mpr ⟨oneLine_append.mpr ⟨oneLine_append.mpr
      ⟨by decide, oneLine_nat slot⟩, by decide⟩, oneLine_identifier hname⟩, by decide⟩, hty⟩
  · rw [List.mem_singleton.mp hline]
    decide
  · obtain ⟨⟨o, addr⟩, hmem, hline⟩ := List.mem_flatMap.mp hline
    rcases List.mem_append.mp hline with hline | hline
    · exact oneLine_markLines hprogram line hline
    · rw [List.mem_singleton.mp hline]
      exact oneLine_opLine hprogram (lt_of_mem_zipIdx hmem)

theorem textLines_listing (hprogram : program.Legible) :
    textLines (program.listing debug) = lines program debug ++ [""] := by
  have hlines : (lines program debug).flatMap textLines = (lines program debug).flatMap fun line => [line] :=
    List.flatMap_congr fun line hline => textLines_of_oneLine (oneLine_lines hprogram line hline)
  rw [Program.listing, textLines_join, hlines, List.flatMap_singleton']

/-- Lines of labels start as a word does, lines of operations with a digit. -/
def isMarkLine (line : String) : Bool :=
  line.toList.head?.any Lexer.isWordStart

/-- The lines of one address. -/
def block (program : Program) (debug : Bool) (entry : Op × Nat) : List String × String :=
  (markLines program debug entry.2, opLine program debug entry.2 entry.1)

def blocks (program : Program) (debug : Bool) : List (List String × String) :=
  program.ops.toList.zipIdx.map (block program debug)

theorem isMarkLine_markLines (hprogram : program.Legible) :
    ∀ line ∈ markLines program debug addr, isMarkLine line := by
  intro line hline
  cases debug with
  | false => cases hline
  | true =>
      obtain ⟨mark, hmark, rfl⟩ := List.mem_map.mp hline
      have hname := hprogram.marks mark (Array.mem_toList_iff.mp (List.mem_of_mem_filter hmark))
      obtain ⟨c, cs, hcons, hstart, -⟩ := isIdentifier_iff.mp hname
      show (mark.name ++ ":").toList.head?.any Lexer.isWordStart
      rw [String.toList_append, hcons]
      exact hstart

theorem isMarkLine_addr (addr : Nat) (rest : String) : isMarkLine (Numeral.addr addr ++ rest) = false := by
  have hne : (Numeral.addr addr).toList ≠ [] := by
    rw [Numeral.addr, Numeral.padded, String.toList_append]
    exact List.append_ne_nil_of_right_ne_nil _ (Nat.toList_repr ▸ Nat.toDigits_ne_nil)
  obtain ⟨c, cs, hcons⟩ := List.exists_cons_of_ne_nil hne
  have hdigit : c.isDigit := over_addr addr c (hcons ▸ List.mem_cons_self)
  rw [isMarkLine, String.toList_append, hcons, List.cons_append, List.head?_cons, Option.any_some,
    ← Bool.not_eq_true, Lexical.isWordStart_iff]
  rw [Lexical.isDigit_char_iff] at hdigit
  omega

theorem isMarkLine_opLine (hprogram : program.Legible) (haddr : addr < program.ops.size) :
    isMarkLine (opLine program debug addr o) = false := by
  cases debug with
  | false =>
      rw [opLine_plain hprogram, entry, String.append_assoc]
      exact isMarkLine_addr addr _
  | true =>
      obtain ⟨source, hsource⟩ := exists_source hprogram haddr
      rw [opLine_noted hsource, fill, entry]
      simp only [String.append_assoc]
      exact isMarkLine_addr addr _

theorem blocks_separated (hprogram : program.Legible) : ∀ block ∈ blocks program debug,
    (∀ line ∈ block.1, isMarkLine line) ∧ isMarkLine block.2 = false := by
  intro b hb
  obtain ⟨⟨o, addr⟩, hmem, rfl⟩ := List.mem_map.mp hb
  exact ⟨isMarkLine_markLines hprogram, isMarkLine_opLine hprogram (lt_of_mem_zipIdx hmem)⟩

theorem lines_eq_append (program : Program) (debug : Bool) :
    lines program debug = ["; gotoc IR", s!"; ops: {program.ops.size}, slots: {program.slots.size}"] ++
      (program.slots.toList.zipIdx.map (fun entry => slotLine entry.2 entry.1) ++
        "" :: (blocks program debug).flatMap fun block => block.1 ++ [block.2]) := by
  rw [lines, blocks, List.flatMap_map, List.append_assoc, List.append_assoc]
  rfl

/-- The lines of a listing fall into header, slots and blocks in one way. -/
theorem parts_of_lines (hprogram : program.Legible) (hother : other.Legible)
    (h : lines program debug = lines other debug) :
    program.slots.toList.zipIdx.map (fun entry => slotLine entry.2 entry.1) =
        other.slots.toList.zipIdx.map (fun entry => slotLine entry.2 entry.1) ∧
      blocks program debug = blocks other debug := by
  -- The empty line is the first one behind the header: lines of slots are not empty.
  have hfull : ∀ program : Program, ∀ line ∈ program.slots.toList.zipIdx.map (fun entry => slotLine entry.2 entry.1),
      (line != "") = true := by
    intro program line hline
    obtain ⟨⟨info, slot⟩, -, rfl⟩ := List.mem_map.mp hline
    refine bne_iff_ne.mpr fun hempty => ?_
    simp only [slotLine, String.append_eq_empty_iff] at hempty
    exact absurd hempty.1.1.1.1.1 (by decide)
  rw [lines_eq_append, lines_eq_append] at h
  obtain ⟨-, h⟩ := List.append_inj h rfl
  obtain ⟨hslots, hrest⟩ := append_inj_of_stop (hfull program) (hfull other) (by simp) (by simp) h
  exact ⟨hslots, blocks_inj (blocks_separated hprogram) (blocks_separated hother) (List.cons.inj hrest).2⟩

/-- Numbered entries that are written alike, one by one. -/
theorem map_zipIdx_inj {α β : Type} {xs ys : Array α} {f g : α × Nat → β}
    (h : xs.toList.zipIdx.map f = ys.toList.zipIdx.map g) :
    xs.size = ys.size ∧ ∀ i (hx : i < xs.size) (hy : i < ys.size), f (xs[i], i) = g (ys[i], i) := by
  constructor
  · simpa using congrArg List.length h
  · intro i hx hy
    have hi := congrArg (·[i]?) h
    simpa [List.getElem?_zipIdx, hx, hy] using hi

theorem slots_of_lines (hprogram : program.Legible) (hother : other.Legible)
    (h : program.slots.toList.zipIdx.map (fun entry => slotLine entry.2 entry.1) =
      other.slots.toList.zipIdx.map (fun entry => slotLine entry.2 entry.1)) : program.slots = other.slots := by
  obtain ⟨hsize, hline⟩ := map_zipIdx_inj h
  refine Array.ext hsize fun i hi hi' => ?_
  exact slotLine_injective (hprogram.slots _ (Array.getElem_mem hi)) (hother.slots _ (Array.getElem_mem hi'))
    (hline i hi hi')

theorem code_of_blocks (hprogram : program.Legible) (hother : other.Legible)
    (h : blocks program debug = blocks other debug) :
    program.ops = other.ops ∧ (debug = true → program.lines = other.lines ∧
      ∀ addr < program.ops.size, program.labelsAt addr = other.labelsAt addr) := by
  obtain ⟨hsize, hblock⟩ := map_zipIdx_inj h
  have hop := fun addr (haddr : addr < program.ops.size) =>
    opLine_injective hprogram hother haddr (hsize ▸ haddr)
      (congrArg Prod.snd (hblock addr haddr (hsize ▸ haddr)))
  refine ⟨Array.ext hsize fun addr haddr _ => (hop addr haddr).1, fun hdebug => ⟨?_, fun addr haddr => ?_⟩⟩
  · refine Array.ext_getElem? fun addr => ?_
    by_cases haddr : addr < program.ops.size
    · exact (hop addr haddr).2 hdebug
    · have hsource : program.lines[addr]? = none := Array.getElem?_eq_none (by rw [hprogram.lines]; omega)
      have hsource' : other.lines[addr]? = none := Array.getElem?_eq_none (by rw [hother.lines]; omega)
      rw [hsource, hsource']
  · subst hdebug
    have hmarks : markLines program true addr = markLines other true addr :=
      congrArg Prod.fst (hblock addr haddr (hsize ▸ haddr))
    rw [markLines_eq_map, markLines_eq_map] at hmarks
    exact (List.map_inj_right fun _ _ heq => (String.append_left_inj ":").mp heq).mp hmarks

theorem blocks_congr (hops : program.ops = other.ops) (hslots : program.slots = other.slots)
    (hdebug : debug = true → program.lines = other.lines ∧
      ∀ addr < program.ops.size, program.labelsAt addr = other.labelsAt addr) :
    blocks program debug = blocks other debug := by
  rw [blocks, blocks, ← hops]
  refine List.map_congr_left fun ⟨o, addr⟩ hmem => ?_
  cases debug with
  | false =>
      have hline : opLine program false addr o = opLine other false addr o := by
        show trimEnd (entry program addr o) = trimEnd (entry other addr o)
        rw [entry, entry, hslots]
      exact Prod.ext rfl hline
  | true =>
      obtain ⟨hlines, hlabels⟩ := hdebug rfl
      have hline : opLine program true addr o = opLine other true addr o := by
        unfold opLine
        rw [hslots, hlines]
      have hmarks : markLines program true addr = markLines other true addr := by
        rw [markLines_eq_map, markLines_eq_map, hlabels addr (lt_of_mem_zipIdx hmem)]
      exact Prod.ext hmarks hline

end

end Listing

namespace Program

/-- Two listings are equal exactly if the programs have the same operations and slots and, with debug information,
the same source lines and the same labels at each address that has an operation. -/
theorem listing_unambiguous {program other : Program} (hprogram : program.Legible) (hother : other.Legible)
    (debug : Bool) : program.listing debug = other.listing debug ↔
      program.ops = other.ops ∧ program.slots = other.slots ∧
        (debug = true → program.lines = other.lines ∧
          ∀ addr < program.ops.size, program.labelsAt addr = other.labelsAt addr) := by
  constructor
  · intro h
    have hlines : Listing.lines program debug = Listing.lines other debug := by
      have htext := congrArg X64.Listing.textLines h
      rw [Listing.textLines_listing hprogram, Listing.textLines_listing hother] at htext
      exact List.append_cancel_right htext
    obtain ⟨hslots, hblocks⟩ := Listing.parts_of_lines hprogram hother hlines
    obtain ⟨hops, hdebug⟩ := Listing.code_of_blocks hprogram hother hblocks
    exact ⟨hops, Listing.slots_of_lines hprogram hother hslots, hdebug⟩
  · rintro ⟨hops, hslots, hdebug⟩
    rw [listing, listing, Listing.lines_eq_append, Listing.lines_eq_append,
      Listing.blocks_congr hops hslots hdebug, hops, hslots]

/-- A program whose first operation leaves no blank before its comment. -/
def longNamed : Program where
  ops := #[.load 0, .print .int, .push 0, .exit]
  lines := #[3, 3, 4, 4]
  slots := #[{ name := "number_of_lines_in_a_listing", ty := .int }]
  marks := #[{ name := "start", addr := 0 }]

/-- Other source lines show in comments only, and a label behind the last operation not at all. -/
theorem listing_unambiguous_longNamed :
    let moved := { longNamed with lines := #[3, 3, 44, 44] }
    let marked := { longNamed with marks := longNamed.marks.push { name := "stop", addr := 4 } }
    longNamed.Legible ∧ moved.Legible ∧ marked.Legible ∧
      longNamed.listing false = moved.listing false ∧ longNamed.listing true ≠ moved.listing true ∧
      longNamed.listing true = marked.listing true := by
  intro moved marked
  have hlong : longNamed.Legible := ⟨rfl, by decide, by decide⟩
  have hmoved : moved.Legible := ⟨rfl, by decide, by decide⟩
  have hmarked : marked.Legible := ⟨rfl, by decide, by decide⟩
  refine ⟨hlong, hmoved, hmarked, (listing_unambiguous hlong hmoved false).mpr ⟨rfl, rfl, nofun⟩, fun h => ?_,
    (listing_unambiguous hlong hmarked true).mpr ⟨rfl, rfl, fun _ => ⟨rfl, by decide⟩⟩⟩
  obtain ⟨-, -, hdebug⟩ := (listing_unambiguous hlong hmoved true).mp h
  exact absurd (hdebug rfl).1 (by decide)

end Program

end GotoLang
