import GotoLang.Proofs.X64.Naming
import GotoLang.X64.Listing

/-!
# Assembly text defines what it refers to

In the assembly text of a compiled program, names are found by their offsets. The text refers only to names that
it defines, and it defines each of them in one line.

Source labels appear in comments of the text just as they are. A name that has a line break in it ends the
comment, and the rest of it is a line of its own, which may well be a second definition.
-/
namespace GotoLang.X64

open Script

namespace Listing

/-- Lines that start with a tab define nothing. -/
def Indented (line : String) : Prop :=
  line.toList.head? = some '\t'

section
variable {machine : MachineCode} {labels : List (Nat × String)} {debug : Bool} {line : String}
variable {options : CodeOptions} {program : Program} {depths : Flow.Depths} {script : Script}
  {assembly : Assembly CodeLabel}

theorem indented_tabbed (text : String) : Indented (tabbed text) := by
  show ("\t" ++ text).toList.head? = some '\t'
  rw [String.toList_append]
  rfl

theorem count_of_indented {lines : List String} (hlines : ∀ other ∈ lines, Indented other)
    (hline : ¬ Indented line) : lines.count line = 0 :=
  List.count_eq_zero.mpr fun hmem => hline (hlines line hmem)

theorem indented_sourceLabelLines {placed : Placed CodeLabel} :
    ∀ other ∈ sourceLabelLines machine placed, Indented other := by
  intro other hother
  rw [sourceLabelLines] at hother
  split at hother
  · obtain ⟨_, -, rfl⟩ := List.mem_map.mp hother
    exact indented_tabbed _
  · cases hother

theorem indented_sourceLineLines {placed : Placed CodeLabel} :
    ∀ other ∈ sourceLineLines machine placed, Indented other := by
  intro other hother
  rw [sourceLineLines] at hother
  split at hother
  · obtain ⟨_, -, rfl⟩ := Option.map_eq_some_iff.mp (Option.mem_toList.mp hother)
    exact indented_tabbed _
  · cases hother

theorem indented_dataLines (bytes : List UInt8) : ∀ other ∈ dataLines bytes, Indented other := by
  fun_induction dataLines bytes with
  | case1 => exact fun _ hother => absurd hother List.not_mem_nil
  | case2 b rest ih =>
      intro other hother
      rcases List.mem_cons.mp hother with rfl | hother
      · exact indented_tabbed _
      · exact ih other hother

theorem indented_functionHead (function : Function) : ∀ other ∈ functionHead function, Indented other := by
  intro other hother
  rw [functionHead] at hother
  rcases List.mem_append.mp hother with hother | hother
  · split at hother
    · rw [List.mem_singleton.mp hother]
      exact indented_tabbed _
    · cases hother
  · rw [List.mem_singleton.mp hother]
    exact indented_tabbed _

/-- Of the lines of an instruction only those of labels define a name. -/
theorem count_instrLines (hline : ¬ Indented line) (placed : Placed CodeLabel) :
    (instrLines machine labels debug placed).count line = (labelLines labels placed.offset).count line := by
  have hlabels : (if debug then sourceLabelLines machine placed else []).count line = 0 := by
    refine count_of_indented (fun other hother => ?_) hline
    split at hother
    · exact indented_sourceLabelLines other hother
    · cases hother
  have hlines : (if debug then sourceLineLines machine placed else []).count line = 0 := by
    refine count_of_indented (fun other hother => ?_) hline
    split at hother
    · exact indented_sourceLineLines other hother
    · cases hother
  have hinstr : [tabbed (placed.instr.text fun _ => symbol labels (placed.target.getD 0))].count line = 0 := by
    refine count_of_indented (fun other hother => ?_) hline
    rw [List.mem_singleton.mp hother]
    exact indented_tabbed _
  rw [instrLines, List.count_append, List.count_append, List.count_append, hlabels, hlines, hinstr]
  omega

theorem count_flatMap_congr {α : Type} {xs : List α} {f g : α → List String}
    (h : ∀ x ∈ xs, (f x).count line = (g x).count line) : (xs.flatMap f).count line = (xs.flatMap g).count line := by
  rw [List.count_flatMap, List.count_flatMap]
  congr 1
  exact List.map_congr_left h

/-- What the whole text defines is what the labels of all instructions and data define. -/
theorem count_lines (hline : ¬ Indented line) (hcomment : line ≠ "# gotoc x86-64 (AT&T syntax)") :
    (lines machine debug).count line =
      (machine.code.flatMap fun placed => labelLines machine.labels placed.offset).count line := by
  have hcode : (codePart machine debug).count line =
      ((machine.code.filter fun placed => placed.offset < machine.codeSize).flatMap fun placed =>
        labelLines machine.labels placed.offset).count line :=
    count_flatMap_congr fun placed _ => count_instrLines hline placed
  have hdata : (dataPart machine).count line =
      ((machine.code.filter fun placed => ! decide (placed.offset < machine.codeSize)).flatMap fun placed =>
        labelLines machine.labels placed.offset).count line := by
    have hfilter : (machine.code.filter fun placed => ! decide (placed.offset < machine.codeSize)) =
        machine.code.filter fun placed => machine.codeSize ≤ placed.offset := by
      congr 1
      funext placed
      simp [← decide_not]
    rw [hfilter]
    refine count_flatMap_congr fun placed _ => ?_
    rw [List.count_append, count_of_indented (indented_dataLines _) hline, Nat.add_zero]
  have hheader : ["# gotoc x86-64 (AT&T syntax)", tabbed ".text"].count line = 0 := by
    refine List.count_eq_zero.mpr fun hmem => ?_
    rcases List.mem_cons.mp hmem with rfl | hmem
    · exact hcomment rfl
    · exact hline (List.mem_singleton.mp hmem ▸ indented_tabbed _)
  have hheads : (machine.functions.flatMap functionHead).count line = 0 := by
    refine count_of_indented (fun other hother => ?_) hline
    obtain ⟨function, -, hother⟩ := List.mem_flatMap.mp hother
    exact indented_functionHead function other hother
  have hsizes : (machine.functions.map fun function =>
      tabbed s!".size\t{function.name}, {function.size}").count line = 0 := by
    refine count_of_indented (fun other hother => ?_) hline
    obtain ⟨function, -, rfl⟩ := List.mem_map.mp hother
    exact indented_tabbed _
  have hfooter : [tabbed ".section\t.note.GNU-stack,\"\",@progbits"].count line = 0 := by
    refine count_of_indented (fun other hother => ?_) hline
    exact List.mem_singleton.mp hother ▸ indented_tabbed _
  have hall := (List.filter_append_perm (fun placed : Placed CodeLabel => decide (placed.offset < machine.codeSize))
    machine.code).flatMap_right fun placed => labelLines machine.labels placed.offset
  rw [← hall.count_eq, List.flatMap_append, List.count_append, ← hcode, ← hdata]
  simp only [lines, List.count_append, hheader, hheads, hsizes, hfooter]
  omega

/-- Entries that are taken by their keys, key by key. -/
theorem flatMap_filter_perm {keys : List Nat} {entries : List (Nat × String)} (hkeys : keys.Nodup)
    (hentries : ∀ entry ∈ entries, entry.1 ∈ keys) :
    (keys.flatMap fun key => entries.filter (·.1 = key)).Perm entries := by
  induction keys generalizing entries with
  | nil =>
      cases entries with
      | nil => exact .refl _
      | cons entry entries => exact absurd (hentries entry List.mem_cons_self) List.not_mem_nil
  | cons key keys ih =>
      obtain ⟨hnew, hkeys⟩ := List.nodup_cons.mp hkeys
      have hrest : (keys.flatMap fun other => entries.filter (·.1 = other)) =
          keys.flatMap fun other => (entries.filter fun entry => ! decide (entry.1 = key)).filter (·.1 = other) := by
        refine List.flatMap_congr fun other hother => ?_
        rw [List.filter_filter]
        refine List.filter_congr fun entry _ => ?_
        have hne : key ≠ other := fun heq => hnew (heq ▸ hother)
        by_cases heq : entry.1 = other <;> simp [heq, hne.symm]
      rw [List.flatMap_cons, hrest]
      refine List.Perm.trans (.append_left _ (ih hkeys fun entry hentry => ?_)) (List.filter_append_perm _ entries)
      obtain ⟨hmem, hne⟩ := List.mem_filter.mp hentry
      have hne : entry.1 ≠ key := by simpa using hne
      exact (List.mem_cons.mp (hentries entry hmem)).resolve_left hne

/-- All names are defined if every label stands before an instruction, and once if no two instructions have the
same offset. -/
theorem definitions_perm (h : CodeGeneration.Generated options program depths script assembly machine)
    (hoffsets : (machine.code.map Placed.offset).Nodup) :
    (machine.code.flatMap fun placed => labelLines machine.labels placed.offset).Perm
      (machine.labels.map fun entry => definition entry.2) := by
  have hkeys : ∀ entry ∈ machine.labels, entry.1 ∈ machine.code.map Placed.offset := by
    rintro ⟨offset, name⟩ hentry
    obtain ⟨mark, hmark, -⟩ := h.mem_labels.mp hentry
    rw [← h.code_eq] at hmark
    obtain ⟨placed, hplaced, hpair⟩ := List.mem_filterMap.mp hmark
    obtain ⟨_, -, hpair⟩ := Option.map_eq_some_iff.mp hpair
    cases hpair
    exact List.mem_map_of_mem hplaced
  have hlines : (machine.code.flatMap fun placed => labelLines machine.labels placed.offset) =
      ((machine.code.map Placed.offset).flatMap fun key =>
        machine.labels.filter (·.1 = key)).map fun entry => definition entry.2 := by
    rw [List.map_flatMap, List.flatMap_map]
    rfl
  rw [hlines]
  exact (flatMap_filter_perm hoffsets hkeys).map _

theorem definition_injective {name name' : String} (h : definition name = definition name') : name = name' := by
  have h := congrArg String.toList (show name ++ ":" = name' ++ ":" from h)
  rw [String.toList_append, String.toList_append] at h
  exact String.toList_inj.mp (List.append_cancel_right h)

theorem head_definition (mark : CodeLabel) :
    ∃ c ∈ (definition mark.name).toList.head?, c ≠ '\t' ∧ c ≠ '#' := by
  obtain ⟨c, hhead, hc⟩ := mark.head_name
  refine ⟨c, ?_, hc⟩
  show c ∈ (mark.name ++ ":").toList.head?
  rw [String.toList_append, List.head?_append, Option.mem_def.mp hhead]
  rfl

/-- Each name is defined by one line. -/
theorem count_definition (h : CodeGeneration.Generated options program depths script assembly machine)
    {entry : Nat × String} (hentry : entry ∈ machine.labels) :
    (lines machine debug).count (definition entry.2) = 1 := by
  obtain ⟨mark, -, hname⟩ := h.mem_labels.mp hentry
  obtain ⟨c, hhead, htab, hsharp⟩ := head_definition mark
  rw [← CodeGeneration.name_of_name? hname, Option.mem_def] at hhead
  have hline : ¬ Indented (definition entry.2) := by
    intro hindented
    exact htab (Option.some.inj (hhead.symm.trans hindented))
  have hcomment : definition entry.2 ≠ "# gotoc x86-64 (AT&T syntax)" := by
    intro heq
    rw [heq] at hhead
    exact hsharp (Option.some.inj hhead).symm
  have hoffsets : (machine.code.map Placed.offset).Nodup := by
    rw [h.code_eq]
    exact List.pairwise_map.mpr ((h.made.consecutive.increasing h.made.solid).1.imp Nat.ne_of_lt)
  have hnames : (machine.labels.map fun entry => definition entry.2).Nodup := by
    show (List.map (definition ∘ Prod.snd) _).Nodup
    rw [← List.map_map]
    exact h.names_nodup.map fun _ _ => definition_injective
  rw [count_lines hline hcomment, (definitions_perm h hoffsets).count_eq]
  exact List.count_eq_one_of_mem hnames (List.mem_map_of_mem hentry)

end

/-- The lines of a text, the last of which may be empty. -/
def textLines (text : String) : List String :=
  (text.toList.splitOn '\n').map String.ofList

/-- A text without a line break. -/
def OneLine (text : String) : Prop :=
  '\n' ∉ text.toList

instance (text : String) : Decidable (OneLine text) :=
  inferInstanceAs (Decidable ('\n' ∉ text.toList))

section
variable {text text' : String}

theorem textLines_of_oneLine (h : OneLine text) : textLines text = [text] := by
  rw [textLines, List.splitOn_eq_singleton h, List.map_singleton, String.ofList_toList]

theorem textLines_append (text text' : String) :
    textLines (text ++ "\n" ++ text') = textLines text ++ textLines text' := by
  have hsplit : (text ++ "\n" ++ text').toList.splitOn '\n' =
      text.toList.splitOn '\n' ++ text'.toList.splitOn '\n' := by
    rw [String.toList_append, String.toList_append, List.append_assoc]
    exact List.splitOnP_append_cons _ _ (beq_self_eq_true '\n')
  rw [textLines, hsplit, List.map_append]
  rfl

theorem textLines_join (pieces : List String) :
    textLines (String.join (pieces.map (· ++ "\n"))) = pieces.flatMap textLines ++ [""] := by
  induction pieces with
  | nil => rfl
  | cons piece pieces ih =>
      rw [List.map_cons, String.join_cons, textLines_append, ih, List.flatMap_cons, List.append_assoc]

theorem oneLine_append : OneLine (text ++ text') ↔ OneLine text ∧ OneLine text' := by
  rw [OneLine, String.toList_append, List.mem_append, not_or]
  rfl

theorem oneLine_intercalate {pieces : List String} (hsep : OneLine text) (h : ∀ piece ∈ pieces, OneLine piece) :
    OneLine (text.intercalate pieces) := by
  induction pieces with
  | nil =>
      rw [String.intercalate_nil]
      decide
  | cons piece pieces ih =>
      have hpiece := h piece List.mem_cons_self
      have hrest := ih fun other hother => h other (List.mem_cons_of_mem _ hother)
      cases pieces with
      | nil => rwa [String.intercalate_singleton]
      | cons next pieces =>
          rw [String.intercalate_cons_cons]
          exact oneLine_append.mpr ⟨oneLine_append.mpr ⟨hpiece, hsep⟩, hrest⟩

theorem exists_digit {base n : Nat} (hbase : 1 < base) {c : Char} (h : c ∈ Nat.toDigits base n) :
    ∃ d < base, c = Nat.digitChar d := by
  induction n using Nat.strongRecOn with
  | ind n ih =>
      rw [Nat.toDigits_eq_if hbase] at h
      split at h
      · next hlt => exact ⟨n, hlt, List.mem_singleton.mp h⟩
      · next hle =>
          rcases List.mem_append.mp h with h | h
          · exact ih (n / base) (Nat.div_lt_self (by omega) hbase) h
          · exact ⟨n % base, Nat.mod_lt _ (by omega), List.mem_singleton.mp h⟩

theorem digitChar_ne {d : Nat} (h : d < 16) :
    Nat.digitChar d ≠ '\n' ∧ (Nat.digitChar d).toUpper ≠ '\n' := by
  have hall : ∀ d : Fin 16, Nat.digitChar d ≠ '\n' ∧ (Nat.digitChar d).toUpper ≠ '\n' := by decide
  exact hall ⟨d, h⟩

theorem oneLine_nat (n : Nat) : OneLine (toString n) := by
  intro hmem
  rw [show toString n = n.repr from rfl, Nat.toList_repr] at hmem
  obtain ⟨d, hd, heq⟩ := exists_digit (by decide) hmem
  exact (digitChar_ne (by omega)).1 heq.symm

theorem oneLine_operand (n : Nat) : OneLine (Numeral.operand n) := by
  have hhex : OneLine (Numeral.hex n) := by
    intro hmem
    rw [Numeral.hex, String.toList_ofList, List.mem_map] at hmem
    obtain ⟨c, hc, hupper⟩ := hmem
    obtain ⟨d, hd, rfl⟩ := exists_digit (by decide) hc
    exact (digitChar_ne hd).2 hupper
  rw [Numeral.operand]
  split
  · exact oneLine_nat n
  · exact oneLine_append.mpr ⟨by decide, hhex⟩

theorem oneLine_byte (b : UInt8) : OneLine (Numeral.byte b) := by
  have hlt := b.toNat_lt
  rw [OneLine, Numeral.byte, String.toList_ofList, List.mem_cons, List.mem_singleton, not_or]
  exact ⟨(digitChar_ne (by omega)).1.symm, (digitChar_ne (by omega)).1.symm⟩

theorem oneLine_register (r : Register) : OneLine r.text ∧ OneLine r.lowText := by
  cases r <;> decide

theorem oneLine_columns {mnemonic operands : String} :
    OneLine (Instr.columns mnemonic operands) ↔ OneLine mnemonic ∧ OneLine operands := by
  have hblanks : OneLine (String.ofList (List.replicate (8 - mnemonic.length) ' ')) := by
    rw [OneLine, String.toList_ofList]
    intro hmem
    cases List.eq_of_mem_replicate hmem
  rw [Instr.columns, oneLine_append, oneLine_append]
  simp only [hblanks, and_true]

theorem oneLine_toString : OneLine (toString text) ↔ OneLine text :=
  Iff.rfl

theorem oneLine_immediate (value : Int) : OneLine (Instr.immediate value) :=
  oneLine_append.mpr ⟨by decide, oneLine_operand _⟩

theorem oneLine_frameText (below : Nat) : OneLine (Instr.frameText below) :=
  oneLine_append.mpr ⟨oneLine_append.mpr ⟨by decide, oneLine_operand _⟩, by decide⟩

theorem oneLine_data (bytes : List UInt8) :
    OneLine (", ".intercalate (bytes.map fun b => s!"0x{Numeral.byte b}")) := by
  refine oneLine_intercalate (by decide) fun piece hpiece => ?_
  obtain ⟨b, -, rfl⟩ := List.mem_map.mp hpiece
  exact oneLine_append.mpr ⟨by decide, oneLine_byte b⟩

/-- An instruction takes one line if the names of labels do. -/
theorem oneLine_instr {label : Type} {name : label → String} (hname : ∀ mark, OneLine (name mark))
    (instr : Instr label) : OneLine (instr.text name) := by
  have hfull : ∀ r : Register, OneLine r.text := fun r => (oneLine_register r).1
  have hlow : ∀ r : Register, OneLine r.lowText := fun r => (oneLine_register r).2
  have halu : ∀ op : Alu, OneLine op.mnemonic := fun op => by cases op <;> decide
  have htest : ∀ test : Test, OneLine test.mnemonic := fun test => by cases test <;> decide
  have hcond : ∀ cond : Cond, OneLine (Instr.text.condSuffix cond) := fun cond => by cases cond <;> decide
  cases instr <;> simp +decide only [Instr.text, oneLine_columns, oneLine_append, oneLine_toString, hname, hfull,
    hlow, halu, htest, hcond, oneLine_immediate, oneLine_frameText, oneLine_data, and_true]

theorem oneLine_name (mark : CodeLabel) : OneLine mark.name := by
  have hplain : ∀ mark ∈ CodeLabel.plain, OneLine mark.name := by decide
  rcases mark.plain_or_numbered with h | ⟨addr, rfl⟩ | ⟨addr, rfl⟩
  · exact hplain mark h
  · exact oneLine_append.mpr ⟨by decide, oneLine_nat addr⟩
  · exact oneLine_append.mpr ⟨by decide, oneLine_nat addr⟩

theorem oneLine_tabbed : OneLine (tabbed text) ↔ OneLine text := by
  rw [show tabbed text = "\t" ++ text from rfl, oneLine_append]
  exact and_iff_right (by decide)

end

section
variable {machine : MachineCode} {debug : Bool}
variable {options : CodeOptions} {program : Program} {depths : Flow.Depths} {script : Script}
  {assembly : Assembly CodeLabel}

theorem oneLine_symbol {labels : List (Nat × String)} (hlabels : ∀ entry ∈ labels, OneLine entry.2) (offset : Nat) :
    OneLine (symbol labels offset) := by
  rw [symbol]
  cases hlookup : labels.lookup offset with
  | none => exact oneLine_nat offset
  | some name =>
      obtain ⟨before, after, rfl, -⟩ := List.lookup_eq_some_iff.mp hlookup
      exact hlabels (offset, name) (by simp)

theorem oneLine_labelLines {labels : List (Nat × String)} (hlabels : ∀ entry ∈ labels, OneLine entry.2)
    {offset : Nat} : ∀ line ∈ labelLines labels offset, OneLine line := by
  intro line hline
  obtain ⟨entry, hentry, rfl⟩ := List.mem_map.mp hline
  exact oneLine_append.mpr ⟨hlabels entry (List.mem_of_mem_filter hentry), by decide⟩

theorem oneLine_dataLines (bytes : List UInt8) : ∀ line ∈ dataLines bytes, OneLine line := by
  fun_induction dataLines bytes with
  | case1 => exact fun _ hline => absurd hline List.not_mem_nil
  | case2 b rest ih =>
      intro line hline
      rcases List.mem_cons.mp hline with rfl | hline
      · exact oneLine_tabbed.mpr (oneLine_instr oneLine_nat _)
      · exact ih line hline

theorem oneLine_instrLines (hlabels : ∀ entry ∈ machine.labels, OneLine entry.2)
    (hsource : debug = true → ∀ source ∈ machine.sourceLabels, OneLine source.1) (placed : Placed CodeLabel) :
    ∀ line ∈ instrLines machine machine.labels debug placed, OneLine line := by
  intro line hline
  rw [instrLines, List.mem_append, List.mem_append, List.mem_append] at hline
  rcases hline with ((hline | hline) | hline) | hline
  · cases debug with
    | false => cases hline
    | true =>
        rw [if_pos rfl, sourceLabelLines] at hline
        split at hline
        · obtain ⟨source, hmem, rfl⟩ := List.mem_map.mp hline
          have hname := hsource rfl source (List.mem_of_mem_filter hmem)
          exact oneLine_tabbed.mpr (oneLine_append.mpr ⟨by decide, hname⟩)
        · cases hline
  · exact oneLine_labelLines hlabels line hline
  · cases debug with
    | false => cases hline
    | true =>
        rw [if_pos rfl, sourceLineLines] at hline
        split at hline
        · obtain ⟨number, -, rfl⟩ := Option.map_eq_some_iff.mp (Option.mem_toList.mp hline)
          exact oneLine_tabbed.mpr (oneLine_append.mpr ⟨by decide, oneLine_nat number⟩)
        · cases hline
  · rw [List.mem_singleton.mp hline]
    exact oneLine_tabbed.mpr (oneLine_instr (fun _ => oneLine_symbol hlabels _) _)

theorem oneLine_functionHead {function : Function} (hname : OneLine function.name) :
    ∀ line ∈ functionHead function, OneLine line := by
  intro line hline
  rcases List.mem_append.mp hline with hline | hline
  · split at hline
    · rw [List.mem_singleton.mp hline]
      exact oneLine_tabbed.mpr (oneLine_append.mpr ⟨by decide, hname⟩)
    · cases hline
  · rw [List.mem_singleton.mp hline]
    exact oneLine_tabbed.mpr (oneLine_append.mpr ⟨oneLine_append.mpr ⟨by decide, hname⟩, by decide⟩)

theorem oneLine_lines (hlabels : ∀ entry ∈ machine.labels, OneLine entry.2)
    (hfunctions : ∀ function ∈ machine.functions, OneLine function.name)
    (hsource : debug = true → ∀ source ∈ machine.sourceLabels, OneLine source.1) :
    ∀ line ∈ lines machine debug, OneLine line := by
  intro line hline
  simp only [lines, List.mem_append] at hline
  rcases hline with ((((hline | hline) | hline) | hline) | hline) | hline
  · rcases List.mem_cons.mp hline with rfl | hline
    · decide
    · rw [List.mem_singleton.mp hline]
      decide
  · obtain ⟨function, hmem, hline⟩ := List.mem_flatMap.mp hline
    exact oneLine_functionHead (hfunctions function hmem) line hline
  · obtain ⟨placed, -, hline⟩ := List.mem_flatMap.mp hline
    exact oneLine_instrLines hlabels hsource placed line hline
  · obtain ⟨function, hmem, rfl⟩ := List.mem_map.mp hline
    have hname : OneLine (".size\t" ++ function.name ++ ", ") :=
      oneLine_append.mpr ⟨oneLine_append.mpr ⟨by decide, hfunctions function hmem⟩, by decide⟩
    exact oneLine_tabbed.mpr (oneLine_append.mpr ⟨hname, oneLine_nat function.size⟩)
  · obtain ⟨placed, -, hline⟩ := List.mem_flatMap.mp hline
    rcases List.mem_append.mp hline with hline | hline
    · exact oneLine_labelLines hlabels line hline
    · exact oneLine_dataLines _ line hline
  · rw [List.mem_singleton.mp hline]
    decide

/-- Without line breaks in its lines, the text has just these. -/
theorem textLines_listing (hlines : ∀ line ∈ lines machine debug, OneLine line) :
    textLines (machine.listing debug) = lines machine debug ++ [""] := by
  rw [MachineCode.listing, textLines_join]
  congr 1
  have hsingle : (lines machine debug).flatMap textLines = (lines machine debug).flatMap fun line => [line] :=
    List.flatMap_congr fun line hline => textLines_of_oneLine (hlines line hline)
  rw [hsingle, List.flatMap_singleton']

/-- Each name is defined by one line of the text. -/
theorem count_textLines (h : CodeGeneration.Generated options program depths script assembly machine)
    (hsource : debug = true → ∀ source ∈ machine.sourceLabels, OneLine source.1)
    {entry : Nat × String} (hentry : entry ∈ machine.labels) :
    (textLines (machine.listing debug)).count (definition entry.2) = 1 := by
  have hlabels : ∀ entry ∈ machine.labels, OneLine entry.2 := by
    intro entry hentry
    obtain ⟨mark, -, hname⟩ := h.mem_labels.mp hentry
    rw [CodeGeneration.name_of_name? hname]
    exact oneLine_name mark
  have hfunctions : ∀ function ∈ machine.functions, OneLine function.name :=
    fun function hfunction => hlabels _ (h.mem_labels_of_function hfunction)
  have hend : [""].count (definition entry.2) = 0 := by
    refine List.count_eq_zero.mpr fun hmem => ?_
    have hnil := congrArg String.toList (show entry.2 ++ ":" = "" from List.mem_singleton.mp hmem)
    rw [String.toList_append] at hnil
    exact List.append_ne_nil_of_right_ne_nil _ (List.cons_ne_nil _ _) hnil
  rw [textLines_listing (oneLine_lines hlabels hfunctions hsource), List.count_append,
    count_definition h hentry, hend]

/-- The names that the text refers to: those where branches and addresses lead to, and those of functions. -/
def references (machine : MachineCode) : List String :=
  (machine.code.filter (·.instr.target?.isSome)).map (fun placed =>
    symbol machine.labels (placed.target.getD 0)) ++ machine.functions.map Function.name

/-- Of the names of labels, an instruction shows that of its target. -/
theorem text_congr {label : Type} {instr : Instr label} {name name' : label → String}
    (h : ∀ mark, instr.target? = some mark → name mark = name' mark) : instr.text name = instr.text name' := by
  cases instr with
  | leaLabel dst target => rw [Instr.text, Instr.text, h target rfl]
  | jump target => rw [Instr.text, Instr.text, h target rfl]
  | jumpIf test target => rw [Instr.text, Instr.text, h target rfl]
  | call target => rw [Instr.text, Instr.text, h target rfl]
  | _ => rfl

theorem symbol_of_lookup {labels : List (Nat × String)} {offset : Nat} {name : String}
    (h : labels.lookup offset = some name) : symbol labels offset = name := by
  rw [symbol, h]
  rfl

/-- With debug information the source labels of an operation are in the text. -/
theorem mem_lines_of_source {placed : Placed CodeLabel} {addr : Nat} {name : String}
    (hplaced : placed ∈ machine.code) (hcode : placed.offset < machine.codeSize)
    (hmark : placed.mark = some (.op addr)) (hsource : (name, placed.offset) ∈ machine.sourceLabels) :
    tabbed s!"# label {name}" ∈ lines machine true := by
  have hline : tabbed s!"# label {name}" ∈ sourceLabelLines machine placed := by
    rw [sourceLabelLines, hmark]
    exact List.mem_map.mpr ⟨(name, placed.offset), List.mem_filter.mpr ⟨hsource, decide_eq_true rfl⟩, rfl⟩
  have hpart : tabbed s!"# label {name}" ∈ codePart machine true := by
    refine List.mem_flatMap.mpr ⟨placed, List.mem_filter.mpr ⟨hplaced, decide_eq_true hcode⟩, ?_⟩
    rw [instrLines, if_pos rfl]
    simp only [List.mem_append, hline, true_or]
  simp only [lines, List.mem_append, hpart, true_or, or_true]

/-- Two lines of the listing give at least two lines of the text. -/
theorem two_le_count {first second line : String} (hfirst : first ∈ lines machine debug)
    (hsecond : second ∈ lines machine debug) (hne : first ≠ second) (hline : line ∈ textLines first)
    (hline' : line ∈ textLines second) : 2 ≤ (textLines (machine.listing debug)).count line := by
  obtain ⟨front, back, hsplit⟩ := List.append_of_mem hfirst
  have hrest : second ∈ front ++ back := by
    rw [hsplit, List.mem_append, List.mem_cons] at hsecond
    rw [List.mem_append]
    tauto
  have hone : 0 < (textLines first).count line := List.count_pos_iff.mpr hline
  have hother : 0 < ((front ++ back).flatMap textLines).count line :=
    List.count_pos_iff.mpr (List.mem_flatMap.mpr ⟨second, hrest, hline'⟩)
  rw [List.flatMap_append, List.count_append] at hother
  rw [MachineCode.listing, textLines_join, hsplit, List.flatMap_append, List.flatMap_cons]
  simp only [List.count_append]
  omega

/-- What the text refers to has an offset if this holds for branches and functions. -/
theorem mem_labels_of_reference
    (htargets : ∀ placed ∈ machine.code, ∀ mark, placed.instr.target? = some mark →
      ∃ offset, placed.target = some offset ∧ machine.labels.lookup offset = some mark.name)
    (hfunctions : ∀ function ∈ machine.functions, (function.offset, function.name) ∈ machine.labels)
    {name : String} (h : name ∈ references machine) : ∃ entry ∈ machine.labels, entry.2 = name := by
  rcases List.mem_append.mp h with h | h
  · obtain ⟨placed, hplaced, rfl⟩ := List.mem_map.mp h
    obtain ⟨hplaced, hsome⟩ := List.mem_filter.mp hplaced
    obtain ⟨mark, hmark⟩ := Option.isSome_iff_exists.mp hsome
    obtain ⟨offset, hoffset, hlookup⟩ := htargets placed hplaced mark hmark
    obtain ⟨before, after, hlabels, -⟩ := List.lookup_eq_some_iff.mp hlookup
    refine ⟨(offset, mark.name), by simp [hlabels], ?_⟩
    rw [hoffset]
    exact (symbol_of_lookup hlookup).symm
  · obtain ⟨function, hfunction, rfl⟩ := List.mem_map.mp h
    exact ⟨_, hfunctions function hfunction, rfl⟩

end

end Listing

end X64

open X64

/-- An offset of the map has one name, and no name has two offsets. Wherever a branch or an address leads there is a name, and
the text shows that of its label. If no source label in the text breaks its line, the text defines each name that
it refers to in one line. -/
theorem Program.compile_names_branches {program : Program} {options : CodeOptions} {machine : MachineCode}
    (h : program.compile options = .ok machine) :
    (∀ entry ∈ machine.labelMap.entries, ∃ name, entry.2 = [name]) ∧
    (machine.labels.map Prod.fst).Nodup ∧ (machine.labels.map Prod.snd).Nodup ∧
    (∀ placed ∈ machine.code, ∀ mark, placed.instr.target? = some mark →
      ∃ offset, placed.target = some offset ∧ machine.labels.lookup offset = some mark.name) ∧
    (∀ placed ∈ machine.code, (placed.instr.text fun _ => Listing.symbol machine.labels (placed.target.getD 0)) =
      placed.instr.text CodeLabel.name) ∧
    ∀ debug, (debug = true → ∀ source ∈ machine.sourceLabels, Listing.OneLine source.1) →
      ∀ name ∈ Listing.references machine,
        (Listing.textLines (machine.listing debug)).count (Listing.definition name) = 1 := by
  obtain ⟨depths, script, assembly, hgenerated⟩ := CodeGeneration.exists_generated h
  have hoffsets := hgenerated.offsets_nodup
  have htargets : ∀ placed ∈ machine.code, ∀ mark, placed.instr.target? = some mark →
      ∃ offset, placed.target = some offset ∧ machine.labels.lookup offset = some mark.name := by
    intro placed hplaced mark hmark
    rw [hgenerated.code_eq] at hplaced
    obtain ⟨offset, hoffset, hentry⟩ := hgenerated.mem_labels_of_target hplaced hmark
    exact ⟨offset, hoffset, lookup_of_mem hoffsets hentry⟩
  refine ⟨hgenerated.single_name, hoffsets, hgenerated.names_nodup, htargets, ?_, ?_⟩
  · refine fun placed hplaced => Listing.text_congr fun mark hmark => ?_
    obtain ⟨offset, hoffset, hlookup⟩ := htargets placed hplaced mark hmark
    rw [hoffset]
    exact Listing.symbol_of_lookup hlookup
  · intro debug hsource name hname
    obtain ⟨entry, hentry, rfl⟩ := Listing.mem_labels_of_reference htargets
      (fun _ => hgenerated.mem_labels_of_function) hname
    exact Listing.count_textLines hgenerated hsource hentry

/-- The program jumps also where control does not come, to an operation that control reaches and out of the
program. Of its labels all but those of seven operations have a name. -/
theorem Program.compile_names_branches_unreached :
    let program : Program :=
      { ops := #[.push 6, .push 3, .binary (.arith .div), .print .int, .jump 5, .push 0, .exit, .jump 2, .jump 99]
        lines := #[1, 1, 1, 1, 2, 3, 3, 4, 4]
        marks := #[⟨"done", 5⟩] }
    let options : CodeOptions := { stackBased := false, entryPoint := true }
    ∃ machine, program.compile options = .ok machine ∧ machine.code.marks.length = machine.labels.length + 7 ∧
      (machine.labels.map Prod.fst).Nodup ∧ (machine.labels.map Prod.snd).Nodup ∧
      (∃ placed ∈ machine.code, ∃ offset, placed.target = some offset ∧
        machine.labels.lookup offset = some (CodeLabel.name (.op 5))) ∧
      ∀ name ∈ Listing.references machine,
        (Listing.textLines (machine.listing true)).count (Listing.definition name) = 1 := by
  intro program options
  have hcompiles : (program.compile options).toOption.any (fun machine =>
      decide (machine.code.marks.length = machine.labels.length + 7 ∧
        (∃ placed ∈ machine.code, placed.instr.target? = some (.op 5)) ∧
        machine.sourceLabels.map Prod.fst = ["done"])) = true := by decide +kernel
  obtain ⟨machine, hcompile, hmachine⟩ := exists_ok_of_any hcompiles
  obtain ⟨hlength, ⟨placed, hplaced, hmark⟩, hsource⟩ := of_decide_eq_true hmachine
  obtain ⟨-, hoffsets, hnames, htargets, -, htext⟩ := Program.compile_names_branches hcompile
  refine ⟨machine, hcompile, hlength, hoffsets, hnames, ⟨placed, hplaced, htargets placed hplaced _ hmark⟩, ?_⟩
  refine htext true fun _ source hmem => ?_
  have hname : source.1 ∈ ["done"] := hsource ▸ List.mem_map_of_mem hmem
  rw [List.mem_singleton.mp hname]
  decide

/-- A source label that breaks its line can define a name once more. -/
theorem Program.label_breaks_line :
    let program : Program :=
      { ops := #[.push 0, .exit], lines := #[1, 1], marks := #[⟨"a\nmain:", 0⟩] }
    ∃ machine, program.compile {} = .ok machine ∧ "main" ∈ Listing.references machine ∧
      2 ≤ (Listing.textLines (machine.listing true)).count (Listing.definition "main") := by
  intro program
  have hcompiles : (program.compile {}).toOption.any (fun machine =>
      decide (machine.functions.map Function.name = ["main"] ∧
        ∃ placed ∈ machine.code, placed.mark = some (.op 0) ∧ placed.offset < machine.codeSize ∧
          machine.sourceLabels = [("a\nmain:", placed.offset)])) = true := by decide +kernel
  obtain ⟨machine, hcompile, hmachine⟩ := exists_ok_of_any hcompiles
  obtain ⟨hfunctions, placed, hplaced, hmark, hcode, hsource⟩ := of_decide_eq_true hmachine
  have hmain : "main" ∈ machine.functions.map Function.name := hfunctions ▸ List.mem_singleton_self _
  refine ⟨machine, hcompile, List.mem_append_right _ hmain, ?_⟩
  have hdefinition : Listing.definition "main" ∈ X64.Listing.lines machine true := by
    obtain ⟨function, hfunction, hname⟩ := List.mem_map.mp hmain
    obtain ⟨depths, script, assembly, hgenerated⟩ := CodeGeneration.exists_generated hcompile
    have hentry := hgenerated.mem_labels_of_function hfunction
    rw [hname] at hentry
    refine List.count_pos_iff.mp (Nat.lt_of_lt_of_eq Nat.one_pos ?_)
    exact (Listing.count_definition hgenerated hentry).symm
  have hcomment : Listing.tabbed ("# label " ++ "a\nmain:") ∈ X64.Listing.lines machine true :=
    Listing.mem_lines_of_source hplaced hcode hmark (hsource ▸ List.mem_singleton_self _)
  exact Listing.two_le_count hdefinition hcomment (by decide) (by decide) (by decide)

end GotoLang
