import GotoLang.Files
import GotoLang.Proofs.Faults
import Mathlib.Logic.Basic

/-!
# Files

What writing and deleting files does to contents, to directories and to what paths lead to. A file that is
created lies in a directory that was there, so paths lead where they led before, and a new file that is deleted
again leaves no trace.
-/
namespace GotoLang.Files

section
variable {files files' : Files} {place other directory : Place} {content content' : Bytes} {name : String}

theorem lookup_cons_eq (key : Place) (value : Bytes) (entries : List (Place × Bytes)) :
    ((key, value) :: entries).lookup other = if other = key then some value else entries.lookup other := by
  rw [List.lookup_cons]
  by_cases h : other = key
  · rw [if_pos h, beq_iff_eq.mpr h]
  · rw [if_neg h, beq_eq_false_iff_ne.mpr h]

theorem content?_eq_none_iff : files.content? place = none ↔ ∀ entry ∈ files.entries, entry.1 ≠ place := by
  simp only [content?, List.lookup_eq_none_iff, bne_iff_ne, ne_comm]

theorem lookup_set_of_ne (h : other ≠ place) (entries : List (Place × Bytes)) :
    (put.set place content entries).lookup other = entries.lookup other := by
  induction entries with
  | nil => rw [put.set, lookup_cons_eq, if_neg h]
  | cons entry entries ih =>
      obtain ⟨key, old⟩ := entry
      rw [put.set]
      by_cases hkey : key = place
      · rw [if_pos hkey, lookup_cons_eq, lookup_cons_eq, hkey, if_neg h, if_neg h]
      · rw [if_neg hkey, lookup_cons_eq, lookup_cons_eq, ih]

theorem content?_put_of_ne (h : other ≠ place) : (files.put place content).content? other = files.content? other :=
  lookup_set_of_ne h files.entries

theorem set_set (entries : List (Place × Bytes)) :
    put.set place content' (put.set place content entries) = put.set place content' entries := by
  induction entries with
  | nil => simp [put.set]
  | cons entry entries ih =>
      obtain ⟨key, old⟩ := entry
      by_cases hkey : key = place <;> simp [put.set, hkey, ih]

theorem content?_put : (files.put place content).content? place = some content := by
  rw [content?, put]
  induction files.entries with
  | nil => rw [put.set, lookup_cons_eq, if_pos rfl]
  | cons entry entries ih =>
      obtain ⟨key, old⟩ := entry
      rw [put.set]
      by_cases hkey : key = place
      · rw [if_pos hkey, lookup_cons_eq, if_pos hkey.symm]
      · rw [if_neg hkey, lookup_cons_eq, if_neg (Ne.symm hkey), ih]

/-- Of two contents the second one stays. -/
theorem put_put : (files.put place content).put place content' = files.put place content' := by
  simp only [put, set_set]

theorem set_of_new {entries : List (Place × Bytes)} (h : ∀ entry ∈ entries, entry.1 ≠ place) :
    put.set place content entries = entries ++ [(place, content)] := by
  induction entries with
  | nil => rfl
  | cons entry entries ih =>
      obtain ⟨key, old⟩ := entry
      obtain ⟨hkey, hrest⟩ := List.forall_mem_cons.mp h
      rw [put.set, if_neg hkey, ih hrest]
      rfl

/-- A new file that is deleted again leaves no trace. -/
theorem remove_put (h : files.content? place = none) : (files.put place content).remove place = files := by
  have hnew := content?_eq_none_iff.mp h
  have hkept : files.entries.filter (·.1 ≠ place) = files.entries :=
    List.filter_eq_self.mpr fun entry hentry => decide_eq_true (hnew entry hentry)
  simp only [put, remove, set_of_new hnew, List.filter_append, hkept]
  simp

theorem mem_keys_set {entries : List (Place × Bytes)} :
    other ∈ (put.set place content entries).map Prod.fst ↔ other = place ∨ other ∈ entries.map Prod.fst := by
  induction entries with
  | nil => simp [put.set]
  | cons entry entries ih =>
      obtain ⟨key, old⟩ := entry
      rw [put.set]
      by_cases hkey : key = place
      · rw [if_pos hkey, hkey, List.map_cons, List.map_cons, List.mem_cons]
        exact or_self_left.symm
      · rw [if_neg hkey, List.map_cons, List.map_cons, List.mem_cons, List.mem_cons, ih]
        exact or_left_comm

theorem isDirectory_iff : files.isDirectory place = true ↔
    (∀ step ∈ place, step = up) ∨ place = [root] ∨ (∃ other ∈ files.directories, place <+: other) ∨
      ∃ other ∈ files.entries.map Prod.fst, place <+: other ∧ place ≠ other := by
  simp only [isDirectory, Bool.or_eq_true, decide_eq_true_eq, List.any_eq_true, List.all_eq_true,
    Bool.and_eq_true, List.isPrefixOf_iff_prefix, List.mem_map, or_assoc, exists_exists_and_eq_and]

/-- What lies above a directory is one. -/
theorem isDirectory_above (h : files.isDirectory place = true) (habove : other <+: place) :
    files.isDirectory other = true := by
  rw [isDirectory_iff] at h ⊢
  rcases h with h | rfl | ⟨below, hbelow, h⟩ | ⟨below, hbelow, h, hne⟩
  · exact .inl fun step hstep => h step (habove.mem hstep)
  · cases other with
    | nil => exact .inl fun _ hstep => absurd hstep List.not_mem_nil
    | cons step rest =>
        obtain ⟨rfl, hrest⟩ := List.cons_prefix_cons.mp habove
        rw [List.prefix_nil.mp hrest]
        exact .inr (.inl rfl)
  · exact .inr (.inr (.inl ⟨below, hbelow, habove.trans h⟩))
  · refine .inr (.inr (.inr ⟨below, hbelow, habove.trans h, ?_⟩))
    rintro rfl
    exact hne (h.eq_of_length_le habove.length_le)

theorem isDirectory_put_iff : (files.put place content).isDirectory other = true ↔
    files.isDirectory other = true ∨ other <+: place ∧ other ≠ place := by
  rw [isDirectory_iff, isDirectory_iff]
  simp only [put, mem_keys_set, or_and_right, exists_or, exists_eq_left, or_assoc]
  rw [or_comm (b := ∃ below, _)]

/-- A file in a directory makes no new directories. -/
theorem isDirectory_put (h : files.isDirectory directory = true) :
    (files.put (directory ++ [name]) content).isDirectory other = files.isDirectory other := by
  rw [Bool.eq_iff_iff, isDirectory_put_iff]
  constructor
  · rintro (hold | ⟨habove, hne⟩)
    · exact hold
    · exact isDirectory_above h ((List.prefix_concat_iff.mp habove).resolve_left hne)
  · exact .inl

/-- A path whose last step goes down leads to an entry of a directory. -/
theorem walk_concat {start : Place} {steps : List String} {step : String}
    (h : files.walk start (steps ++ [step]) = .ok place) :
    ∃ directory, files.isDirectory directory = true ∧ place = advance directory step := by
  induction steps generalizing start with
  | nil =>
      rw [List.nil_append, walk] at h
      split at h
      · next hdirectory =>
          cases h
          exact ⟨start, hdirectory, rfl⟩
      · cases h
  | cons first steps ih =>
      rw [List.cons_append, walk] at h
      split at h
      · exact ih h
      · cases h

theorem advance_of_not_special {path : Path} (h : path.isSpecial = false) :
    ∃ steps step, path.steps = steps ++ [step] ∧ ∀ directory, advance directory step = directory ++ [step] := by
  rw [Path.isSpecial] at h
  split at h
  · next step hlast =>
      obtain ⟨steps, hsteps⟩ := List.getLast?_eq_some_iff.mp hlast
      simp only [Bool.or_eq_false_iff, decide_eq_false_iff_not] at h
      refine ⟨steps, step, hsteps, fun directory => ?_⟩
      rw [advance, if_neg h.1, if_neg h.2]
  · cases h

/-- A file that is created lies in a directory. -/
theorem create_eq_ok {text : String} (h : files.create text = .ok (place, files')) :
    files.locate (Path.ofText text) = .ok place ∧ files' = files.put place #[] ∧
      ∃ directory name, files.isDirectory directory = true ∧ place = directory ++ [name] := by
  rw [create] at h
  obtain ⟨found, hlocate, h⟩ := except_bind_eq_ok.mp h
  split at h
  · cases h
  · next hfree =>
      cases h
      simp only [Bool.or_eq_true, not_or, Bool.not_eq_true] at hfree
      obtain ⟨steps, step, hsteps, hadvance⟩ := advance_of_not_special hfree.1.1
      have hwalk := hlocate
      rw [locate, hsteps] at hwalk
      split at hwalk
      · cases hwalk
      · obtain ⟨directory, hdirectory, rfl⟩ := walk_concat hwalk
        exact ⟨hlocate, rfl, directory, step, hdirectory, hadvance directory⟩

theorem isFree_iff : files.isFree place = true ↔ files.content? place = none ∧ files.isDirectory place = false := by
  rw [isFree, Bool.and_eq_true, Option.isNone_iff_eq_none, Bool.not_eq_true']

/-- Nothing lies below a free place. -/
theorem not_below_of_isFree (h : files.isFree place = true) (hbelow : place <+: other) :
    other ∉ files.directories ∧ other ∉ files.entries.map Prod.fst := by
  obtain ⟨hcontent, hdirectory⟩ := isFree_iff.mp h
  rw [Bool.eq_false_iff, Ne, isDirectory_iff] at hdirectory
  simp only [not_or, not_exists, not_and, ne_eq, not_not] at hdirectory
  obtain ⟨-, -, hdirectories, hentries⟩ := hdirectory
  refine ⟨fun hother => hdirectories other hother hbelow, fun hother => ?_⟩
  obtain rfl := hentries other hother hbelow
  obtain ⟨entry, hentry, rfl⟩ := List.mem_map.mp hother
  exact content?_eq_none_iff.mp hcontent entry hentry rfl

theorem content?_below_of_isFree (h : files.isFree place = true) (hbelow : place <+: other) :
    files.content? other = none :=
  content?_eq_none_iff.mpr fun _ hentry heq =>
    (not_below_of_isFree h hbelow).2 (heq ▸ List.mem_map_of_mem hentry)

theorem removeTree_of_isFree (h : files.isFree place = true) : files.removeTree place = files := by
  have hentries : ∀ entry ∈ files.entries, (!place.isPrefixOf entry.1) = true := by
    intro entry hentry
    rw [Bool.not_eq_true', Bool.eq_false_iff, Ne, List.isPrefixOf_iff_prefix]
    exact fun hbelow => (not_below_of_isFree h hbelow).2 (List.mem_map_of_mem hentry)
  have hdirectories : ∀ other ∈ files.directories, (!place.isPrefixOf other) = true := by
    intro other hother
    rw [Bool.not_eq_true', Bool.eq_false_iff, Ne, List.isPrefixOf_iff_prefix]
    exact fun hbelow => (not_below_of_isFree h hbelow).1 hother
  rw [removeTree, List.filter_eq_self.mpr hentries, List.filter_eq_self.mpr hdirectories]

theorem filter_set {p : Place × Bytes → Bool} (h : ∀ content, p (place, content) = false)
    (entries : List (Place × Bytes)) : (put.set place content entries).filter p = entries.filter p := by
  induction entries with
  | nil => simp [put.set, h]
  | cons entry entries ih =>
      obtain ⟨key, old⟩ := entry
      by_cases hkey : key = place
      · simp [put.set, hkey, h]
      · simp [put.set, hkey, ih, List.filter_cons]

/-- Of what is put into a directory nothing stays when it is deleted. -/
theorem removeTree_put (h : place <+: other) : (files.put other content).removeTree place = files.removeTree place := by
  simp only [removeTree, put]
  rw [filter_set fun _ => by simpa using List.isPrefixOf_iff_prefix.mpr h]

theorem removeTree_addDirectory : (files.addDirectory place).removeTree place = files.removeTree place := by
  simp [removeTree, addDirectory]

/-- Where a path leads to depends on directories only. -/
theorem locate_congr (h : ∀ place, files'.isDirectory place = files.isDirectory place) {path : Path} :
    files'.locate path = .ok place ↔ files.locate path = .ok place := by
  have hwalk : ∀ (steps : List String) (start : Place),
      files'.walk start steps = .ok place ↔ files.walk start steps = .ok place := by
    intro steps
    induction steps with
    | nil => exact fun _ => Iff.rfl
    | cons step steps ih =>
        intro start
        rw [walk, walk, h]
        split
        · exact ih _
        · exact ⟨nofun, nofun⟩
  rw [locate, locate]
  split
  · exact Iff.rfl
  · exact hwalk _ _

theorem read_eq_ok {text : String} : files.read text = .ok content ↔
    ∃ place, files.locate (Path.ofText text) = .ok place ∧ files.isDirectory place = false ∧
      files.content? place = some content ∧ (Path.ofText text).slash = false := by
  rw [read, except_bind_eq_ok]
  refine exists_congr fun place => and_congr_right fun _ => ?_
  cases hdirectory : files.isDirectory place with
  | true => exact ⟨nofun, nofun⟩
  | false =>
      cases hcontent : files.content? place with
      | none => exact ⟨nofun, nofun⟩
      | some found =>
          cases hslash : (Path.ofText text).slash with
          | true => exact ⟨nofun, nofun⟩
          | false =>
              constructor
              · intro h
                cases h
                exact ⟨rfl, rfl, rfl⟩
              · rintro ⟨-, h, -⟩
                cases h
                rfl

/-- A path has the content that the place has which it leads to. -/
theorem read_congr {text : String} (hdirectories : ∀ place, files'.isDirectory place = files.isDirectory place)
    (hcontent : ∀ place, files.locate (Path.ofText text) = .ok place → files'.content? place = files.content? place) :
    (files'.read text).toOption = (files.read text).toOption := by
  have hiff : ∀ content, files'.read text = .ok content ↔ files.read text = .ok content := by
    intro content
    simp only [read_eq_ok, locate_congr hdirectories, hdirectories]
    refine exists_congr fun place => and_congr_right fun hplace => ?_
    rw [hcontent place hplace]
  cases hread : files.read text with
  | ok content => rw [(hiff content).mpr hread]
  | error fault =>
      cases hread' : files'.read text with
      | ok content =>
          rw [(hiff content).mp hread'] at hread
          cases hread
      | error fault' => rfl

end

end GotoLang.Files
