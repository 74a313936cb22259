import Mathlib.Data.List.Infix
import Lox.Files

/-!
# Writing files

Writing a file where a path leads changes what is found there and nothing else.  Paths start from the root
or from a directory that stands on the disk (`Disk.Standing`).

* `Disk.resolve_write`: every path leads to the same place as before.
* `Disk.entry_write`: at that place the new text is found, and elsewhere what was found before.
* `Disk.resolve_extend`: a longer last name leads to a place beside the shorter one.
* `textOfBytes?_toUTF8`: a text without carriage returns is read back from its bytes.
-/

namespace Lox

theorem Path.extend_eq (root : String) (init : List String) (name ending : String) :
    Path.extend ⟨root, init ++ [name]⟩ ending = ⟨root, init ++ [name ++ ending]⟩ := by
  simp [Path.extend]

/-- A longer last name is a name. -/
theorem Path.parts_extend_ne_nil {p : Path} (h : p.parts ≠ []) (ending : String) :
    (p.extend ending).parts ≠ [] := by
  obtain ⟨root, parts⟩ := p
  obtain ⟨init, name, rfl⟩ := (List.eq_nil_or_concat' parts).resolve_left h
  rw [extend_eq]
  exact List.append_ne_nil_of_right_ne_nil _ (List.cons_ne_nil _ _)

namespace Disk

variable {d : Disk} {names : List String} {text : String}

/-! ### Places -/

/-- What is found at a place is a file, or else depends on whether the place is a directory. -/
theorem entryAt_congr {d' : Disk} (hlookup : d'.files.lookup names = d.files.lookup names)
    (hdir : d'.isDirectory names = d.isDirectory names) : d'.entryAt names = d.entryAt names := by
  unfold isDirectory entryAt at hdir
  unfold entryAt
  rw [hlookup] at hdir ⊢
  cases hl : d.files.lookup names with
  | some bytes => rfl
  | none =>
      rw [hl] at hdir
      dsimp only at hdir ⊢
      split_ifs at hdir ⊢ <;> simp_all

theorem isDirectory_iff_entryAt : d.isDirectory names ↔ d.entryAt names = .directory := by
  unfold isDirectory
  cases d.entryAt names <;> simp

/-- There is a directory where no file is, if paths start inside it or a file is. -/
theorem isDirectory_iff : d.isDirectory names ↔
    d.files.lookup names = none ∧ (names <+: d.here ∨ ∃ file ∈ d.files, names <+: file.1) := by
  unfold isDirectory entryAt
  cases d.files.lookup names with
  | some bytes => simp
  | none =>
      simp only [Bool.or_eq_true, List.any_eq_true, List.isPrefixOf_iff_prefix]
      split_ifs with h
      · simpa using h
      · simpa using h

/-- What was written is found. -/
theorem lookup_put_self : (d.put names text).files.lookup names = some text.toUTF8 := by
  simp [put]

/-- All other files are found as before. -/
theorem lookup_put_of_ne {other : List String} (h : other ≠ names) :
    (d.put names text).files.lookup other = d.files.lookup other := by
  have hne : (other == names) = false := by simpa using h
  simp only [put, List.lookup_cons, hne]
  induction d.files with
  | nil => rfl
  | cons file files ih =>
      obtain ⟨name, bytes⟩ := file
      by_cases hname : name = names
      · rw [List.filter_cons_of_neg (by simpa using hname), ih, List.lookup_cons, hname, hne]
      · rw [List.filter_cons_of_pos (by simpa using hname), List.lookup_cons, List.lookup_cons, ih]

/-- The directory where paths without a root start is there, and so is all that leads to it. -/
def Standing (d : Disk) : Prop := ∀ dir, dir <+: d.here → d.isDirectory dir

/-- A path leads through directories only. -/
def Through (d : Disk) : Target → Prop
  | .place names => ∀ dir, dir <+: names → dir ≠ names → d.isDirectory dir
  | _ => True

/-- One more part leads on through a directory or nowhere. -/
theorem through_follow {target : Target} (h : d.Through target) (part : String) :
    d.Through (d.follow target part) := by
  cases target with
  | place names =>
      rw [follow]
      split_ifs with hnames hup hlong
      · trivial
      · intro dir hdir hne
        refine h dir (hdir.trans names.dropLast_prefix) ?_
        rintro rfl
        -- only what is empty leads to its own front
        have hlength := hdir.length_le
        rw [List.length_dropLast] at hlength
        have hempty : dir = [] := List.length_eq_zero_iff.mp (by omega)
        rw [hempty] at hne
        exact hne rfl
      · trivial
      · intro dir hdir hne
        -- what leads to the new place is the old one, or leads there
        rcases List.prefix_concat_iff.mp hdir with heq | hdir
        · exact absurd heq hne
        · by_cases heq : dir = names
          · simpa [heq] using hnames
          · exact h dir hdir heq
  | nowhere | tooLong => trivial

/-- The place where a path starts is a directory, and so is all that leads to it. -/
theorem Standing.start (hs : d.Standing) (p : Path) {dir : List String} (h : dir <+: d.start p) :
    d.isDirectory dir := by
  refine hs dir ?_
  rw [Disk.start] at h
  split at h
  · exact h
  · rw [List.prefix_nil.mp h]
    exact List.nil_prefix

/-- Where a path leads, all places on the way are directories. -/
theorem isDirectory_of_resolve (hs : d.Standing) {p : Path} (h : d.resolve p = .place names)
    {dir : List String} (hdir : dir <+: names) (hne : dir ≠ names) : d.isDirectory dir := by
  have hthrough : ∀ (parts : List String) (target : Target), d.Through target →
      d.Through (parts.foldl d.follow target) := by
    intro parts
    induction parts with
    | nil => exact fun _ ht => ht
    | cons part parts ih => exact fun target ht => ih _ (through_follow ht part)
  unfold resolve at h
  split at h
  · cases h
  · split at h
    · cases h
    · have hend := hthrough p.parts (.place (d.start p)) fun dir hdir _ => hs.start p hdir
      rw [h] at hend
      exact hend dir hdir hne

/-! ### Writing -/

/-- A new file inside directories changes no directory. -/
theorem isDirectory_put (hfree : d.isDirectory names = false)
    (hway : ∀ dir, dir <+: names → dir ≠ names → d.isDirectory dir) (other : List String) :
    (d.put names text).isDirectory other = d.isDirectory other := by
  by_cases heq : other = names
  · subst heq
    rw [hfree, Bool.eq_false_iff, Ne, isDirectory_iff, lookup_put_self]
    simp
  · rw [Bool.eq_iff_iff, isDirectory_iff, isDirectory_iff, lookup_put_of_ne heq]
    refine and_congr_right fun _ => ⟨?_, ?_⟩
    · rintro (hhere | ⟨file, hfile, hother⟩)
      · exact .inl hhere
      · rcases List.mem_cons.mp hfile with rfl | hfile
        -- on the way to the new file stand directories that were there before
        · exact (isDirectory_iff.mp (hway other hother heq)).2
        · exact .inr ⟨file, (List.mem_filter.mp hfile).1, hother⟩
    · rintro (hhere | ⟨file, hfile, hother⟩)
      · exact .inl hhere
      · by_cases hname : file.1 = names
        · exact .inr ⟨(names, text.toUTF8), List.mem_cons_self, hname ▸ hother⟩
        · refine .inr ⟨file, List.mem_cons_of_mem _ (List.mem_filter.mpr ⟨hfile, ?_⟩), hother⟩
          simpa using hname

/-- Where a path leads depends on the directories only. -/
theorem resolve_congr {d' : Disk} (hhere : d'.here = d.here)
    (h : ∀ names, d'.isDirectory names = d.isDirectory names) (p : Path) :
    d'.resolve p = d.resolve p := by
  have hfollow : d'.follow = d.follow := by
    funext target part
    cases target with
    | place names => rw [follow, follow, h]
    | nowhere | tooLong => rfl
  have hstart : d'.start p = d.start p := by rw [start, start, hhere]
  unfold resolve
  rw [hfollow, hstart]

section

variable {p : Path} (hs : d.Standing) (hp : d.resolve p = .place names)
  (hfree : d.isDirectory names = false)

include hs hp hfree

/-- After a file was written every path leads to the same place as before. -/
theorem resolve_write (q : Path) : (d.write p text).resolve q = d.resolve q := by
  rw [write, hp]
  have hhere : (d.put names text).here = d.here := rfl
  exact resolve_congr hhere (isDirectory_put hfree fun _ => isDirectory_of_resolve hs hp) q

/-- **Writing a file where a path leads changes nothing but that file.** -/
theorem entry_write (q : Path) : (d.write p text).entry q =
    if d.resolve q = .place names then .file text.toUTF8 else d.entry q := by
  have hdir := @isDirectory_put d names text hfree fun _ => isDirectory_of_resolve hs hp
  have hresolve := @resolve_write d names text p hs hp hfree q
  rw [write, hp] at hresolve ⊢
  unfold entry
  rw [hresolve]
  cases hq : d.resolve q with
  | place other =>
      by_cases heq : other = names
      · rw [if_pos (congrArg _ heq), heq]
        dsimp only
        rw [entryAt, lookup_put_self]
      · rw [if_neg (by simpa using heq)]
        exact entryAt_congr (lookup_put_of_ne heq) (hdir other)
  | nowhere | tooLong => rfl

end

/-- A path that leads to a place goes through a directory last, and a longer name there is another
place, unless it is too long. -/
theorem follow_longer {target : Target} {name ending : String}
    (h : d.follow target name = .place names) (hending : 2 < ending.length) :
    d.follow target (name ++ ending) = .tooLong ∨
      ∃ beside, beside ≠ names ∧ d.follow target (name ++ ending) = .place beside := by
  cases target with
  | place dir =>
      have hup : name ++ ending ≠ ".." := by
        intro heq
        have hlength := congrArg String.length heq
        rw [String.length_append] at hlength
        have htwo : "..".length = 2 := rfl
        omega
      rw [follow] at h ⊢
      split at h
      · cases h
      · rename_i hdir
        rw [if_neg hdir, if_neg hup]
        split
        · exact .inl rfl
        · refine .inr ⟨_, ?_, rfl⟩
          -- a step up leads to fewer names, and a longer name is another one
          rintro rfl
          split_ifs at h
          · have hlength := congrArg List.length (Target.place.inj h)
            simp at hlength
          · have hname := List.append_cancel_left (Target.place.inj h)
            have hlength := congrArg String.length (List.cons.inj hname).1
            rw [String.length_append] at hlength
            omega
  | nowhere | tooLong => cases h

/-- The path of a file leads to a place by some name. -/
theorem resolve_of_entry_file {p : Path} {bytes : ByteArray} (hs : d.Standing)
    (h : d.entry p = .file bytes) : p.parts ≠ [] ∧ ∃ names, d.resolve p = .place names := by
  have hresolve : ∃ names, d.resolve p = .place names := by
    unfold entry at h
    cases hp : d.resolve p with
    | place names => exact ⟨names, rfl⟩
    | nowhere | tooLong =>
        rw [hp] at h
        cases h
  refine ⟨fun hparts => ?_, hresolve⟩
  obtain ⟨names, hnames⟩ := hresolve
  -- without a name it leads to the directory where it starts
  have hstart : names = d.start p := by
    unfold resolve at hnames
    rw [hparts, List.foldl_nil] at hnames
    split_ifs at hnames
    exact (Target.place.inj hnames).symm
  have hdir := isDirectory_iff_entryAt.mp (hs.start p List.prefix_rfl)
  have hentry : d.entry p = d.entryAt names := by rw [entry, hnames]
  rw [hentry, hstart, hdir] at h
  cases h

/-- Where a path leads to a place, the path with a longer last name leads to another one, unless
it becomes too long. -/
theorem resolve_extend {p : Path} (hp : d.resolve p = .place names) (hparts : p.parts ≠ [])
    {ending : String} (hending : 2 < ending.length) (hnul : '\x00' ∉ ending.toList) :
    d.resolve (p.extend ending) = .tooLong ∨
      ∃ beside, beside ≠ names ∧ d.resolve (p.extend ending) = .place beside := by
  obtain ⟨root, parts⟩ := p
  obtain ⟨init, name, rfl⟩ := (List.eq_nil_or_concat' parts).resolve_left hparts
  rw [Path.extend_eq]
  unfold resolve at hp ⊢
  split at hp
  · cases hp
  · rename_i hclean
    split at hp
    · cases hp
    · have hclean' : Path.hasNul ⟨root, init ++ [name ++ ending]⟩ = false := by
        simp_all [Path.hasNul]
      rw [if_neg (by simp [hclean'])]
      split
      · exact .inl rfl
      · rw [List.foldl_append, List.foldl_cons, List.foldl_nil] at hp ⊢
        exact follow_longer hp hending

end Disk

/-! ### Texts -/

/-- Without carriage returns there are no line ends to unify. -/
theorem unifyLinesFrom_eq {done cs : List Char} (h : '\r' ∉ cs) :
    unifyLinesFrom done cs = done.reverse ++ cs := by
  induction cs generalizing done with
  | nil => simp [unifyLinesFrom]
  | cons c cs ih =>
      rw [List.mem_cons, not_or] at h
      rw [unifyLinesFrom, ih h.2]
      · simp
      · rintro rest rfl
        exact absurd rfl h.1
      · rintro rfl
        exact absurd rfl h.1

/-- **A text without carriage returns is read back from its bytes.** -/
theorem textOfBytes?_toUTF8 {text : String} (h : '\r' ∉ text.toList) :
    textOfBytes? text.toUTF8 = some text := by
  have hbytes : String.fromUTF8? text.toUTF8 = some text := dif_pos text.isValidUTF8
  rw [textOfBytes?, hbytes, Option.map_some, unifyLines, unifyLinesFrom_eq h, List.reverse_nil,
    List.nil_append, String.ofList_toList]

end Lox
