import Mathlib.Data.Finset.Dedup
import TapeLang.Files.Tree
import TapeLang.Proofs.Defects
import TapeLang.Proofs.Layout
import TapeLang.Proofs.Longest

/-!
Directories of programs.

A directory is a set of entries, and a view of the file system may list them in any order.
Loading it gives one result for each entry that is a program file, in the order of the bytes of
their names (`FileView.exists_files`).  What is loaded from a file depends on its path and its
contents and on nothing else (`FileView.loaded_eq`), so no file can spoil another one.
-/

namespace TapeLang

/-- The name ends in a dot and a text without dots, and something comes before that dot. -/
def HasExtension (name ext : String) : Prop :=
  ∃ stem, stem ≠ [] ∧ '.' ∉ ext.toList ∧ name.toList = stem ++ '.' :: ext.toList

theorem hasExtension_of_extension? {name ext : String} (h : extension? name = some ext) :
    HasExtension name ext := by
  have hsplit := List.takeWhile_append_dropWhile (p := (· ≠ '.')) (l := name.toList.reverse)
  have hdots := Piece.of_mem_takeWhile (p := (· ≠ '.')) name.toList.reverse
  rw [extension?] at h
  split at h
  · next c more hdrop =>
    cases h
    rw [hdrop] at hsplit
    generalize name.toList.reverse.takeWhile (· ≠ '.') = back at hsplit hdots
    have hname : name.toList = (back ++ '.' :: c :: more).reverse := by
      rw [hsplit, List.reverse_reverse]
    refine ⟨(c :: more).reverse, by simp, ?_, ?_⟩
    · intro hdot
      rw [String.toList_ofList, List.mem_reverse] at hdot
      exact of_decide_eq_true (hdots '.' hdot) rfl
    · rw [hname, String.toList_ofList]
      simp
  · cases h

theorem extension?_eq_some_iff {name ext : String} :
    extension? name = some ext ↔ HasExtension name ext := by
  refine ⟨hasExtension_of_extension?, fun h => ?_⟩
  obtain ⟨stem, hstem, hdot, hname⟩ := h
  have hreversed : name.toList.reverse = ext.toList.reverse ++ '.' :: stem.reverse := by
    rw [hname]
    simp
  have hrun : ∀ c ∈ ext.toList.reverse, decide (c ≠ '.') = true := by
    intro c hc
    refine decide_eq_true ?_
    rintro rfl
    exact hdot (List.mem_reverse.mp hc)
  have hend : ∀ c ∈ ('.' :: stem.reverse).head?, decide (c ≠ '.') = false := by
    rintro c ⟨⟩
    rfl
  obtain ⟨c, more, hmore⟩ := List.exists_cons_of_ne_nil (mt List.reverse_eq_nil_iff.mp hstem)
  rw [hmore] at hreversed hend
  simp only [extension?, hreversed, Piece.dropWhile_run hrun hend, Piece.takeWhile_run hrun hend,
    List.reverse_reverse, String.ofList_toList]

theorem fromUTF8?_eq_some_iff {bytes : ByteArray} {text : String} :
    String.fromUTF8? bytes = some text ↔ bytes = text.toUTF8 := by
  constructor
  · intro h
    rw [String.fromUTF8?] at h
    split at h
    · cases h
      rfl
    · cases h
  · rintro rfl
    rw [String.fromUTF8?]
    exact dif_pos text.isValidUTF8

namespace FileView

/-- What loading gives for one file: its path and its automaton, or its own error. -/
def loaded (view : FileView) (path : String) : Except LoadError (String × Automaton) :=
  (view.loadProgram path).map (path, ·)

/-- What the contents of a file at a path give, by the reasons for it. -/
inductive Gives (path : String) :
    Except PathError ByteArray → Except LoadError (String × Automaton) → Prop
  | unreadable (cause : PathError) :
    Gives path (.error cause) (.error (.file (.unreadable path cause)))
  | notText {bytes : ByteArray} (h : ∀ text : String, bytes ≠ text.toUTF8) :
    Gives path (.ok bytes) (.error (.file (.unreadable path .notText)))
  | tooLarge {text : String} (h : 65536 < text.utf8ByteSize) :
    Gives path (.ok text.toUTF8) (.error (.file (.tooLarge path text.utf8ByteSize)))
  | wrong {text : String} {report : Report} (hs : text.utf8ByteSize ≤ 65536)
    (h : Program.compileText text = .error report) :
    Gives path (.ok text.toUTF8) (.error (.text report))
  | loaded {text : String} {a : Automaton} (hs : text.utf8ByteSize ≤ 65536)
    (h : Program.compileText text = .ok a) : Gives path (.ok text.toUTF8) (.ok (path, a))

theorem gives_loaded (view : FileView) (path : String) :
    Gives path (view.bytes path) (view.loaded path) := by
  rw [loaded, loadProgram, readSource]
  cases view.bytes path with
  | error cause => exact .unreadable cause
  | ok bytes =>
    cases htext : String.fromUTF8? bytes with
    | none =>
      rw [decodeSource, htext]
      refine .notText fun text h => ?_
      rw [fromUTF8?_eq_some_iff.mpr h] at htext
      cases htext
    | some text =>
      obtain rfl := fromUTF8?_eq_some_iff.mp htext
      rw [decodeSource, htext]
      dsimp only
      by_cases hs : text.utf8ByteSize > maxProgramSize
      · rw [if_pos hs]
        exact .tooLarge hs
      · rw [if_neg hs, compileSource]
        cases hc : Program.compileText text with
        | error report => exact .wrong (Nat.le_of_not_lt hs) hc
        | ok a => exact .loaded (Nat.le_of_not_lt hs) hc

/-! ## All files of a directory -/

/-- The directory can be read and holds the given entries, in whatever order they are listed. -/
structure Lists (view : FileView) (directory : String) (entries : Finset String) : Prop where
  present : view.present directory = true
  names : ∃ names : List String, view.entries directory = .ok (names.map .ok) ∧ names.Nodup ∧
    names.toFinset = entries

/-- An entry of a directory is a program if it is no directory and has the right extension. -/
def IsProgram (view : FileView) (directory name : String) : Prop :=
  view.isDirectory (joinPath directory name) = false ∧ HasExtension name "tml"

/-- The programs among the entries, in the order of the bytes of their names. -/
structure Files (view : FileView) (directory : String) (entries : Finset String)
    (files : List String) : Prop where
  sorted : files.Pairwise fun a b => Text.bytes a < Text.bytes b
  mem_iff : ∀ name, name ∈ files ↔ name ∈ entries ∧ view.IsProgram directory name

variable {view view' : FileView} {directory : String} {entries : Finset String}
  {files files' : List String}

/-- There is one way to list the programs. -/
theorem Files.eq (h : view.Files directory entries files)
    (h' : view.Files directory entries files') : files = files' := by
  have hsorted : ∀ {l : List String}, view.Files directory entries l → l.Pairwise (· < ·) :=
    fun h => h.sorted.imp Text.bytes_lt_iff.mp
  refine (hsorted h).eq_of_mem_iff (hsorted h') fun name => ?_
  rw [h.mem_iff, h'.mem_iff]

theorem entryNames_map_ok (names : List String) : entryNames (names.map .ok) = .ok names := by
  induction names with
  | nil => rfl
  | cons name names ih =>
    rw [List.map_cons, entryNames, ih]
    rfl

/-- The first entry that cannot be read is all that is told of the others. -/
theorem entryNames_append_error (names : List String) (cause : PathError)
    (more : List (Except PathError String)) :
    entryNames (names.map .ok ++ .error cause :: more) = .error (.unreadableEntry cause) := by
  induction names with
  | nil => rfl
  | cons name names ih =>
    rw [List.map_cons, List.cons_append, entryNames, ih]
    rfl

theorem names_of_entries {listed : List (Except PathError String)}
    (hpresent : view.present directory = true) (h : view.entries directory = .ok listed) :
    view.names directory = entryNames listed := by
  rw [names, if_pos hpresent, h]

/-- A directory that cannot be listed to its end gives no program. -/
theorem loadPrograms_of_unreadable_entry {names : List String} {cause : PathError}
    {more : List (Except PathError String)} (hpresent : view.present directory = true)
    (h : view.entries directory = .ok (names.map .ok ++ .error cause :: more)) :
    view.loadPrograms directory = [.error (.file (.unreadableEntry cause))] := by
  rw [loadPrograms, names_of_entries hpresent h, entryNames_append_error]

/-- Names that differ are in strict order once they are sorted. -/
theorem mergeSort_ascending {names : List String} (h : names.Nodup) :
    names.mergeSort.Pairwise (· < ·) := by
  have hle : names.mergeSort.Pairwise fun a b => decide (a ≤ b) = true := by
    apply List.pairwise_mergeSort
    · intro a b c hab hbc
      exact decide_eq_true (String.le_trans (of_decide_eq_true hab) (of_decide_eq_true hbc))
    · intro a b
      rw [Bool.or_eq_true, decide_eq_true_iff, decide_eq_true_iff]
      exact String.le_total a b
  have hne : names.mergeSort.Pairwise (· ≠ ·) := (names.mergeSort_perm _).nodup_iff.mpr h
  apply (hle.and hne).imp
  intro a b hab
  by_contra hlt
  exact hab.2 (String.le_antisymm (of_decide_eq_true hab.1) (String.not_lt.mp hlt))

theorem exists_files (h : view.Lists directory entries) :
    ∃ files, view.Files directory entries files ∧
      view.loadPrograms directory =
        files.map fun name => view.loaded (joinPath directory name) := by
  obtain ⟨names, hnames, hnodup, rfl⟩ := h.names
  refine ⟨names.mergeSort.filter fun name =>
    !view.isDirectory (joinPath directory name) && extension? name = some programExtension,
    ⟨?_, fun name => ?_⟩, ?_⟩
  · exact ((mergeSort_ascending hnodup).filter _).imp Text.bytes_lt_iff.mpr
  · rw [List.mem_filter, List.mem_mergeSort, List.mem_toFinset, Bool.and_eq_true, Bool.not_eq_true',
      decide_eq_true_iff, extension?_eq_some_iff]
    exact Iff.rfl
  · rw [loadPrograms, names_of_entries h.present hnames, entryNames_map_ok]
    dsimp only
    rw [programPaths, List.map_map]
    rfl

theorem Files.of_isDirectory_eq (h : view.Files directory entries files)
    (hdirs : ∀ name ∈ entries, view'.isDirectory (joinPath directory name) =
      view.isDirectory (joinPath directory name)) :
    view'.Files directory entries files := by
  refine ⟨h.sorted, fun name => ?_⟩
  rw [h.mem_iff]
  refine and_congr_right fun hname => ?_
  rw [IsProgram, IsProgram, hdirs name hname]

/-- What a file gives does not depend on any other file. -/
theorem loaded_eq {path : String} (h : view'.bytes path = view.bytes path) :
    view'.loaded path = view.loaded path := by
  rw [loaded, loadProgram, readSource, h]
  rfl

/-- Loading a directory gives one result for each of its programs, in the order of the bytes of
their names, and each result comes from the contents of its own file.  Another view of the
directory, in which the entries are listed in another order or some files have other contents,
gives its results for the same files in the same order, and the same results wherever the contents
are the same. -/
theorem loadPrograms_of_lists (h : view.Lists directory entries) :
    ∃ files : List String, files.Pairwise (fun a b => Text.bytes a < Text.bytes b) ∧
      (∀ name, name ∈ files ↔ name ∈ entries ∧
        view.isDirectory (joinPath directory name) = false ∧ HasExtension name "tml") ∧
      view.loadPrograms directory =
        files.map (fun name => view.loaded (joinPath directory name)) ∧
      (∀ path, Gives path (view.bytes path) (view.loaded path)) ∧
      ∀ view' : FileView, view'.Lists directory entries →
        (∀ name ∈ entries, view'.isDirectory (joinPath directory name) =
          view.isDirectory (joinPath directory name)) →
        view'.loadPrograms directory =
          files.map (fun name => view'.loaded (joinPath directory name)) ∧
        (∀ path, view'.bytes path = view.bytes path → view'.loaded path = view.loaded path) ∧
        ((∀ name ∈ entries, view'.bytes (joinPath directory name) =
          view.bytes (joinPath directory name)) →
          view'.loadPrograms directory = view.loadPrograms directory) := by
  obtain ⟨files, hfiles, hload⟩ := exists_files h
  refine ⟨files, hfiles.sorted, hfiles.mem_iff, hload, view.gives_loaded, ?_⟩
  intro view' h' hdirs
  obtain ⟨files', hfiles', hload'⟩ := exists_files h'
  obtain rfl := hfiles'.eq (hfiles.of_isDirectory_eq hdirs)
  refine ⟨hload', fun path => loaded_eq, fun hbytes => ?_⟩
  rw [hload, hload']
  refine List.map_congr_left fun name hname => ?_
  exact loaded_eq (hbytes name ((hfiles.mem_iff name).mp hname).1)

end FileView

/-- A directory with two programs, one of which is no text, a name that is all extension, a file
of another kind and a directory with the name of a program. -/
def FileTree.shelf : FileTree where
  files := [(["d", "two.tml"], "alphabet = \x7ba\x7d module m \x7b accept \x7d".toUTF8),
    (["d", ".tml"], "".toUTF8), (["d", "one.tml"], .mk #[255]), (["d", "notes.txt"], "".toUTF8)]
  directories := [["d", "zero.tml"]]

namespace FileView

def shelfNames : List String := ["two.tml", ".tml", "one.tml", "notes.txt", "zero.tml"]

theorem lists_shelf : FileTree.shelf.view.Lists "d" shelfNames.toFinset :=
  ⟨by decide +kernel, shelfNames, by decide +kernel, by decide, rfl⟩

theorem files_shelf :
    FileTree.shelf.view.Files "d" shelfNames.toFinset ["one.tml", "two.tml"] := by
  have hkinds : ∀ name ∈ shelfNames, name ∈ ["one.tml", "two.tml"] ↔
      FileTree.shelf.view.isDirectory (joinPath "d" name) = false ∧
        extension? name = some "tml" := by
    decide +kernel
  have hsubset : ∀ name ∈ ["one.tml", "two.tml"], name ∈ shelfNames := by decide
  refine ⟨by decide +kernel, fun name => ?_⟩
  rw [List.mem_toFinset, IsProgram, ← extension?_eq_some_iff]
  constructor
  · intro h
    exact ⟨hsubset name h, (hkinds name (hsubset name h)).mp h⟩
  · intro h
    exact (hkinds name h.1).mpr h.2

def shelfBackwards : FileView :=
  { FileTree.shelf.view with
    entries := fun path => (FileTree.shelf.entries path).map List.reverse }

theorem lists_shelfBackwards : shelfBackwards.Lists "d" shelfNames.toFinset :=
  ⟨by decide +kernel, shelfNames.reverse, by decide +kernel, by decide, List.toFinset_reverse⟩

theorem loadPrograms_shelf :
    FileTree.shelf.view.Lists "d" shelfNames.toFinset ∧
    (∃ a, FileTree.shelf.view.loadPrograms "d" =
      [.error (.file (.unreadable "d/one.tml" .notText)), .ok ("d/two.tml", a)]) ∧
    shelfBackwards.loadPrograms "d" = FileTree.shelf.view.loadPrograms "d" := by
  obtain ⟨files, hsorted, hmem, hload, -, hother⟩ := loadPrograms_of_lists lists_shelf
  obtain rfl := Files.eq ⟨hsorted, hmem⟩ files_shelf
  refine ⟨lists_shelf, ?_, ?_⟩
  · have hone : FileTree.shelf.view.loaded "d/one.tml" =
        .error (.file (.unreadable "d/one.tml" .notText)) := by
      decide +kernel
    obtain ⟨a, ha⟩ : ∃ a, FileTree.shelf.view.loadProgram "d/two.tml" = .ok a :=
      exists_eq_ok (by decide +kernel)
    have htwo : FileTree.shelf.view.loaded "d/two.tml" = .ok ("d/two.tml", a) := by
      rw [loaded, ha]
      rfl
    exact ⟨a, by rw [hload, ← hone, ← htwo]; rfl⟩
  · exact (hother shelfBackwards lists_shelfBackwards fun _ _ => rfl).2.2 fun _ _ => rfl

end FileView

end TapeLang
