import Mathlib.Algebra.GroupWithZero.Nat
import Mathlib.Data.List.Find
import Mathlib.Data.List.Nodup
import Mathlib.Data.Nat.Find
import TapeLang.Proofs.Transitions

/-!
Which programs compile, and how their states are labelled.

A label is the name of a module followed by a number, so two labels of one module differ
(`Label.ofIndex_inj`), but `m` with the number 10 and `m1` with the number 0 are one label.
The labels of a module are tried in order against those of the modules before it.  A program
that passes the checks therefore compiles exactly if no two of its modules share a label
(`Program.exists_compile_iff`), and otherwise the first repetition is reported
(`Program.compile_of_firstRepeat`).
-/

namespace TapeLang

namespace Table

variable {κ ν : Type} [LT κ] [DecidableEq κ]

omit [LT κ] in
/-- In a list with different keys the entry of a key is the only one with that key. -/
theorem find?_eq_some_of_nodup {l : List (κ × ν)} (h : (l.map (·.1)).Nodup) {k : κ} {v : ν} :
    find? k l = some v ↔ (k, v) ∈ l := by
  induction l with
  | nil => simp [find?]
  | cons e l ih =>
    obtain ⟨a, w⟩ := e
    obtain ⟨hnot, hnodup⟩ := List.nodup_cons.mp h
    rw [find?, List.mem_cons, Prod.mk.injEq]
    by_cases ha : a = k
    · subst ha
      have hno : (a, v) ∉ l := fun hm => hnot (List.mem_map_of_mem (f := (·.1)) hm)
      simp [hno, eq_comm]
    · rw [if_neg ha, ih hnodup]
      simp [Ne.symm ha]

variable [KeyOrder κ]

/-- The entries of a table are those of any list that it answers from. -/
theorem entries_perm {t : Table κ ν} {l : List (κ × ν)} (hl : l.Nodup)
    (h : ∀ k v, t.get? k = some v ↔ (k, v) ∈ l) : t.entries.Perm l := by
  have hentries : t.entries.Nodup := t.sorted.imp fun {a b} hlt heq => by
    subst heq
    exact KeyOrder.irrefl _ hlt
  refine (List.perm_ext_iff_of_nodup hentries hl).mpr fun e => ?_
  obtain ⟨k, v⟩ := e
  rw [mem_entries_iff, h]

theorem length_ofList [DecidableLT κ] {l : List (κ × ν)} (h : (l.map (·.1)).Nodup) :
    (ofList l).entries.length = l.length := by
  refine (entries_perm (List.Nodup.of_map _ h) fun k v => ?_).length_eq
  rw [get?_ofList h, find?_eq_some_of_nodup h]

theorem contains_insert [DecidableLT κ] {t : Table κ ν} {k j : κ} {v : ν} (h : k ≠ j) :
    (t.insert k v).contains j = t.contains j := by
  rw [contains, contains, get?_insert, if_neg h]

end Table

theorem Label.ofIndex_inj {name : String} {i j : Nat} :
    Label.ofIndex name i = Label.ofIndex name j ↔ i = j := by
  refine ⟨fun h => ?_, congrArg _⟩
  have hdigits : Nat.toDigits 10 i = Nat.toDigits 10 j := by
    have hrepr : Nat.repr i = Nat.repr j := (String.append_right_inj name).mp h
    rw [← Nat.toList_repr, ← Nat.toList_repr, hrepr]
  calc i = Nat.ofDigitChars 10 (Nat.toDigits 10 i) 0 :=
        Nat.ofDigitChars_ten_toDigits.symm
    _ = Nat.ofDigitChars 10 (Nat.toDigits 10 j) 0 := by rw [hdigits]
    _ = j := Nat.ofDigitChars_ten_toDigits

namespace Module

/-- How many blocks a module has, those inside its cases included. -/
def size (m : Module) : Nat := Block.totalSize m.blocks

def label (m : Module) (i : Nat) : Label := .ofIndex m.name.value i

def labels (m : Module) : List Label := (List.range m.size).map m.label

theorem length_points (m : Module) : m.points.length = m.size := Block.length_points m [] m.blocks

theorem mem_labels {m : Module} {l : Label} : l ∈ m.labels ↔ ∃ i < m.size, l = m.label i := by
  simp [labels, eq_comm]

theorem nodup_labels (m : Module) : m.labels.Nodup :=
  List.nodup_range.map fun _ _ h => Label.ofIndex_inj.mp h

theorem length_states (m : Module) : m.states.length = m.size := by
  rw [states, List.length_map, List.length_zipIdx, Block.length_lowerAll, size]

/-- The states of a module stand in the order of their numbers. -/
theorem map_fst_states (m : Module) : m.states.map (·.1) = m.labels := by
  have hlength : (Block.lowerAll m.name.value 0 m.blocks).length = m.size :=
    Block.length_lowerAll ..
  rw [states, labels, ← hlength, List.range_eq_range', ← List.zipIdx_map_snd 0, List.map_map,
    List.map_map]
  rfl

def Apart (m m' : Module) : Prop := ∀ label ∈ m.labels, label ∉ m'.labels

theorem Apart.symm {m n : Module} (h : m.Apart n) : n.Apart m :=
  fun label hn hm => h label hm hn

end Module

namespace Program

/-! ## Building the table -/

/-- Entries with different labels are added, or the first label that the table has is
reported. -/
theorem define_eq {m : Module} {l : List (Label × State)} (hl : (l.map (·.1)).Nodup)
    (t : Table Label State) :
    define m t l = match (l.map (·.1)).find? t.contains with
      | some label => .error ⟨.repeatedLabel label, m.name.span⟩
      | none => .ok (l.foldl (fun t e => t.insert e.1 e.2) t) := by
  induction l generalizing t with
  | nil => rfl
  | cons e l ih =>
    obtain ⟨label, state⟩ := e
    obtain ⟨hnot, hnodup⟩ := List.nodup_cons.mp hl
    rw [define, List.map_cons, List.find?_cons]
    by_cases hc : t.contains label
    · rw [if_pos hc, hc]
    · have hsame : (l.map (·.1)).find? (t.insert label state).contains =
          (l.map (·.1)).find? t.contains :=
        List.find?_congr fun x hx => Table.contains_insert fun heq => hnot (heq ▸ hx)
      rw [if_neg hc, ih hnodup, hsame, Bool.eq_false_iff.mpr hc]
      rfl

theorem exists_define_eq_ok {m : Module} {t : Table Label State}
    (h : ∀ label ∈ m.labels, ¬ t.contains label) : ∃ t', define m t m.states = .ok t' := by
  have hnone : (m.states.map (·.1)).find? t.contains = none := by
    rw [m.map_fst_states]
    exact List.find?_eq_none.mpr h
  rw [define_eq (m.map_fst_states ▸ m.nodup_labels), hnone]
  exact ⟨_, rfl⟩

theorem define_eq_error {m : Module} {t : Table Label State} {i : Nat} (hi : i < m.size)
    (h : t.contains (m.label i)) (hleast : ∀ j < i, ¬ t.contains (m.label j)) :
    define m t m.states = .error ⟨.repeatedLabel (m.label i), m.name.span⟩ := by
  have hsome : (m.states.map (·.1)).find? t.contains = some (m.label i) := by
    rw [m.map_fst_states, Module.labels, List.find?_map, List.find?_range_eq_some.mpr]
    · rfl
    · exact ⟨h, List.mem_range.mpr hi, fun j hj => by simpa using hleast j hj⟩
  rw [define_eq (m.map_fst_states ▸ m.nodup_labels), hsome]

def defineAll (ms : List Module) : Except Report (Table Label State) :=
  ms.foldlM (fun t m => define m t m.states) Table.empty

theorem contains_of_defineAll {ms : List Module} {t : Table Label State}
    (h : defineAll ms = .ok t) {label : Label} :
    t.contains label ↔ ∃ m ∈ ms, label ∈ m.labels := by
  have hlabels : ∀ m : Module, label ∈ m.labels ↔ ∃ state, (label, state) ∈ m.states := by
    intro m
    simp [← m.map_fst_states]
  rw [Table.contains_iff]
  simp only [foldlM_define_eq_ok h, Table.get?_empty, hlabels]
  grind

theorem defineAll_concat (ms : List Module) (m : Module) :
    defineAll (ms ++ [m]) = (defineAll ms).bind fun t => define m t m.states := by
  rw [defineAll, List.foldlM_append, ← defineAll]
  cases defineAll ms with
  | error e => rfl
  | ok t =>
    show define m t m.states >>= _ = define m t m.states
    cases define m t m.states <;> rfl

theorem exists_defineAll_eq_ok {ms : List Module} (h : ms.Pairwise Module.Apart) :
    ∃ t, defineAll ms = .ok t := by
  induction ms using List.reverseRecOn with
  | nil => exact ⟨_, rfl⟩
  | append_singleton ms m ih =>
    obtain ⟨hms, -, hm⟩ := List.pairwise_append.mp h
    obtain ⟨t, ht⟩ := ih hms
    rw [defineAll_concat, ht]
    refine exists_define_eq_ok fun label hlabel hc => ?_
    obtain ⟨m', hm', hlabel'⟩ := (contains_of_defineAll ht).mp hc
    exact hm m' hm' m (List.mem_singleton_self m) label hlabel' hlabel

def Collides (p : Program) : Prop :=
  ∃ (k l : Nat) (m m' : Module), k ≠ l ∧ p.modules[k]? = some m ∧ p.modules[l]? = some m' ∧
    ∃ i < m.size, ∃ j < m'.size, m.label i = m'.label j

/-- The module with number `k` repeats, with its label number `i`, a label of a module before
it. -/
def RepeatsAt (p : Program) (k i : Nat) : Prop :=
  ∃ m, p.modules[k]? = some m ∧ i < m.size ∧ ∃ m' ∈ p.modules.take k, m.label i ∈ m'.labels

/-- The first repetition: no module before repeats a label, and this one none before. -/
structure FirstRepeat (p : Program) (k i : Nat) : Prop where
  repeats : p.RepeatsAt k i
  module : ∀ k' < k, ∀ j, ¬ p.RepeatsAt k' j
  index : ∀ j < i, ¬ p.RepeatsAt k j

theorem collides_iff {p : Program} : p.Collides ↔ ∃ k i, p.RepeatsAt k i := by
  -- of two modules that share a label, the later one repeats it
  have hlater : ∀ {k l : Nat} {m m' : Module} {i j : Nat}, l < k → p.modules[k]? = some m →
      p.modules[l]? = some m' → i < m.size → j < m'.size → m.label i = m'.label j →
        p.RepeatsAt k i := by
    intro k l m m' i j hlt hm hm' hi hj heq
    refine ⟨m, hm, hi, m', ?_, Module.mem_labels.mpr ⟨j, hj, heq⟩⟩
    exact List.mem_of_getElem? (by rwa [List.getElem?_take_of_lt hlt])
  constructor
  · intro h
    obtain ⟨k, l, m, m', hne, hm, hm', i, hi, j, hj, heq⟩ := h
    rcases Nat.lt_or_gt_of_ne hne with hlt | hlt
    · exact ⟨l, j, hlater hlt hm' hm hj hi heq.symm⟩
    · exact ⟨k, i, hlater hlt hm hm' hi hj heq⟩
  · intro h
    obtain ⟨k, i, m, hm, hi, m', hm', hlabel⟩ := h
    obtain ⟨j, hj, heq⟩ := Module.mem_labels.mp hlabel
    obtain ⟨l, hl⟩ := List.mem_iff_getElem?.mp hm'
    have hlt : l < k := (List.getElem?_eq_some_iff.mp hl).1.trans_le (List.length_take_le ..)
    rw [List.getElem?_take_of_lt hlt] at hl
    exact ⟨k, l, m, m', Nat.ne_of_gt hlt, hm, hl, i, hi, j, hj, heq⟩

theorem Collides.exists_first {p : Program} (h : p.Collides) : ∃ k i, p.FirstRepeat k i := by
  classical
  have hk := collides_iff.mp h
  have hi := Nat.find_spec hk
  exact ⟨Nat.find hk, Nat.find hi, Nat.find_spec hi,
    fun k' hk' j hj => Nat.find_min hk hk' ⟨j, hj⟩, fun j hj => Nat.find_min hi hj⟩

/-- Modules that repeat no label have none in common. -/
theorem pairwise_apart {p : Program} {n : Nat} (h : ∀ k < n, ∀ i, ¬ p.RepeatsAt k i) :
    (p.modules.take n).Pairwise Module.Apart := by
  refine List.pairwise_iff_getElem.mpr fun l k hl hk hlt label hlabel hlabel' => ?_
  obtain ⟨i, hi, heq⟩ := Module.mem_labels.mp hlabel'
  have hkn : k < n := hk.trans_le (List.length_take_le ..)
  refine h k hkn i ⟨_, ?_, hi, (p.modules.take n)[l], ?_, heq ▸ hlabel⟩
  · rw [← List.getElem?_take_of_lt hkn, List.getElem?_eq_getElem hk]
  · refine List.mem_of_getElem? (i := l) ?_
    rw [List.getElem?_take_of_lt hlt, ← List.getElem?_take_of_lt (hlt.trans hkn),
      List.getElem?_eq_getElem hl]

/-- No label is repeated exactly if no two modules have one in common. -/
theorem not_collides_iff {p : Program} : ¬ p.Collides ↔ p.modules.Pairwise Module.Apart := by
  constructor
  · intro h
    have happart := pairwise_apart (p := p) (n := p.modules.length) fun k _ i hrepeat =>
      h (collides_iff.mpr ⟨k, i, hrepeat⟩)
    rwa [List.take_length] at happart
  · intro h hcollides
    obtain ⟨k, i, m, hm, hi, m', hm', hlabel⟩ := collides_iff.mp hcollides
    have hsplit : p.modules = p.modules.take k ++ p.modules.drop k :=
      (List.take_append_drop k _).symm
    rw [hsplit] at h
    have hdrop : m ∈ p.modules.drop k :=
      List.mem_of_getElem? (i := 0) (by rwa [List.getElem?_drop, Nat.add_zero])
    have happart := (List.pairwise_append.mp h).2.2 m' hm' m hdrop
    exact happart _ hlabel (Module.mem_labels.mpr ⟨i, hi, rfl⟩)

theorem compile_eq {p : Program} (hc : p.check = .ok ()) {first : Module} {more : List Module}
    (hm : p.modules = first :: more) :
    p.compile = (defineAll p.modules).map fun states =>
      ⟨p.alphabet.values, first.label 0, states⟩ := by
  rw [compile, hc, hm]
  show (defineAll (first :: more) >>= _) = _
  cases defineAll (first :: more) <;> rfl

theorem check_of_compile {p : Program} {a : Automaton} (h : p.compile = .ok a) :
    p.check = .ok () := by
  cases hc : p.check with
  | ok u => rfl
  | error r =>
    rw [compile, hc] at h
    cases h

/-- A program whose modules have a label in common is refused at the first repetition. -/
theorem compile_of_firstRepeat {p : Program} (hc : p.check = .ok ()) {k i : Nat}
    (h : p.FirstRepeat k i) :
    ∃ m, p.modules[k]? = some m ∧
      p.compile = .error ⟨.repeatedLabel (m.label i), m.name.span⟩ := by
  obtain ⟨m, hm, hi, hrepeat⟩ := h.repeats
  obtain ⟨t, ht⟩ := exists_defineAll_eq_ok (pairwise_apart h.module)
  have hrepeats : ∀ j < m.size, p.RepeatsAt k j ↔ t.contains (m.label j) := by
    intro j hj
    rw [contains_of_defineAll ht]
    refine ⟨fun ⟨m', hm', _, h'⟩ => ?_, fun h' => ⟨m, hm, hj, h'⟩⟩
    rwa [Option.some.inj (hm'.symm.trans hm)] at h'
  have hdefine : define m t m.states = .error ⟨.repeatedLabel (m.label i), m.name.span⟩ :=
    define_eq_error hi ((hrepeats i hi).mp h.repeats) fun j hj =>
      mt (hrepeats j (hj.trans hi)).mpr (h.index j hj)
  have hsplit : p.modules = p.modules.take k ++ m :: p.modules.drop (k + 1) := by
    obtain ⟨hlt, rfl⟩ := List.getElem?_eq_some_iff.mp hm
    rw [← List.drop_eq_getElem_cons, List.take_append_drop]
  have hall : defineAll p.modules = .error ⟨.repeatedLabel (m.label i), m.name.span⟩ := by
    rw [hsplit, defineAll, List.foldlM_append, ← defineAll, ht]
    show (define m t m.states >>= _) = _
    rw [hdefine]
    rfl
  cases hms : p.modules with
  | nil => rw [hms] at hm; cases hm
  | cons first more =>
    rw [compile_eq hc hms, hall]
    exact ⟨m, hms ▸ hm, rfl⟩

theorem exists_compile_iff {p : Program} :
    (∃ a, p.compile = .ok a) ↔ p.check = .ok () ∧ p.modules ≠ [] ∧ ¬ p.Collides := by
  constructor
  · intro h
    obtain ⟨a, ha⟩ := h
    obtain ⟨first, more, hm, -⟩ := (compiled_of_compile ha).initial
    refine ⟨check_of_compile ha, hm ▸ List.cons_ne_nil first more, fun hcoll => ?_⟩
    obtain ⟨k, i, hfirst⟩ := hcoll.exists_first
    obtain ⟨m, -, herror⟩ := compile_of_firstRepeat (check_of_compile ha) hfirst
    rw [ha] at herror
    cases herror
  · intro h
    obtain ⟨hc, hne, hcoll⟩ := h
    obtain ⟨first, more, hm⟩ := List.exists_cons_of_ne_nil hne
    obtain ⟨t, ht⟩ := exists_defineAll_eq_ok (not_collides_iff.mp hcoll)
    rw [compile_eq hc hm, ht]
    exact ⟨_, rfl⟩

end Program

/-! ## The layout of the states -/

/-- The kind of state that a block becomes. -/
inductive Block.Becomes : Block → State → Prop
  | basic {block transition} : Becomes (.basic block) (.constant transition)
  | switch {cases span table}
    (h : table.entries.length = (cases.map fun c => c.symbols.length).sum) :
    Becomes (.switch cases span) (.variable table)

theorem Case.length_handled (cs : List Case) :
    (Case.handled cs).length = (cs.map fun c => c.symbols.length).sum := by
  simp [Case.handled, List.length_flatMap]

/-- The state of a block without faults knows every symbol that the block lists. -/
theorem Point.becomes {scope : Scope} {p : Point} (h : scope.blockProblems p.block = [])
    (i : Nat) : p.block.Becomes (p.state i) := by
  obtain ⟨m, place, b, bs⟩ := p
  cases b with
  | basic b => exact .basic
  | switch cases span =>
    have hcases : scope.casesProblems [] cases = [] := by rwa [Scope.blockProblems] at h
    have hnodup := fresh_nil_iff.mp (Scope.casesProblems_eq_nil.mp hcases).2
    have hkeys := Case.keys_entries m.name.value (.ofIndex m.name.value i) (i + 1) cases
    refine .switch ?_
    rw [Table.length_ofList (hkeys ▸ hnodup), ← Case.length_handled, ← hkeys, List.length_map]

namespace Program

/-- The states of an automaton are those of the blocks of a program: one for each block, under
the name of its module and its number in the order of the text. -/
structure Layout (p : Program) (a : Automaton) : Prop where
  labels : ∀ label, a.states.contains label ↔
    ∃ m ∈ p.modules, ∃ i < m.size, label = m.label i
  count : a.states.entries.length = (p.modules.map Module.size).sum
  states : ∀ m ∈ p.modules, ∀ i < m.size, ∃ point state, m.points[i]? = some point ∧
    a.states.get? (m.label i) = some state ∧ point.block.Becomes state

theorem Compiled.contains_iff {p : Program} {a : Automaton} (hc : p.Compiled a) (label : Label) :
    a.states.contains label ↔ ∃ m ∈ p.modules, ∃ i < m.size, label = m.label i := by
  simp only [← Module.mem_labels, Table.contains_iff, hc.get?_states, ← Module.map_fst_states,
    List.mem_map]
  grind

theorem Compiled.exists_state {p : Program} {a : Automaton} (hc : p.Compiled a) {m : Module}
    (hm : m ∈ p.modules) {i : Nat} (hi : i < m.size) :
    ∃ point state, m.points[i]? = some point ∧ a.states.get? (m.label i) = some state ∧
      point.block.Becomes state := by
  rw [← m.length_points] at hi
  have hpoint := List.getElem?_eq_getElem hi
  have hocc := Module.occurs_of_getElem? hpoint
  refine ⟨m.points[i], m.points[i].state i, hpoint, ?_,
    Point.becomes (hc.blockProblems_of_occurs hm hocc) i⟩
  exact (hc.get?_states _ _).mpr ⟨m, hm, Module.mem_states.mpr ⟨i, _, hpoint, rfl, rfl⟩⟩

theorem Compiled.length_entries {p : Program} {a : Automaton} (hc : p.Compiled a)
    (hcoll : ¬ p.Collides) : a.states.entries.length = (p.modules.map Module.size).sum := by
  have hlabels : (p.modules.flatMap Module.states).map (·.1) =
      p.modules.flatMap Module.labels := by
    rw [List.map_flatMap]
    exact List.flatMap_congr fun m _ => m.map_fst_states
  have hnodup : ((p.modules.flatMap Module.states).map (·.1)).Nodup := by
    rw [hlabels]
    exact List.nodup_flatMap.mpr ⟨fun m _ => m.nodup_labels, not_collides_iff.mp hcoll⟩
  have hperm := Table.entries_perm (List.Nodup.of_map _ hnodup) fun label state => by
    rw [hc.get?_states, List.mem_flatMap]
  rw [hperm.length_eq, List.length_flatMap]
  exact congrArg List.sum (List.map_congr_left fun m _ => m.length_states)

theorem layout_of_compile {p : Program} {a : Automaton} (h : p.compile = .ok a) :
    p.Layout a := by
  have hc := compiled_of_compile h
  have hcoll := (exists_compile_iff.mp ⟨a, h⟩).2.2
  exact ⟨hc.contains_iff, hc.length_entries hcoll, fun m hm i hi => hc.exists_state hm hi⟩

theorem diagnostic_repeatedLabel (label : Label) (span : Span) :
    Report.diagnostic ⟨.repeatedLabel label, span⟩ =
      ⟨.semantic, "The label \"" ++ label ++ "\" is defined more than once", span⟩ := by
  have hmessage : "The label " ++ ("\"" ++ label ++ "\"") ++ " is defined more than once" =
      "The label \"" ++ label ++ "\" is defined more than once" := by
    have hopen : "The label " ++ "\"" = "The label \"" := by simp
    have hclose : "\"" ++ " is defined more than once" = "\" is defined more than once" := by simp
    rw [← hopen, ← hclose]
    simp only [String.append_assoc]
  exact congrArg (Diagnostic.mk .semantic · span) hmessage

/-- A program compiles exactly if it passes the checks, has a module, and no two of its modules
have a label in common.  Its automaton then has one state for each block, labelled in the order
of the text.  If only the labels are at fault, the first one that is repeated is reported at the
name of the module that repeats it. -/
theorem compile_labelling (p : Program) :
    ((∃ a, p.compile = .ok a) ↔ p.check = .ok () ∧ p.modules ≠ [] ∧ ¬ p.Collides) ∧
    (∀ a, p.compile = .ok a → p.Layout a) ∧
    (p.check = .ok () → p.Collides → ∃ k i m report, p.FirstRepeat k i ∧
      p.modules[k]? = some m ∧ p.compile = .error report ∧ report.diagnostic =
        ⟨.semantic, "The label \"" ++ m.label i ++ "\" is defined more than once",
          m.name.span⟩) := by
  refine ⟨exists_compile_iff, fun a => layout_of_compile, fun hc hcoll => ?_⟩
  obtain ⟨k, i, hfirst⟩ := hcoll.exists_first
  obtain ⟨m, hm, herror⟩ := compile_of_firstRepeat hc hfirst
  exact ⟨k, i, m, _, hfirst, hm, herror, diagnostic_repeatedLabel _ _⟩

/-- A module `m` of `n` blocks and a module `m1` of one block. -/
def numbered (n : Nat) : Program :=
  let accept : Block := .basic ⟨none, none, some .accept, .emptyText⟩
  ⟨⟨[⟨'a', .emptyText⟩], .emptyText⟩,
    [⟨⟨"m", .emptyText⟩, List.replicate n accept, .emptyText⟩,
      ⟨⟨"m1", .emptyText⟩, [accept], .emptyText⟩]⟩

theorem compile_numbered :
    (∃ a, (numbered 10).compile = .ok a ∧ (numbered 10).Layout a) ∧
    (numbered 11).check = .ok () ∧ (numbered 11).Collides ∧
    ∃ k i m report, (numbered 11).FirstRepeat k i ∧ (numbered 11).modules[k]? = some m ∧
      (numbered 11).compile = .error report ∧ report.diagnostic =
        ⟨.semantic, "The label \"" ++ m.label i ++ "\" is defined more than once",
          m.name.span⟩ := by
  have hsome : (numbered 10).compile.toOption.isSome := by decide +kernel
  have hcheck : (numbered 11).check = .ok () := by decide +kernel
  have hcoll : (numbered 11).Collides :=
    ⟨0, 1, _, _, by decide, rfl, rfl, 10, by decide, 0, by decide, by decide⟩
  refine ⟨?_, hcheck, hcoll, (compile_labelling (numbered 11)).2.2 hcheck hcoll⟩
  cases ha : (numbered 10).compile with
  | error r => rw [ha] at hsome; cases hsome
  | ok a => exact ⟨a, rfl, (compile_labelling (numbered 10)).2.1 a ha⟩

end Program

end TapeLang
