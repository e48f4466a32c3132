import TapeLang.Proofs.Numbering

/-!
What the compiler returns.

The table of a compiled program holds the states of the points of its modules and nothing else
(`Program.Compiled.get?_states`).  This takes no argument about labels: two states with one
label are refused when the table is built.
-/

namespace TapeLang

namespace Table

variable {κ ν : Type} [LT κ] [DecidableEq κ]

@[simp] theorem get?_empty (k : κ) : (empty : Table κ ν).get? k = none := rfl

theorem contains_iff {t : Table κ ν} {k : κ} : t.contains k ↔ ∃ v, t.get? k = some v :=
  Option.isSome_iff_exists

omit [LT κ] in
theorem find?_eq_none {k : κ} {l : List (κ × ν)} (h : k ∉ l.map (·.1)) : find? k l = none := by
  induction l with
  | nil => rfl
  | cons e l ih =>
    obtain ⟨a, v⟩ := e
    rw [List.map_cons, List.mem_cons, not_or] at h
    rw [find?, if_neg (Ne.symm h.1), ih h.2]

variable [KeyOrder κ] [DecidableLT κ]

theorem get?_foldl_insert {l : List (κ × ν)} (h : (l.map (·.1)).Nodup)
    (t : Table κ ν) (k : κ) :
    (l.foldl (fun t e => t.insert e.1 e.2) t).get? k = (find? k l).or (t.get? k) := by
  induction l generalizing t with
  | nil => rfl
  | cons e l ih =>
    obtain ⟨a, v⟩ := e
    obtain ⟨hnot, hnodup⟩ := List.nodup_cons.mp h
    rw [List.foldl_cons, ih hnodup, get?_insert, find?]
    by_cases hak : a = k
    · subst hak
      rw [if_pos rfl, if_pos rfl, find?_eq_none hnot, Option.none_or, Option.some_or]
    · rw [if_neg hak, if_neg hak]

/-- A table of entries with different keys answers with the entry of a key. -/
theorem get?_ofList {l : List (κ × ν)} (h : (l.map (·.1)).Nodup) (k : κ) :
    (ofList l).get? k = find? k l := by
  rw [ofList, get?_foldl_insert h, get?_empty, Option.or_none]

end Table

/-- The label of a point ends in a digit. -/
theorem Label.getLast?_ofIndex (name : String) (i : Nat) :
    ∃ c, (Label.ofIndex name i).toList.getLast? = some c ∧ c.isDigit := by
  obtain ⟨c, hc⟩ := Option.ne_none_iff_exists'.mp
    (mt List.getLast?_eq_none_iff.mp (Nat.toDigits_ne_nil (n := i) (b := 10)))
  refine ⟨c, ?_, Nat.isDigit_of_mem_toDigits (by decide) (by decide) (List.mem_of_getLast? hc)⟩
  have hrepr : (toString i).toList = Nat.toDigits 10 i := Nat.toList_repr
  rw [Label.ofIndex, String.toList_append, List.getLast?_append, hrepr, hc, Option.some_or]

theorem Label.isTerminal_ofIndex (name : String) (i : Nat) :
    Label.isTerminal (Label.ofIndex name i) = false := by
  obtain ⟨c, hc, hdigit⟩ := Label.getLast?_ofIndex name i
  rw [Label.isTerminal, Bool.or_eq_false_iff, decide_eq_false_iff_not, decide_eq_false_iff_not]
  constructor
  · intro heq
    rw [heq, show Label.accept.toList.getLast? = some 't' by decide] at hc
    cases hc
    exact absurd hdigit (by decide)
  · intro heq
    rw [heq, show Label.reject.toList.getLast? = some 't' by decide] at hc
    cases hc
    exact absurd hdigit (by decide)

theorem Label.ofIndex_ne_accept (name : String) (i : Nat) :
    Label.ofIndex name i ≠ Label.accept := by
  intro heq
  have h := Label.isTerminal_ofIndex name i
  rw [heq] at h
  cases h

theorem Label.ofIndex_ne_reject (name : String) (i : Nat) :
    Label.ofIndex name i ≠ Label.reject := by
  intro heq
  have h := Label.isTerminal_ofIndex name i
  rw [heq] at h
  cases h

namespace Program

theorem define_eq_ok {m : Module} {l : List (Label × State)} {t t' : Table Label State}
    (h : define m t l = .ok t') (label : Label) (state : State) :
    t'.get? label = some state ↔ t.get? label = some state ∨ (label, state) ∈ l := by
  induction l generalizing t with
  | nil =>
    cases h
    simp
  | cons e l ih =>
    obtain ⟨new, state'⟩ := e
    rw [define] at h
    by_cases hc : t.contains new
    · rw [if_pos hc] at h
      cases h
    · rw [if_neg hc] at h
      rw [ih h, Table.get?_insert, List.mem_cons, Prod.mk.injEq]
      have hnone : t.get? new = none := by simpa [Table.contains] using hc
      by_cases hl : new = label
      · subst hl
        simp [hnone, eq_comm]
      · simp [hl, Ne.symm hl]

theorem foldlM_define_eq_ok {ms : List Module} {t t' : Table Label State}
    (h : ms.foldlM (fun t m => define m t m.states) t = .ok t') (label : Label) (state : State) :
    t'.get? label = some state ↔
      t.get? label = some state ∨ ∃ m ∈ ms, (label, state) ∈ m.states := by
  induction ms generalizing t with
  | nil =>
    cases h
    simp
  | cons m ms ih =>
    rw [List.foldlM_cons] at h
    cases hd : define m t m.states with
    | error e =>
      rw [hd] at h
      cases h
    | ok t₁ =>
      rw [hd] at h
      rw [ih h, define_eq_ok hd, List.exists_mem_cons_iff, or_assoc]

/-- What there is to know about the automaton of a program. -/
structure Compiled (p : Program) (a : Automaton) : Prop where
  problems : p.problems = []
  alphabet : a.alphabet = p.alphabet.values
  initial : ∃ first more, p.modules = first :: more ∧ a.initial = .ofIndex first.name.value 0
  get?_states : ∀ label state,
    a.states.get? label = some state ↔ ∃ m ∈ p.modules, (label, state) ∈ m.states

theorem compiled_of_compile {p : Program} {a : Automaton} (h : p.compile = .ok a) :
    p.Compiled a := by
  have hproblems : p.problems = [] := by
    cases hp : p.problems with
    | nil => rfl
    | cons r rs =>
      rw [compile, check, hp] at h
      cases h
  rw [compile, check, hproblems] at h
  cases hm : p.modules with
  | nil =>
    rw [hm] at h
    cases h
  | cons first more =>
    rw [hm] at h
    cases hs : (first :: more).foldlM (fun t m => define m t m.states) Table.empty with
    | error e =>
      simp only [bind, Except.bind, hs] at h
      cases h
    | ok states =>
      simp only [bind, Except.bind, hs] at h
      cases h
      refine ⟨hproblems, rfl, ⟨first, more, hm, rfl⟩, fun label state => ?_⟩
      rw [foldlM_define_eq_ok hs, Table.get?_empty, hm]
      simp

namespace Compiled

variable {p : Program} {a : Automaton}

theorem get?_of_occurs (hc : p.Compiled a) {m : Module} (hm : m ∈ p.modules) {place : Place}
    {i : Nat} {b : Block} {bs : List Block} (h : Occurs m place i (b :: bs)) :
    a.states.get? (.ofIndex m.name.value i) = some (Point.state ⟨m, place, b, bs⟩ i) :=
  (hc.get?_states _ _).mpr ⟨m, hm, Module.mem_states.mpr ⟨i, _, h.getElem?_points, rfl, rfl⟩⟩

theorem exists_occurs (hc : p.Compiled a) {label : Label} {state : State}
    (h : a.states.get? label = some state) :
    ∃ m ∈ p.modules, ∃ place i b bs, Occurs m place i (b :: bs) ∧
      label = .ofIndex m.name.value i ∧ state = Point.state ⟨m, place, b, bs⟩ i := by
  obtain ⟨m, hm, hmem⟩ := (hc.get?_states label state).mp h
  obtain ⟨i, q, hq, hlabel, hstate⟩ := Module.mem_states.mp hmem
  have hocc := Module.occurs_of_getElem? hq
  have heq : some q = some ⟨m, q.place, q.block, q.rest⟩ := hq.symm.trans hocc.getElem?_points
  refine ⟨m, hm, q.place, i, q.block, q.rest, hocc, hlabel, ?_⟩
  rw [hstate, ← Option.some.inj heq]

end Compiled

end Program

end TapeLang
