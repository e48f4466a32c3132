import TapeLang.Proofs.Checked
import TapeLang.Proofs.Compiled
import TapeLang.Proofs.Stepping

/-!
What the state of a point does on each symbol.

A switch becomes a table of entries, one for each symbol of each of its cases.  In a program
without faults no symbol is handled twice, so the table answers with the first case for a
symbol (`Table.find?_entries`), and a state does what the block of its point says
(`Point.on_state`).
-/

namespace TapeLang

/-- The transition of a case of the switch at `own`, the blocks inside the case being numbered
from `index`. -/
def Case.transition (module : String) (own : Label) (index : Nat) : Case → Transition
  | .loop _ body _ => body.transition own
  | .branch _ first rest _ => first.transition (Block.entry module index rest)

def Case.size : Case → Nat
  | .loop _ _ _ => 0
  | .branch _ _ rest _ => Block.totalSize rest

theorem Case.totalSize_cons (c : Case) (cs : List Case) :
    Case.totalSize (c :: cs) = c.size + Case.totalSize cs := by
  cases c with
  | loop => rw [Case.totalSize, Case.size, Nat.zero_add]
  | branch => rw [Case.totalSize, Case.size]

theorem Case.entries_cons (module : String) (own : Label) (index : Nat) (c : Case)
    (cs : List Case) :
    Case.entries module own index (c :: cs) =
      c.symbols.map (fun s => (s.value, c.transition module own index)) ++
        Case.entries module own (index + c.size) cs := by
  cases c with
  | loop => rw [Case.entries]; rfl
  | branch => rw [Case.entries]; rfl

theorem Case.keys_entries (module : String) (own : Label) (index : Nat) (cs : List Case) :
    (Case.entries module own index cs).map (·.1) = Case.handled cs := by
  induction cs generalizing index with
  | nil => rfl
  | cons c cs ih =>
    rw [Case.entries_cons, List.map_append, ih, List.map_map]
    rfl

theorem Table.find?_append_map {s : Symbol} {ss : List (Located Symbol)} {t : Transition}
    {l : List (Symbol × Transition)} :
    Table.find? s (ss.map (fun s => (s.value, t)) ++ l) =
      if s ∈ ss.map (·.value) then some t else Table.find? s l := by
  induction ss with
  | nil => rfl
  | cons s' ss ih =>
    rw [List.map_cons, List.cons_append, Table.find?, ih, List.map_cons]
    by_cases hs : s'.value = s
    · rw [if_pos hs, if_pos (List.mem_cons.mpr (.inl hs.symm))]
    · rw [if_neg hs]
      simp [Ne.symm hs]

/-- The entry of a symbol is that of the first case for it. -/
theorem Table.find?_entries (s : Symbol) (module : String) (own : Label) (index : Nat)
    (cs : List Case) :
    Table.find? s (Case.entries module own index cs) = (Case.choose s cs).map fun (k, c) =>
      c.transition module own (index + Case.totalSize (cs.take k)) := by
  induction cs generalizing index with
  | nil => rfl
  | cons c cs ih =>
    rw [Case.entries_cons, Table.find?_append_map, ih, Case.choose]
    by_cases hs : s ∈ c.symbols.map (·.value)
    · rw [if_pos hs, if_pos hs]
      rfl
    · rw [if_neg hs, if_neg hs, Option.map_map]
      congr 1
      funext ⟨k, d⟩
      show d.transition module own (index + c.size + Case.totalSize (cs.take k)) =
        d.transition module own (index + Case.totalSize (c :: cs.take k))
      rw [Case.totalSize_cons, Nat.add_assoc]

theorem Case.choose_eq_some {s : Symbol} {cs : List Case} {k : Nat} {c : Case}
    (h : Case.choose s cs = some (k, c)) : cs[k]? = some c ∧ s ∈ c.symbols.map (·.value) := by
  induction cs generalizing k with
  | nil => cases h
  | cons d cs ih =>
    rw [Case.choose] at h
    by_cases hs : s ∈ d.symbols.map (·.value)
    · rw [if_pos hs] at h
      cases h
      exact ⟨rfl, hs⟩
    · rw [if_neg hs] at h
      obtain ⟨⟨j, e⟩, hj, heq⟩ := Option.map_eq_some_iff.mp h
      cases heq
      exact ⟨(ih hj).1, (ih hj).2⟩

def Point.transition? (p : Point) (i : Nat) (s : Symbol) : Option Transition :=
  match p.block with
  | .basic b => some (b.transition (Block.entry p.module.name.value (i + 1) p.rest))
  | .switch cases _ =>
    (Case.choose s cases).map fun (k, c) =>
      c.transition p.module.name.value (.ofIndex p.module.name.value i)
        (i + 1 + Case.totalSize (cases.take k))

theorem Point.on_state {scope : Scope} {p : Point} (h : scope.blockProblems p.block = [])
    (i : Nat) (s : Symbol) : (p.state i).on s = p.transition? i s := by
  obtain ⟨m, place, b, bs⟩ := p
  cases b with
  | basic b => rfl
  | switch cases span =>
    have hcases : scope.casesProblems [] cases = [] := by rwa [Scope.blockProblems] at h
    have hnodup := fresh_nil_iff.mp (Scope.casesProblems_eq_nil.mp hcases).2
    rw [← Case.keys_entries m.name.value (.ofIndex m.name.value i) (i + 1)] at hnodup
    show (Table.ofList (Case.entries _ _ _ cases)).get? s = _
    rw [Table.get?_ofList hnodup, Table.find?_entries]
    rfl

theorem Program.Compiled.blockProblems_of_occurs {p : Program} {a : Automaton}
    (hc : p.Compiled a) {m : Module} (hm : m ∈ p.modules) {place : Place} {i : Nat} {b : Block}
    {bs : List Block} (h : Occurs m place i (b :: bs)) : p.scope.blockProblems b = [] := by
  have hm' := (problems_eq_nil.mp hc.problems).2.2 m hm
  exact (Scope.blocksProblems_cons.mp (h.blocksProblems_eq_nil hm')).1

end TapeLang
