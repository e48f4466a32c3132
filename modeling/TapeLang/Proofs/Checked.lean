import TapeLang.Program.Check
import TapeLang.Proofs.Numbering

/-!
What a program without faults satisfies.

Every list of faults is empty exactly if the part it is about respects its scope: the symbols
it reads and writes are blank or declared, the modules it jumps to exist, and no symbol is
handled twice by one switch.  The faults of a sequence hold those of all blocks inside it, so
whatever occurs in a module without faults has none (`Occurs.blocksProblems_eq_nil`).
-/

namespace TapeLang

/-- No element is in `seen` or stands there twice. -/
def Fresh {α : Type} (seen l : List α) : Prop := l.Nodup ∧ ∀ a ∈ l, a ∉ seen

theorem fresh_nil {α : Type} (seen : List α) : Fresh seen [] :=
  ⟨List.nodup_nil, fun _ h => absurd h List.not_mem_nil⟩

theorem fresh_nil_iff {α : Type} {l : List α} : Fresh [] l ↔ l.Nodup :=
  ⟨And.left, fun h => ⟨h, fun _ _ => List.not_mem_nil⟩⟩

theorem fresh_append {α : Type} {seen l l' : List α} :
    Fresh seen (l ++ l') ↔ Fresh seen l ∧ Fresh (l ++ seen) l' := by
  unfold Fresh
  rw [List.nodup_append, List.forall_mem_append]
  constructor
  · intro h
    refine ⟨⟨h.1.1, h.2.1⟩, h.1.2.1, ?_⟩
    intro b hb hmem
    rcases List.mem_append.mp hmem with hl | hs
    · exact h.1.2.2 b hl b hb rfl
    · exact h.2.2 b hb hs
  · intro h
    have hout : ∀ b ∈ l', b ∉ l ∧ b ∉ seen := fun b hb => by
      simpa [not_or] using h.2.2 b hb
    refine ⟨⟨h.1.1, h.2.1, ?_⟩, h.1.2, fun b hb => (hout b hb).2⟩
    intro b hb c hc heq
    exact (hout c hc).1 (heq ▸ hb)

theorem fresh_cons {α : Type} {seen l : List α} {a : α} :
    Fresh seen (a :: l) ↔ a ∉ seen ∧ Fresh (a :: seen) l := by
  have hone : Fresh seen [a] ↔ a ∉ seen := by simp [Fresh]
  rw [← List.singleton_append, fresh_append, hone, List.singleton_append]

theorem repeated_eq_nil {α β : Type} [DecidableEq β] {key : α → β} {seen : List β} {l : List α} :
    repeated key seen l = [] ↔ Fresh seen (l.map key) := by
  induction l generalizing seen with
  | nil => exact iff_of_true rfl (fresh_nil seen)
  | cons a l ih =>
    rw [repeated, List.map_cons, fresh_cons]
    by_cases ha : key a ∈ seen
    · rw [if_pos ha]
      simp [ha]
    · rw [if_neg ha, ih]
      simp [ha]

namespace Scope

variable {scope : Scope}

def Holds (scope : Scope) : Symbol → Prop
  | .letter c => c ∈ scope.letters
  | .blank => True

theorem symbolProblems_eq_nil {s : Located Symbol} :
    scope.symbolProblems s = [] ↔ scope.Holds s.value := by
  unfold symbolProblems Holds
  cases s.value with
  | letter c => simp
  | blank => simp

theorem writeProblems_eq_nil {write : Option (Located Symbol)} :
    scope.writeProblems write = [] ↔ ∀ s ∈ write, scope.Holds s.value := by
  simp [writeProblems, symbolProblems_eq_nil]

theorem flowProblems_eq_nil {flow : Option Flow} :
    scope.flowProblems flow = [] ↔
      ∀ target, flow = some (.goto target) → target.value ∈ scope.modules := by
  cases flow with
  | none => simp [flowProblems]
  | some flow => cases flow <;> simp [flowProblems]

theorem basicProblems_eq_nil {b : BasicBlock} :
    scope.basicProblems b = [] ↔ (∀ s ∈ b.write, scope.Holds s.value) ∧
      ∀ target, b.flow = some (.goto target) → target.value ∈ scope.modules := by
  rw [basicProblems, List.append_eq_nil_iff, writeProblems_eq_nil, flowProblems_eq_nil]

theorem matchProblems_eq_nil {seen : List Symbol} {ss : List (Located Symbol)} :
    scope.matchProblems seen ss = [] ↔
      (∀ s ∈ ss, scope.Holds s.value) ∧ Fresh seen (ss.map (·.value)) := by
  induction ss generalizing seen with
  | nil => exact iff_of_true rfl ⟨fun _ h => absurd h List.not_mem_nil, fresh_nil seen⟩
  | cons s ss ih =>
    have hif : ((if s.value ∈ seen then [⟨.handledTwice s.value, s.span⟩] else [] : List Report)
        = []) ↔ s.value ∉ seen := by simp
    rw [matchProblems, List.append_eq_nil_iff, List.append_eq_nil_iff, symbolProblems_eq_nil, ih,
      hif, List.map_cons, fresh_cons, List.forall_mem_cons]
    exact and_and_and_comm

end Scope

def Case.handled (cs : List Case) : List Symbol := cs.flatMap fun c => c.symbols.map (·.value)

namespace Scope

variable {scope : Scope}

theorem casesProblems_eq_nil {seen : List Symbol} {cs : List Case} :
    scope.casesProblems seen cs = [] ↔
      (∀ c ∈ cs, (∀ s ∈ c.symbols, scope.Holds s.value) ∧ scope.bodyProblems c = []) ∧
        Fresh seen (Case.handled cs) := by
  induction cs generalizing seen with
  | nil => exact iff_of_true rfl ⟨fun _ h => absurd h List.not_mem_nil, fresh_nil seen⟩
  | cons c cs ih =>
    have hhandled : Case.handled (c :: cs) = c.symbols.map (·.value) ++ Case.handled cs :=
      List.flatMap_cons
    rw [casesProblems, List.append_eq_nil_iff, List.append_eq_nil_iff, matchProblems_eq_nil, ih,
      hhandled, fresh_append, List.forall_mem_cons]
    constructor
    · intro h
      exact ⟨⟨⟨h.1.1.1, h.1.2⟩, h.2.1⟩, h.1.1.2, h.2.2⟩
    · intro h
      exact ⟨⟨⟨h.1.1.1, h.2.1⟩, h.1.1.2⟩, h.1.2, h.2.2⟩

theorem blocksProblems_cons {b : Block} {bs : List Block} :
    scope.blocksProblems (b :: bs) = [] ↔
      scope.blockProblems b = [] ∧ scope.blocksProblems bs = [] := by
  rw [blocksProblems, List.append_eq_nil_iff]

end Scope

/-- What occurs in a sequence without faults has none. -/
theorem Occurs.blocksProblems_eq_nil {scope : Scope} {m : Module} {place : Place} {i : Nat}
    {bs : List Block} (h : Occurs m place i bs) (hm : scope.blocksProblems m.blocks = []) :
    scope.blocksProblems bs = [] := by
  induction h with
  | body => exact hm
  | past _ ih => exact (Scope.blocksProblems_cons.mp ih).2
  | @into place i cases span bs k symbols first rest cspan _ hk ih =>
    have hcases : scope.casesProblems [] cases = [] := by
      have hb := (Scope.blocksProblems_cons.mp ih).1
      rwa [Scope.blockProblems] at hb
    have hbody := ((Scope.casesProblems_eq_nil.mp hcases).1 _ (List.mem_of_getElem? hk)).2
    rw [Scope.bodyProblems, List.append_eq_nil_iff] at hbody
    exact hbody.2

namespace Program

/-- What the checks of a whole program come to. -/
theorem problems_eq_nil {p : Program} :
    p.problems = [] ↔ p.alphabet.values.Nodup ∧ (p.modules.map (·.name.value)).Nodup ∧
      ∀ m ∈ p.modules, p.scope.blocksProblems m.blocks = [] := by
  rw [problems, List.append_eq_nil_iff, List.append_eq_nil_iff, List.map_eq_nil_iff,
    List.map_eq_nil_iff, repeated_eq_nil, repeated_eq_nil, List.flatMap_eq_nil_iff, fresh_nil_iff,
    fresh_nil_iff, and_assoc]
  rfl

end Program

end TapeLang
