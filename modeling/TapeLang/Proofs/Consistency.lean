import TapeLang.Proofs.Faults

/-!
Consistent programs.

Consistency speaks of whatever stands anywhere in a program: the blocks of its modules, the blocks
inside the cases of their switches, and so on.  Nothing has to be found in some order for it.  The
check accepts the consistent programs and no others, and what it reports otherwise is the first
fault by its address.
-/

namespace TapeLang
namespace Program

inductive Has (p : Program) : Block → Prop
  | body {m b} (hm : m ∈ p.modules) (hb : b ∈ m.blocks) : Has p b
  | inside {cases span symbols first rest cspan b} (h : Has p (.switch cases span))
    (hc : .branch symbols first rest cspan ∈ cases) (hb : b ∈ rest) : Has p b

/-- A basic block of the program, as a block of its own or as the first one of a branch. -/
inductive HasBasic (p : Program) : BasicBlock → Prop
  | block {b} (h : p.Has (.basic b)) : HasBasic p b
  | first {cases span symbols first rest cspan} (h : p.Has (.switch cases span))
    (hc : .branch symbols first rest cspan ∈ cases) : HasBasic p first

inductive Writes (p : Program) : Symbol → Prop
  | basic {b s} (h : p.HasBasic b) (hw : b.write = some s) : Writes p s.value
  | loop {cases span symbols body cspan s} (h : p.Has (.switch cases span))
    (hc : .loop symbols body cspan ∈ cases) (hw : body.write = some s) : Writes p s.value

def Handles (p : Program) (s : Symbol) : Prop :=
  ∃ cases span, p.Has (.switch cases span) ∧ s ∈ Case.handled cases

def JumpsTo (p : Program) (name : String) : Prop :=
  ∃ b target, p.HasBasic b ∧ b.flow = some (.goto target) ∧ target.value = name

/-- Letters and modules are declared once, what is used is declared, and no switch handles a
symbol twice. -/
structure Consistent (p : Program) : Prop where
  letters : p.alphabet.values.Nodup
  modules : (p.modules.map (·.name.value)).Nodup
  jumps : ∀ name, p.JumpsTo name → ∃ m ∈ p.modules, m.name.value = name
  written : ∀ c, p.Writes (.letter c) → c ∈ p.alphabet.values
  handled : ∀ c, p.Handles (.letter c) → c ∈ p.alphabet.values
  once : ∀ cases span, p.Has (.switch cases span) → (Case.handled cases).Nodup

end Program

namespace Scope

theorem blocksProblems_eq_nil {scope : Scope} {bs : List Block} :
    scope.blocksProblems bs = [] ↔ ∀ b ∈ bs, scope.blockProblems b = [] := by
  induction bs with
  | nil => exact iff_of_true rfl (fun _ h => absurd h List.not_mem_nil)
  | cons b bs ih => rw [blocksProblems_cons, ih, List.forall_mem_cons]

end Scope

namespace Program

variable {p : Program}

/-- In a program without faults no block has any. -/
theorem Has.blockProblems_eq_nil (hp : p.problems = []) {b : Block} (h : p.Has b) :
    p.scope.blockProblems b = [] := by
  induction h with
  | body hm hb => exact Scope.blocksProblems_eq_nil.mp ((problems_eq_nil.mp hp).2.2 _ hm) _ hb
  | @inside cases span symbols first rest cspan b _ hc hb ih =>
    rw [Scope.blockProblems] at ih
    have hbody := ((Scope.casesProblems_eq_nil.mp ih).1 _ hc).2
    rw [Scope.bodyProblems, List.append_eq_nil_iff] at hbody
    exact Scope.blocksProblems_eq_nil.mp hbody.2 _ hb

theorem Has.casesProblems_eq_nil (hp : p.problems = []) {cases : List Case} {span : Span}
    (h : p.Has (.switch cases span)) : p.scope.casesProblems [] cases = [] := by
  have hnil := h.blockProblems_eq_nil hp
  rwa [Scope.blockProblems] at hnil

theorem HasBasic.basicProblems_eq_nil (hp : p.problems = []) {b : BasicBlock}
    (h : p.HasBasic b) : p.scope.basicProblems b = [] := by
  cases h with
  | block h =>
    have hnil := h.blockProblems_eq_nil hp
    rwa [Scope.blockProblems] at hnil
  | first h hc =>
    have hbody := ((Scope.casesProblems_eq_nil.mp (h.casesProblems_eq_nil hp)).1 _ hc).2
    rw [Scope.bodyProblems, List.append_eq_nil_iff] at hbody
    exact hbody.1

theorem Writes.holds (hp : p.problems = []) {s : Symbol} (h : p.Writes s) : p.scope.Holds s := by
  cases h with
  | basic h hw =>
    exact (Scope.basicProblems_eq_nil.mp (h.basicProblems_eq_nil hp)).1 _ hw
  | loop h hc hw =>
    have hbody := ((Scope.casesProblems_eq_nil.mp (h.casesProblems_eq_nil hp)).1 _ hc).2
    rw [Scope.bodyProblems, Scope.writeProblems_eq_nil] at hbody
    exact hbody _ hw

theorem consistent_of_problems (hp : p.problems = []) : p.Consistent := by
  obtain ⟨hletters, hmodules, -⟩ := problems_eq_nil.mp hp
  refine ⟨hletters, hmodules, ?_, fun c h => h.holds hp, ?_, fun cases span h => ?_⟩
  · rintro _ ⟨b, target, hb, hf, rfl⟩
    have hmem := (Scope.basicProblems_eq_nil.mp (hb.basicProblems_eq_nil hp)).2 target hf
    exact List.mem_map.mp hmem
  · rintro c ⟨cases, span, h, hc⟩
    obtain ⟨case, hcase, hs⟩ := List.mem_flatMap.mp hc
    obtain ⟨s, hs, hsc⟩ := List.mem_map.mp hs
    have hholds := ((Scope.casesProblems_eq_nil.mp (h.casesProblems_eq_nil hp)).1 case hcase).1 s hs
    rwa [hsc] at hholds
  · exact (Scope.casesProblems_eq_nil.mp (h.casesProblems_eq_nil hp)).2.1

/-- The scope holds what a consistent program writes. -/
theorem Consistent.holds (h : p.Consistent) {s : Symbol} (hs : p.Writes s ∨ p.Handles s) :
    p.scope.Holds s := by
  cases s with
  | blank => trivial
  | letter c => exact hs.elim (h.written c) (h.handled c)

theorem Consistent.basicProblems_eq_nil (h : p.Consistent) {b : BasicBlock} (hb : p.HasBasic b) :
    p.scope.basicProblems b = [] := by
  refine Scope.basicProblems_eq_nil.mpr ⟨fun s hs => h.holds (.inl (.basic hb hs)), ?_⟩
  intro target hf
  exact List.mem_map.mpr (h.jumps _ ⟨b, target, hb, hf, rfl⟩)

mutual

theorem Consistent.blocksProblems_eq_nil (h : p.Consistent) :
    ∀ bs : List Block, (∀ b ∈ bs, p.Has b) → p.scope.blocksProblems bs = []
  | [], _ => rfl
  | b :: bs, hbs => by
    obtain ⟨hb, hbs⟩ := List.forall_mem_cons.mp hbs
    exact Scope.blocksProblems_cons.mpr
      ⟨h.blockProblems_eq_nil b hb, h.blocksProblems_eq_nil bs hbs⟩

theorem Consistent.blockProblems_eq_nil (h : p.Consistent) :
    ∀ b : Block, p.Has b → p.scope.blockProblems b = []
  | .basic b, hb => by
    rw [Scope.blockProblems]
    exact h.basicProblems_eq_nil (.block hb)
  | .switch cases span, hb => by
    rw [Scope.blockProblems, Scope.casesProblems_eq_nil]
    refine ⟨fun c hc => ⟨fun s hs => ?_, ?_⟩, fresh_nil_iff.mpr (h.once cases span hb)⟩
    · exact h.holds (.inr ⟨cases, span, hb, List.mem_flatMap.mpr ⟨c, hc, List.mem_map_of_mem hs⟩⟩)
    · exact h.bodyProblems_eq_nil hb cases (fun _ hc => hc) c hc

theorem Consistent.bodyProblems_eq_nil (h : p.Consistent) {cases : List Case} {span : Span}
    (hb : p.Has (.switch cases span)) :
    ∀ cs : List Case, (∀ c ∈ cs, c ∈ cases) → ∀ c ∈ cs, p.scope.bodyProblems c = []
  | [], _, _, hc => absurd hc List.not_mem_nil
  | .loop symbols body cspan :: cs, hcs, c, hc => by
    obtain ⟨hmem, hcs⟩ := List.forall_mem_cons.mp hcs
    rcases List.mem_cons.mp hc with rfl | hc
    · rw [Scope.bodyProblems, Scope.writeProblems_eq_nil]
      exact fun s hs => h.holds (.inl (.loop hb hmem hs))
    · exact h.bodyProblems_eq_nil hb cs hcs c hc
  | .branch symbols first rest cspan :: cs, hcs, c, hc => by
    obtain ⟨hmem, hcs⟩ := List.forall_mem_cons.mp hcs
    rcases List.mem_cons.mp hc with rfl | hc
    · rw [Scope.bodyProblems, List.append_eq_nil_iff]
      exact ⟨h.basicProblems_eq_nil (.first hb hmem),
        h.blocksProblems_eq_nil rest fun b hb' => .inside hb hmem hb'⟩
    · exact h.bodyProblems_eq_nil hb cs hcs c hc

end

/-- No faults are found exactly in consistent programs. -/
theorem problems_eq_nil_iff_consistent : p.problems = [] ↔ p.Consistent := by
  refine ⟨consistent_of_problems, fun h => ?_⟩
  exact problems_eq_nil.mpr ⟨h.letters, h.modules, fun m hm =>
    h.blocksProblems_eq_nil m.blocks fun b hb => .body hm hb⟩

end Program

namespace Scope

variable {scope : Scope}

theorem Foreign.kind {s : Located Symbol} {r : Report} (h : scope.Foreign s r) :
    r.diagnostic.kind = .semantic := by
  obtain ⟨c, -, -, rfl⟩ := h
  rfl

theorem BasicFault.kind {b : BasicBlock} {a : Address} {r : Report} (h : scope.BasicFault b a r) :
    r.diagnostic.kind = .semantic := by
  cases h with
  | write _ h => exact h.kind
  | jump _ _ => rfl

theorem MatchFault.kind {earlier : List Symbol} {ss : List (Located Symbol)} {a : Address}
    {r : Report} (h : scope.MatchFault earlier ss a r) : r.diagnostic.kind = .semantic := by
  cases h with
  | foreign _ h => exact h.kind
  | twice _ _ => rfl

mutual

theorem BlocksFault.kind {r : Report} :
    ∀ {bs : List Block} {a : Address}, scope.BlocksFault bs a r → r.diagnostic.kind = .semantic
  | _, _, .mk _ h => BlockFault.kind h

theorem BlockFault.kind {r : Report} :
    ∀ {b : Block} {a : Address}, scope.BlockFault b a r → r.diagnostic.kind = .semantic
  | _, _, .basic h => h.kind
  | _, _, .switch _ h => CaseFault.kind h

theorem CaseFault.kind {r : Report} :
    ∀ {earlier : List Symbol} {c : Case} {a : Address}, scope.CaseFault earlier c a r →
      r.diagnostic.kind = .semantic
  | _, _, _, .symbols h => h.kind
  | _, _, _, .body h => BodyFault.kind h

theorem BodyFault.kind {r : Report} :
    ∀ {c : Case} {a : Address}, scope.BodyFault c a r → r.diagnostic.kind = .semantic
  | _, _, .loop _ h => h.kind
  | _, _, .first h => h.kind
  | _, _, .rest h => BlocksFault.kind h

end

end Scope

namespace Program

variable {p : Program}

theorem Fault.kind {a : Address} {r : Report} (h : p.Fault a r) :
    r.diagnostic.kind = .semantic := by
  cases h with
  | letter _ _ => rfl
  | name _ _ => rfl
  | block _ h => exact h.kind

theorem check_eq_ok_iff : p.check = .ok () ↔ p.problems = [] := by
  rw [check]
  cases p.problems with
  | nil => exact iff_of_true rfl rfl
  | cons r reports => exact iff_of_false nofun (List.cons_ne_nil r reports)

theorem check_eq_error_iff {r : Report} : p.check = .error r ↔ p.problems.head? = some r := by
  rw [check]
  cases p.problems with
  | nil => exact iff_of_false nofun nofun
  | cons s reports => rw [List.head?_cons, Except.error.injEq, Option.some.injEq]

/-- The check accepts exactly the consistent programs.  Of every other program it reports the
fault whose address comes before those of all others. -/
theorem check_iff_consistent (p : Program) :
    (p.check = .ok () ↔ p.Consistent) ∧
    ∀ r, p.check = .error r ↔ r.diagnostic.kind = .semantic ∧
      ∃ a, p.Fault a r ∧ ∀ b s, p.Fault b s → a = b ∨ a.Before b := by
  refine ⟨check_eq_ok_iff.trans problems_eq_nil_iff_consistent, fun r => ?_⟩
  rw [check_eq_error_iff, p.lists_problems.head?_eq_some_iff]
  exact ⟨fun ⟨a, ha, hleast⟩ => ⟨ha.kind, a, ha, hleast⟩, And.right⟩

end Program
end TapeLang
