import TapeLang.Proofs.Agreement
import TapeLang.Proofs.Budget
import TapeLang.Proofs.Lockstep
import TapeLang.Proofs.Reordering

/-!
Programs that act alike.

Two programs mirror each other if their jumps lead to the same blocks, up to the order of cases.
Their executions take the same steps (`Program.Mirrors.step_agree`), and each machine runs in
lockstep with the execution of its program, so the machines of two such programs run alike
although the labels of their states differ (`Program.Mirrors.run_similar`).  Permuting the cases
of switches is one way to get such a program (`Program.run_of_reorders`).
-/

namespace TapeLang

/-- The same outcome, but for the label where a transition is missing. -/
inductive Outcome.Similar : Outcome → Outcome → Prop
  | refl {o} : Outcome.Similar o o
  | undefined {l l' s} : Outcome.Similar (.fault (.undefinedTransition l s))
    (.fault (.undefinedTransition l' s))

structure RunResult.Similar (r r' : RunResult) : Prop where
  steps : r.steps = r'.steps
  window : r.window = r'.window
  outcome : r.outcome.Similar r'.outcome

/-- Control is at the same blocks, up to the order of cases. -/
inductive Control.Similar : Control → Control → Prop
  | here {p q : Point} (hb : Block.Reorders p.block q.block)
    (hs : Block.ReordersAll p.rest q.rest) : Control.Similar (.here p) (.here q)
  | accept : Control.Similar .accept .accept
  | reject : Control.Similar .reject .reject

theorem Control.Similar.enter {bs cs : List Block} (h : Block.ReordersAll bs cs) {m n : Module}
    {place place' : Place} : Control.Similar (.enter m place bs) (.enter n place' cs) := by
  cases h with
  | nil => exact .reject
  | cons hb hs => exact .here hb hs

structure Execution.Similar (e e' : Execution) : Prop where
  control : e.control.Similar e'.control
  head : e.head = e'.head
  cells : e.cells = e'.cells

namespace Execution.Similar

variable {e e' : Execution}

theorem symbol_eq (h : e.Similar e') : e.symbol = e'.symbol := by
  rw [Execution.symbol, Execution.symbol, h.head, h.cells]

theorem act (h : e.Similar e') (write : Option (Located Symbol)) (move : Option Direction)
    {c c' : Control} (hc : c.Similar c') : (e.act write move c).Similar (e'.act write move c') := by
  refine ⟨hc, ?_, ?_⟩
  · show e.head + _ = e'.head + _
    rw [h.head]
  · show write.elim e.cells _ = write.elim e'.cells _
    rw [h.head, h.cells]

end Execution.Similar

namespace Program

/-- Tapes hold the same letters, and the start and every jump lead to the same blocks, up to the
order of cases. -/
structure Mirrors (p q : Program) : Prop where
  letters : ∀ c, c ∈ p.alphabet.values ↔ c ∈ q.alphabet.values
  first : Option.Rel Module.Reorders p.modules.head? q.modules.head?
  find : ∀ name : String, Option.Rel Module.Reorders (p.modules.find? (·.name.value = name))
    (q.modules.find? (·.name.value = name))

namespace Mirrors

variable {p q : Program} {e e' : Execution}

theorem follow_agree (h : p.Mirrors q) {c c' : Control} (hc : c.Similar c')
    (flow : Option Flow) : Agree Eq Control.Similar (p.follow c flow) (q.follow c' flow) := by
  match flow with
  | none => exact .ok hc
  | some .accept => exact .ok .accept
  | some .reject => exact .ok .reject
  | some (.goto name) =>
    have hfind := h.find name.value
    rw [Program.follow, Program.follow]
    generalize p.modules.find? _ = m, q.modules.find? _ = n at hfind ⊢
    cases hfind with
    | none => exact .error rfl
    | some hmn => exact .ok (.enter hmn.blocks)

theorem perform_agree (h : p.Mirrors q) (he : e.Similar e') (b : BasicBlock) {c c' : Control}
    (hc : c.Similar c') :
    Agree Eq Execution.Similar (p.perform e b c) (q.perform e' b c') :=
  (h.follow_agree hc b.flow).bind fun _ _ hcontrol => .ok (he.act b.write b.move hcontrol)

/-- Executions at the same blocks take the same step.  No symbol may be handled twice at the
switch where they are, since the order of cases would count there. -/
theorem step_agree (h : p.Mirrors q) (he : e.Similar e')
    (hn : ∀ point cases span, e.control = .here point → point.block = .switch cases span →
      (Case.handled cases).Nodup) :
    Agree Eq Execution.Similar (p.step e) (q.step e') := by
  have hcontrol := he.control
  rw [Program.step, Program.step]
  generalize hc : e.control = c, hc' : e'.control = c' at hcontrol
  cases hcontrol with
  | accept => exact .error rfl
  | reject => exact .error rfl
  | @here point point' hb hs =>
    obtain ⟨m, place, b, bs⟩ := point
    obtain ⟨m', place', b', bs'⟩ := point'
    cases hb with
    | basic => exact h.perform_agree he _ (.enter hs)
    | @switch cs ds es span hcases hperm =>
      have hchoose := Case.choose_reorders hcases hperm (hn _ _ _ hc rfl) e.symbol
      rw [he.symbol_eq] at hchoose
      dsimp only
      rw [he.symbol_eq]
      generalize Case.choose e'.symbol cs = found, Case.choose e'.symbol es = found' at hchoose ⊢
      cases hchoose with
      | none => exact .error rfl
      | @some found found' hcase =>
        obtain ⟨k, c⟩ := found
        obtain ⟨k', c'⟩ := found'
        cases hcase with
        | branch hrest => exact h.perform_agree he _ (.enter hrest)
        | loop =>
          exact .ok (he.act _ _ (.here (.switch hcases hperm) hs))

end Mirrors

end Program

/-! ## Machines -/

/-- Two machines that have taken the same steps, each in lockstep with an execution of its
program. -/
structure Machine.Mirrors (p q : Program) (a b : Automaton) (m m' : Machine) : Prop where
  steps : m.steps = m'.steps
  sparse : m.tape.Sparse
  sparse' : m'.tape.Sparse
  executions : ∃ e e', Related p a e m ∧ Related q b e' m' ∧ e.Similar e'

namespace Machine.Mirrors

variable {p q : Program} {a b : Automaton} {m m' : Machine}

theorem tape_eq (h : Machine.Mirrors p q a b m m') : m.tape = m'.tape := by
  obtain ⟨e, e', hm, hm', he⟩ := h.executions
  refine h.sparse.ext h.sparse' ?_ fun i => ?_
  · exact (hm.head.trans he.head).trans hm'.head.symm
  · rw [hm.cells, hm'.cells, he.cells]

end Machine.Mirrors

/-- The switch where a compiled program is handles no symbol twice. -/
theorem Related.nodup_handled {p : Program} {a : Automaton} (hc : p.Compiled a) {e : Execution}
    {m : Machine} (h : Related p a e m) {point : Point} {cases : List Case} {span : Span}
    (hpoint : e.control = .here point) (hb : point.block = .switch cases span) :
    (Case.handled cases).Nodup := by
  have hcontrol := h.control
  rw [hpoint] at hcontrol
  generalize m.label = label at hcontrol
  cases hcontrol with
  | here hm hocc =>
    have hproblems := hc.blockProblems_of_occurs hm hocc
    dsimp only at hb
    rw [hb, Scope.blockProblems] at hproblems
    exact fresh_nil_iff.mp (Scope.casesProblems_eq_nil.mp hproblems).2

theorem SameStop.similar {l l' : Label} {s : Stop} {halt halt' : Halt} (h : SameStop l s halt)
    (h' : SameStop l' s halt') : halt.outcome.Similar halt'.outcome := by
  cases h with
  | accept => cases h'; exact .refl
  | reject => cases h'; exact .refl
  | unhandled s => cases h'; exact .undefined

theorem Machine.steps_of_ok {m m' : Machine} (h : m.step = .ok m') : m'.steps = m.steps + 1 := by
  obtain ⟨state, t, -, -, rfl⟩ := Machine.exists_take_of_ok h
  rfl

namespace Program.Mirrors

variable {p q : Program} {a b : Automaton}

section

variable (h : p.Mirrors q) (ha : p.Compiled a) (hb : q.Compiled b)
  (hp : ∀ m ∈ p.modules, m.blocks ≠ []) (hq : ∀ m ∈ q.modules, m.blocks ≠ [])
include h ha hb hp hq

/-- Both machines step, and still mirror each other, or both stop for the same reason. -/
theorem machine_step_agree {m m' : Machine} (hm : Machine.Mirrors p q a b m m') :
    Agree (fun halt halt' => halt.outcome.Similar halt'.outcome) (Machine.Mirrors p q a b)
      m.step m'.step := by
  obtain ⟨e, e', hrel, hrel', he⟩ := hm.executions
  have hagree := h.step_agree he fun _ _ _ => hrel.nodup_handled ha
  have halike := hrel.alike ha hp
  have halike' := hrel'.alike hb hq
  generalize hs : m.step = r, hs' : m'.step = r' at halike halike'
  generalize p.step e = x, q.step e' = x' at hagree halike halike'
  cases hagree with
  | ok hsimilar =>
    cases halike with
    | running hnext =>
      cases halike' with
      | running hnext' =>
        refine .ok ⟨?_, Machine.sparse_step hm.sparse hs, Machine.sparse_step hm.sparse' hs',
          _, _, hnext, hnext', hsimilar⟩
        rw [Machine.steps_of_ok hs, Machine.steps_of_ok hs', hm.steps]
  | error heq =>
    cases heq
    cases halike with
    | stopped hstop =>
      cases halike' with
      | stopped hstop' => exact .error (hstop.similar hstop')

/-- What is seen of the machines without asking them for a step is the same. -/
theorem outcome_similar {m m' : Machine} (hm : Machine.Mirrors p q a b m m') :
    (m.outcome none).Similar (m'.outcome none) := by
  have hagree := h.machine_step_agree ha hb hp hq hm
  rw [Machine.outcome_none, Machine.outcome_none]
  generalize m.step = r, m'.step = r' at hagree ⊢
  cases hagree with
  | ok _ => exact .refl
  | @error halt halt' hsimilar =>
    cases halt <;> cases halt' <;> first | exact .refl | cases hsimilar

theorem advance_similar (n : Nat) {m m' : Machine} (hm : Machine.Mirrors p q a b m m') :
    ((m.advance n).1.result (m.advance n).2).Similar
      ((m'.advance n).1.result (m'.advance n).2) := by
  induction n generalizing m m' with
  | zero =>
    exact ⟨hm.steps, congrArg Tape.window hm.tape_eq, h.outcome_similar ha hb hp hq hm⟩
  | succ n ih =>
    have hagree := h.machine_step_agree ha hb hp hq hm
    generalize hs : m.step = r, hs' : m'.step = r' at hagree
    cases hagree with
    | ok hnext =>
      rw [Machine.advance_succ_of_ok hs, Machine.advance_succ_of_ok hs']
      exact ih hnext
    | error hsimilar =>
      rw [Machine.advance_of_error hs, Machine.advance_of_error hs']
      exact ⟨hm.steps, congrArg Tape.window hm.tape_eq, hsimilar⟩

theorem machine_start (input : List Symbol) :
    Machine.Mirrors p q a b (.start a input) (.start b input) := by
  refine ⟨rfl, Tape.sparse_ofSymbols input, Tape.sparse_ofSymbols input, p.start input,
    q.start input, related_start ha hp input, related_start hb hq input, ?_, rfl, rfl⟩
  have hfirst := h.first
  show Control.Similar (p.modules.head?.elim .reject _) (q.modules.head?.elim .reject _)
  generalize p.modules.head? = m, q.modules.head? = n at hfirst ⊢
  cases hfirst with
  | none => exact .reject
  | some hmn => exact .enter hmn.blocks

/-- The machines take the same inputs, and run alike on each. -/
theorem run_similar (input : List Symbol) :
    Agree Eq (fun m m' => ∀ n, (m.run n).1.Similar (m'.run n).1)
      (Machine.create a input) (Machine.create b input) := by
  have haccepts : a.accepts = b.accepts := by
    funext s
    cases s with
    | blank => rfl
    | letter c =>
      show a.alphabet.contains c = b.alphabet.contains c
      rw [Bool.eq_iff_iff, List.contains_iff_mem, List.contains_iff_mem, ha.alphabet, hb.alphabet]
      exact h.letters c
  have hinput : Machine.checkInput b input = Machine.checkInput a input := by
    rw [Machine.checkInput, Machine.checkInput, haccepts]
  rw [Machine.create, Machine.create, hinput]
  cases Machine.checkInput a input with
  | error e => exact .error rfl
  | ok _ =>
    exact .ok fun n => h.advance_similar ha hb hp hq n (h.machine_start ha hb hp hq input)

end

end Program.Mirrors

/-! ## Reordered cases -/

theorem Module.head?_reorders {ms ns : List Module} (h : List.Forall₂ Module.Reorders ms ns) :
    Option.Rel Module.Reorders ms.head? ns.head? := by
  cases h with
  | nil => exact .none
  | cons hmn _ => exact .some hmn

theorem Module.find?_reorders {ms ns : List Module} (h : List.Forall₂ Module.Reorders ms ns)
    (name : String) : Option.Rel Module.Reorders (ms.find? (·.name.value = name))
      (ns.find? (·.name.value = name)) := by
  induction h with
  | nil => exact .none
  | @cons m n ms ns hmn _ ih =>
    rw [List.find?_cons, List.find?_cons, hmn.name]
    by_cases hname : n.name.value = name
    · rw [decide_eq_true hname]
      exact .some hmn
    · rw [decide_eq_false hname]
      exact ih

theorem Module.blocks_ne_nil_of_reorders {ms ns : List Module}
    (h : List.Forall₂ Module.Reorders ms ns) (hms : ∀ m ∈ ms, m.blocks ≠ []) :
    ∀ n ∈ ns, n.blocks ≠ [] := by
  induction h with
  | nil => exact hms
  | @cons m n ms ns hmn _ ih =>
    rw [List.forall_mem_cons] at hms ⊢
    refine ⟨fun hn => hms.1 ?_, ih hms.2⟩
    have hblocks := hmn.blocks
    rw [hn] at hblocks
    generalize m.blocks = bs at hblocks ⊢
    cases hblocks
    rfl

namespace Program

variable {p q : Program}

theorem Reorders.mirrors (h : p.Reorders q) : p.Mirrors q where
  letters c := by rw [h.alphabet]
  first := Module.head?_reorders h.modules
  find := Module.find?_reorders h.modules

/-- A program that was read and the same program with the cases of its switches in another order
both compile or neither does, and then their machines take the same inputs and run alike. -/
theorem run_of_reorders {text : String} (hp : Program.parse text = .ok p) (h : p.Reorders q) :
    ((∃ a, p.compile = .ok a) ↔ ∃ b, q.compile = .ok b) ∧
    ∀ a b, p.compile = .ok a → q.compile = .ok b → ∀ input : List Symbol,
      Agree Eq (fun m m' => ∀ n, (m.run n).1.Similar (m'.run n).1)
        (Machine.create a input) (Machine.create b input) := by
  have hne : ∀ m ∈ p.modules, m.blocks ≠ [] :=
    fun m hm => ((wellFormed_of_parse hp).modules m hm).ne_nil
  refine ⟨h.exists_compile_iff, fun a b ha hb input => ?_⟩
  exact h.mirrors.run_similar (compiled_of_compile ha) (compiled_of_compile hb) hne
    (Module.blocks_ne_nil_of_reorders h.modules hne) input

def forkText : String :=
  "alphabet = \x7b a, b \x7d module fork \x7b if a \x7b move right changeto b accept \x7d " ++
    "if b \x7b move left changeto a reject \x7d \x7d"

theorem run_forkText : ∃ p q a b, Program.parse forkText = .ok p ∧ p.Reorders q ∧
    p.compile = .ok a ∧ q.compile = .ok b ∧ a ≠ b ∧ ∀ input : List Symbol,
      Agree Eq (fun m m' => ∀ n, (m.run n).1.Similar (m'.run n).1)
        (Machine.create a input) (Machine.create b input) := by
  have hdiffer : ((Program.parse forkText).toOption.bind fun p =>
      p.compile.toOption.bind fun a => p.reverseCases.compile.toOption.map fun b =>
        decide (a ≠ b)) = some true := by
    decide +kernel
  obtain ⟨p, hp⟩ := exists_eq_ok (r := Program.parse forkText) (by decide +kernel)
  rw [hp] at hdiffer
  cases ha : p.compile with
  | error e => simp [Except.toOption, ha] at hdiffer
  | ok a =>
    cases hb : p.reverseCases.compile with
    | error e => simp [Except.toOption, ha, hb] at hdiffer
    | ok b =>
      have hne : a ≠ b := by simpa [Except.toOption, ha, hb] using hdiffer
      have hreorders := p.reorders_reverseCases
      exact ⟨p, _, a, b, hp, hreorders, ha, hb, hne,
        (run_of_reorders hp hreorders).2 a b ha hb⟩

end Program

end TapeLang
