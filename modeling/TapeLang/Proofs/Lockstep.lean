import TapeLang.Machine
import TapeLang.Proofs.Transitions
import TapeLang.Proofs.WellFormed

/-!
Compiling preserves meaning.

An execution of a program and the machine of its automaton take their steps together
(`Program.lockstep_of_compile`).  The relation between them that every step preserves is
`Related`: control is at an occurrence, and the machine is at the label with the number of that
occurrence.  The argument follows control: what is left after a block and what is left in a
branch are again occurrences, a jump leads to the start of a module, and the state found under
the label does what the block says.
-/

namespace TapeLang

def Control.label : Control → Label
  | .here p => .ofIndex p.module.name.value p.number
  | .accept => .accept
  | .reject => .reject

/-- The same reason for an execution and for a machine at the given label to stop. -/
inductive SameStop (label : Label) : Stop → Halt → Prop
  | accept : SameStop label .accept .accept
  | reject : SameStop label .reject .reject
  | unhandled (s : Symbol) :
    SameStop label (.unhandled s) (.fault (.undefinedTransition label s))

/-- Both go on, to an execution and a machine in the relation `R`, or both stop for the same
reason. -/
inductive Alike (R : Execution → Machine → Prop) (label : Label) :
    Except Stop Execution → Except Halt Machine → Prop
  | running {e m} (h : R e m) : Alike R label (.ok e) (.ok m)
  | stopped {s h} (hs : SameStop label s h) : Alike R label (.error s) (.error h)

structure Lockstep (p : Program) (e : Execution) (m : Machine) : Prop where
  head : m.head = e.head
  cells : ∀ i, m.tape.read i = e.cells i
  label : m.label = e.control.label
  status : Alike (fun _ _ => True) m.label (p.step e) m.step

/-- A machine at the label of a point steps as its state says. -/
theorem Machine.step_eq {m : Machine} {state : State} {name : String} {i : Nat}
    (hl : m.label = .ofIndex name i) (h : m.automaton.states.get? m.label = some state) :
    m.step = (state.on m.symbol).elim
      (.error (.fault (.undefinedTransition m.label m.symbol))) (fun t => .ok (m.take t)) := by
  have haccept : m.label ≠ Label.accept := hl ▸ Label.ofIndex_ne_accept name i
  have hreject : m.label ≠ Label.reject := hl ▸ Label.ofIndex_ne_reject name i
  rw [step_eq_map_due, due, if_neg haccept, if_neg hreject, Machine.pending_eq h]
  cases state.on m.symbol <;> rfl

/-- Control and a label that belong together. -/
inductive ControlAt (p : Program) : Control → Label → Prop
  | here {m place i b bs} (hm : m ∈ p.modules) (h : Occurs m place i (b :: bs)) :
    ControlAt p (.here ⟨m, place, b, bs⟩) (.ofIndex m.name.value i)
  | accept : ControlAt p .accept .accept
  | reject : ControlAt p .reject .reject

structure Related (p : Program) (a : Automaton) (e : Execution) (m : Machine) : Prop where
  automaton : m.automaton = a
  head : m.head = e.head
  cells : ∀ i, m.tape.read i = e.cells i
  control : ControlAt p e.control m.label

theorem Related.symbol {p : Program} {a : Automaton} {e : Execution} {m : Machine}
    (h : Related p a e m) : m.symbol = e.symbol := by
  show m.tape.read m.head = e.cells e.head
  rw [h.cells, h.head]

/-- Acting alike keeps heads and cells alike. -/
theorem Related.take {p : Program} {a : Automaton} {e : Execution} {m : Machine}
    (h : Related p a e m) {write : Option (Located Symbol)} {move : Option Direction}
    {control : Control} {next : Label} (hc : ControlAt p control next) :
    Related p a (e.act write move control) (m.take ⟨next, write.map (·.value), move⟩) := by
  refine ⟨h.automaton, ?_, ?_, hc⟩
  · show (m.tape.act _ move).head = e.head + _
    rw [Tape.head_act]
    exact congrArg (· + _) h.head
  · intro i
    have hhead : m.tape.head = e.head := h.head
    show (m.tape.act _ move).read i = write.elim e.cells _ i
    rw [Tape.read_act, h.cells, hhead]
    cases write with
    | none => rfl
    | some s => exact (Function.update_apply e.cells e.head s.value i).symm

theorem ControlAt.enter {p : Program} {m : Module} (hm : m ∈ p.modules) {place : Place} {i : Nat}
    {bs : List Block} (h : Occurs m place i bs) :
    ControlAt p (.enter m place bs) (Block.entry m.name.value i bs) := by
  cases bs with
  | nil => exact .reject
  | cons b bs => exact .here hm h

/-- Control at the start of a module that is not empty. -/
theorem ControlAt.entry {p : Program} {m : Module} (hm : m ∈ p.modules) (hne : m.blocks ≠ []) :
    ControlAt p m.entry (.ofIndex m.name.value 0) := by
  have henter := ControlAt.enter hm (Occurs.body (m := m))
  obtain ⟨b, bs, hbs⟩ := List.exists_cons_of_ne_nil hne
  rwa [show Block.entry m.name.value 0 m.blocks = .ofIndex m.name.value 0 by rw [hbs]; rfl]
    at henter

theorem ControlAt.label_eq {p : Program} {c : Control} {label : Label} (h : ControlAt p c label) :
    label = c.label := by
  cases h with
  | here hm h => rw [Control.label, h.number_eq]
  | accept => rfl
  | reject => rfl

/-! ## One step -/

section

variable {p : Program} {a : Automaton} {e : Execution} {m : Machine}

/-- A flow command leads both to the same place. -/
theorem exists_follow (hne : ∀ m ∈ p.modules, m.blocks ≠ []) {b : BasicBlock}
    (hb : p.scope.basicProblems b = []) {control : Control} {next : Label}
    (hn : ControlAt p control next) :
    ∃ c, p.follow control b.flow = .ok c ∧ ControlAt p c (b.transition next).next := by
  have hflow := (Scope.basicProblems_eq_nil.mp hb).2
  rw [BasicBlock.transition]
  match hf : b.flow with
  | none => exact ⟨control, rfl, hn⟩
  | some .accept => exact ⟨.accept, rfl, .accept⟩
  | some .reject => exact ⟨.reject, rfl, .reject⟩
  | some (.goto target) =>
    obtain ⟨m, hm, hname⟩ := List.mem_map.mp (hflow target hf)
    obtain ⟨m', hfind⟩ := Option.isSome_iff_exists.mp
      (List.find?_isSome.mpr ⟨m, hm, decide_eq_true hname⟩ :
        (p.modules.find? (·.name.value = target.value)).isSome)
    have hm' := List.mem_of_find?_eq_some hfind
    have hname' : m'.name.value = target.value := by
      have hfound := List.find?_some hfind
      exact of_decide_eq_true hfound
    refine ⟨m'.entry, by rw [Program.follow, hfind], ?_⟩
    have hentry := ControlAt.entry hm' (hne m' hm')
    rw [hname'] at hentry
    exact hentry

/-- A basic block is performed alike. -/
theorem exists_perform (hne : ∀ m ∈ p.modules, m.blocks ≠ []) (h : Related p a e m)
    {b : BasicBlock} (hb : p.scope.basicProblems b = []) {control : Control} {next : Label}
    (hn : ControlAt p control next) :
    ∃ e', p.perform e b control = .ok e' ∧ Related p a e' (m.take (b.transition next)) := by
  obtain ⟨c, hfollow, hc⟩ := exists_follow hne hb hn
  refine ⟨e.act b.write b.move c, ?_, h.take hc⟩
  rw [Program.perform, hfollow]
  rfl

theorem Related.alike_here (hc : p.Compiled a) (hne : ∀ m ∈ p.modules, m.blocks ≠ [])
    (h : Related p a e m) {module : Module} {place : Place} {i : Nat} {b : Block}
    {bs : List Block} (hm : module ∈ p.modules) (hocc : Occurs module place i (b :: bs))
    (hcontrol : e.control = .here ⟨module, place, b, bs⟩)
    (hl : m.label = .ofIndex module.name.value i) :
    Alike (Related p a) m.label (p.step e) m.step := by
  have hb := hc.blockProblems_of_occurs hm hocc
  have hget : m.automaton.states.get? m.label =
      some (Point.state ⟨module, place, b, bs⟩ i) := by
    rw [h.automaton, hl]
    exact hc.get?_of_occurs hm hocc
  rw [Machine.step_eq hl hget, Point.on_state hb, h.symbol, Program.step, hcontrol]
  cases b with
  | basic b =>
    rw [Scope.blockProblems] at hb
    obtain ⟨e', hperform, hrel⟩ := exists_perform hne h hb (ControlAt.enter hm hocc.past)
    show Alike (Related p a) m.label (p.perform e b _) (.ok _)
    rw [Point.next, hperform]
    exact .running hrel
  | switch cases span =>
    rw [Scope.blockProblems] at hb
    dsimp only [Point.transition?]
    cases hchoose : Case.choose e.symbol cases with
    | none => exact .stopped (.unhandled e.symbol)
    | some found =>
      obtain ⟨k, c⟩ := found
      have hk := (Case.choose_eq_some hchoose).1
      have hcase := ((Scope.casesProblems_eq_nil.mp hb).1 c (List.mem_of_getElem? hk)).2
      cases c with
      | loop symbols body cspan => exact .running (h.take (.here hm hocc))
      | branch symbols first rest cspan =>
        rw [Scope.bodyProblems, List.append_eq_nil_iff] at hcase
        obtain ⟨e', hperform, hrel⟩ :=
          exists_perform hne h hcase.1 (ControlAt.enter hm (hocc.into hk))
        show Alike (Related p a) m.label (p.perform e first _) (.ok _)
        rw [Point.inside, hperform]
        exact .running hrel

/-- Related executions and machines step alike. -/
theorem Related.alike (hc : p.Compiled a) (hne : ∀ m ∈ p.modules, m.blocks ≠ [])
    (h : Related p a e m) : Alike (Related p a) m.label (p.step e) m.step := by
  have hcontrol := h.control
  generalize hcon : e.control = control at hcontrol
  generalize hl : m.label = label at hcontrol
  cases hcontrol with
  | here hm hocc => exact hl ▸ h.alike_here hc hne hm hocc hcon hl
  | accept =>
    rw [Program.step, hcon, Machine.step_eq_accept_iff.mpr hl]
    exact .stopped .accept
  | reject =>
    rw [Program.step, hcon, Machine.step_eq_reject_iff.mpr hl]
    exact .stopped .reject

theorem Related.lockstep (hc : p.Compiled a) (hne : ∀ m ∈ p.modules, m.blocks ≠ [])
    (h : Related p a e m) : Lockstep p e m := by
  refine ⟨h.head, h.cells, h.control.label_eq, ?_⟩
  have halike := h.alike hc hne
  generalize p.step e = r, m.step = r' at halike ⊢
  cases halike with
  | running _ => exact .running trivial
  | stopped hs => exact .stopped hs

/-- A step keeps executions and machines related. -/
theorem Related.step (hc : p.Compiled a) (hne : ∀ m ∈ p.modules, m.blocks ≠ [])
    (h : Related p a e m) :
    Related p a (stepOrStay p.step e) (stepOrStay Machine.step m) := by
  unfold stepOrStay
  have halike := h.alike hc hne
  generalize p.step e = r, m.step = r' at halike ⊢
  cases halike with
  | running h' => exact h'
  | stopped _ => exact h

theorem Related.iterate (hc : p.Compiled a) (hne : ∀ m ∈ p.modules, m.blocks ≠ [])
    (h : Related p a e m) (n : Nat) :
    Related p a ((stepOrStay p.step)^[n] e) ((stepOrStay Machine.step)^[n] m) := by
  induction n with
  | zero => exact h
  | succ n ih =>
    rw [Function.iterate_succ_apply', Function.iterate_succ_apply']
    exact ih.step hc hne

theorem related_start (hc : p.Compiled a) (hne : ∀ m ∈ p.modules, m.blocks ≠ [])
    (input : List Symbol) : Related p a (p.start input) (Machine.start a input) := by
  obtain ⟨first, more, hmodules, hinitial⟩ := hc.initial
  have hm : first ∈ p.modules := hmodules ▸ List.mem_cons_self ..
  have hentry := ControlAt.entry hm (hne first hm)
  refine ⟨rfl, rfl, Tape.read_ofSymbols input, ?_⟩
  show ControlAt p (p.modules.head?.elim .reject Module.entry) a.initial
  rw [hmodules, hinitial]
  exact hentry

end

/-! ## Whole runs -/

/-- The automaton of a program text runs in lockstep with the program, on every input it takes
and for every number of steps. -/
theorem Program.lockstep_of_compile {text : String} {p : Program} {a : Automaton}
    (hp : Program.parse text = .ok p) (ha : p.compile = .ok a) {input : String} {m : Machine}
    (hm : Machine.create a (Symbol.ofTape input) = .ok m) (n : Nat) :
    Lockstep p ((stepOrStay p.step)^[n] (p.start (Symbol.ofTape input)))
      ((stepOrStay Machine.step)^[n] m) := by
  have hc := Program.compiled_of_compile ha
  have hne : ∀ m ∈ p.modules, m.blocks ≠ [] :=
    fun m hm => ((Program.wellFormed_of_parse hp).modules m hm).ne_nil
  rw [Machine.create_eq_ok hm]
  exact ((related_start hc hne _).iterate hc hne n).lockstep hc hne

theorem Program.lockstep_sampleText :
    ∃ p a m, Program.parse sampleText = .ok p ∧ p.compile = .ok a ∧
      Machine.create a (Symbol.ofTape "ab") = .ok m ∧
      ∀ n, Lockstep p ((stepOrStay p.step)^[n] (p.start (Symbol.ofTape "ab")))
        ((stepOrStay Machine.step)^[n] m) := by
  have hsome : ((Program.parse sampleText).toOption.bind fun p =>
      p.compile.toOption.bind fun a =>
        (Machine.create a (Symbol.ofTape "ab")).toOption).isSome := by
    decide +kernel
  cases hp : Program.parse sampleText with
  | error e => rw [hp] at hsome; cases hsome
  | ok p =>
    rw [hp] at hsome
    cases ha : p.compile with
    | error e => simp [Except.toOption, ha] at hsome
    | ok a =>
      cases hm : Machine.create a (Symbol.ofTape "ab") with
      | error e => simp [Except.toOption, ha, hm] at hsome
      | ok m => exact ⟨p, a, m, rfl, ha, hm, fun n => Program.lockstep_of_compile hp ha hm n⟩

end TapeLang
