import TapeLang.Proofs.Calls

/-!
Sparse tapes and textbook machines.

In the textbooks a tape is a function from positions to symbols.  `Machine.view` forgets how a
tape is stored and keeps its label, its head and that function, and `View.step` is the textbook
step.  A machine steps as its view does (`Machine.map_view_step`), so a machine that any calls lead
to is the textbook machine seen through its view (`Machine.refines_of_reaches`).

No call leaves a blank in the store (`Automaton.Reaches.sparse`), though a tape could hold one.
So what is stored is the letters of the tape, from left to right and each where it is read
(`Tape.Sparse.mem_stored_iff`), and machines whose tapes read alike store the same cells wherever
their heads are.
-/

namespace TapeLang

instance : KeyOrder Int where
  irrefl := Int.lt_irrefl
  trans := Int.lt_trans
  connected h h' := Int.le_antisymm (Int.not_lt.mp h') (Int.not_lt.mp h)

namespace Tape

theorem stored_ascending (t : Tape) : t.stored.Pairwise fun a b => a.1 < b.1 := by
  apply t.cells.ordered_keys_toList.imp
  intro a b hab
  exact Int.compare_eq_lt.mp hab

/-- A sparse tape stores a symbol at a position exactly if it reads a letter there. -/
theorem Sparse.mem_stored_iff {t : Tape} (h : t.Sparse) {p : Int} {s : Symbol} :
    (p, s) ∈ t.stored ↔ s ≠ .blank ∧ t.read p = s := by
  rw [stored, Std.ExtTreeMap.mem_toList_iff_getElem?_eq_some]
  exact h.cells_eq_some_iff

/-- All that a sparse tape stores is letters. -/
theorem Sparse.stored_eq {t : Tape} (h : t.Sparse) :
    t.stored = t.letters.map fun e => (e.1, .letter e.2) := by
  have hletter : ∀ e ∈ t.stored, e.2 ≠ .blank := by
    intro e he
    exact (h.mem_stored_iff.mp he).1
  rw [letters]
  generalize t.stored = l at hletter
  induction l with
  | nil => rfl
  | cons e l ih =>
    have hrest := ih fun e' he' => hletter e' (List.mem_cons_of_mem _ he')
    obtain ⟨p, s⟩ := e
    cases s with
    | blank => exact absurd rfl (hletter (p, .blank) (List.mem_cons_self ..))
    | letter c => exact congrArg ((p, Symbol.letter c) :: ·) hrest

end Tape

/-- Whatever is done with a machine, no blank is ever stored on its tape. -/
theorem Automaton.Reaches.sparse {a : Automaton} {m : Machine} (hm : a.Reaches m) :
    m.tape.Sparse := by
  refine (hm.keeps (P := fun m => m.tape.Sparse) ?_ ?_).property
  · intro input _
    exact Tape.sparse_ofSymbols input
  · intro m m' _ h hstep
    exact Machine.sparse_step h hstep

/-! ## Textbook machines -/

/-- A machine as the textbooks have it: a label, a head, and a symbol at every position. -/
structure View where
  label : Label
  head : Int
  cells : Int → Symbol

namespace View

def symbol (v : View) : Symbol := v.cells v.head

def configuration (v : View) : Configuration := ⟨v.label, v.head, v.symbol⟩

def take (v : View) (t : Transition) : View where
  label := t.next
  head := v.head + t.move.elim 0 Direction.offset
  cells := t.write.elim v.cells (Function.update v.cells v.head)

def step (a : Automaton) (v : View) : Except Halt View :=
  if v.label = Label.accept then .error .accept
  else if v.label = Label.reject then .error .reject
  else match a.states.get? v.label with
    | none => .error (.fault (.invalidState v.label))
    | some state =>
      match state.on v.symbol with
      | none => .error (.fault (.undefinedTransition v.label v.symbol))
      | some t => .ok (v.take t)

def start (a : Automaton) (input : List Symbol) : View where
  label := a.initial
  head := 0
  cells p := if p < 0 then .blank else input[p.toNat]?.getD .blank

end View

namespace Machine

def view (m : Machine) : View := ⟨m.label, m.head, m.tape.read⟩

theorem view_symbol (m : Machine) : m.view.symbol = m.symbol := rfl

theorem view_start (a : Automaton) (input : List Symbol) :
    (start a input).view = .start a input := by
  have hcells : (Tape.ofSymbols input).read =
      fun p => if p < 0 then .blank else input[p.toNat]?.getD .blank :=
    funext (Tape.read_ofSymbols input)
  show View.mk a.initial 0 (Tape.ofSymbols input).read = _
  rw [hcells]
  rfl

theorem view_take (m : Machine) (t : Transition) : (m.take t).view = m.view.take t := by
  have hcells : (m.tape.act t.write t.move).read =
      t.write.elim m.tape.read (Function.update m.tape.read m.tape.head) := by
    funext p
    rw [Tape.read_act]
    cases t.write with
    | none => rfl
    | some s => exact (Function.update_apply m.tape.read m.tape.head s p).symm
  show View.mk t.next (m.tape.act t.write t.move).head (m.tape.act t.write t.move).read = _
  rw [hcells, Tape.head_act]
  rfl

/-- A view that is not at a terminal label asks its state. -/
theorem view_step_of_state {m : Machine} (ht : Label.isTerminal m.label = false) {state : State}
    (hs : m.automaton.states.get? m.label = some state) :
    m.view.step m.automaton = match state.on m.symbol with
      | none => .error (.fault (.undefinedTransition m.label m.symbol))
      | some t => .ok (m.view.take t) := by
  rw [Label.isTerminal_eq_false_iff] at ht
  rw [View.step, view_symbol]
  show (if m.label = Label.accept then _ else if m.label = Label.reject then _ else
    match m.automaton.states.get? m.label with | none => _ | some state => _) = _
  rw [if_neg ht.1, if_neg ht.2, hs]
  rfl

/-- A machine steps as its view does. -/
theorem map_view_step (m : Machine) : m.step.map view = m.view.step m.automaton := by
  have hcase := m.stepCase
  generalize m.step = r at hcase ⊢
  cases hcase with
  | accept h => exact (if_pos h).symm
  | reject h => exact ((if_neg (Label.ne_accept_of_eq_reject h)).trans (if_pos h)).symm
  | invalid ht h =>
    rw [Label.isTerminal_eq_false_iff] at ht
    refine ((if_neg ht.1).trans ((if_neg ht.2).trans ?_)).symm
    show (match m.automaton.states.get? m.label with | none => _ | some state => _) = _
    rw [h]
    rfl
  | undefined ht hs h =>
    rw [view_step_of_state ht hs, h]
    rfl
  | taken ht hs h =>
    rw [view_step_of_state ht hs, h]
    exact congrArg Except.ok (m.view_take _)

/-- Any number of steps of a machine are as many of its view. -/
theorem view_after (n : Nat) (m : Machine) :
    (m.after n).view = (stepOrStay (View.step m.automaton))^[n] m.view := by
  induction n generalizing m with
  | zero => rfl
  | succ n ih =>
    have hview := m.map_view_step
    rw [Function.iterate_succ_apply]
    cases hstep : m.step with
    | error halt =>
      have hstay : stepOrStay (View.step m.automaton) m.view = m.view := by
        rw [stepOrStay, ← hview, hstep]
        rfl
      rw [after_of_error hstep, hstay, Function.iterate_fixed hstay]
    | ok m' =>
      have hgo : stepOrStay (View.step m.automaton) m.view = m'.view := by
        rw [stepOrStay, ← hview, hstep]
        rfl
      have hauto : m'.automaton = m.automaton := by
        obtain ⟨state, t, -, -, rfl⟩ := exists_take_of_ok hstep
        rfl
      rw [after_succ_of_ok hstep, ih, hgo, hauto]

/-- A machine of an automaton that is the textbook machine seen through its view: every call does
to the view what the textbooks say, and its tape stores the cells of the view that are not blank. -/
structure Refines (a : Automaton) (m : Machine) : Prop where
  step : m.step.map view = m.view.step a
  stays : ∀ halt, m.step = .error halt →
    m.perform .step = m ∧ m.perform .next = m ∧ (m.trace 1).1 = []
  goes : ∀ m', m.step = .ok m' → m.perform .step = m' ∧ m.perform .next = m' ∧
    m'.steps = m.steps + 1 ∧ (m.trace 1).1 = [m'.view.configuration]
  answer : (takeStep.run m).1 = (m.view.step a).map View.configuration
  run : ∀ n, (m.perform (.run n)).view = (stepOrStay (View.step a))^[n] m.view
  reset : (m.perform .reset).view = .start a m.input
  load : ∀ text m', m.load (Symbol.ofTape text) = .ok m' →
    m.perform (.load text) = m' ∧ m'.view = .start a (Symbol.ofTape text)
  refuses : ∀ text e, m.load (Symbol.ofTape text) = .error e → m.perform (.load text) = m
  cells : ∀ p, m.view.cells p = m.tape.cells[p]?.getD .blank
  sparse : ∀ p : Int, m.tape.cells[p]? ≠ some .blank
  determined : ∀ (b : Automaton) (m' : Machine), b.Reaches m' → m'.view.cells = m.view.cells →
    m'.tape.cells = m.tape.cells
  ascending : m.tape.stored.Pairwise fun x y => x.1 < y.1
  stored : ∀ p s, (p, s) ∈ m.tape.stored ↔ s ≠ .blank ∧ m.view.cells p = s
  letters : m.tape.stored = m.tape.letters.map fun e => (e.1, .letter e.2)

/-- Whatever is done with a machine, it is the textbook machine seen through its view. -/
theorem refines_of_reaches {a : Automaton} {m : Machine} (hm : a.Reaches m) : m.Refines a := by
  have hauto := hm.automaton
  have hsparse := hm.sparse
  constructor
  · rw [map_view_step, hauto]
  · intro halt hstep
    refine ⟨perform_step_of_error hstep, ?_, ?_⟩
    · rw [perform, trace_of_error hstep]
    · rw [trace_of_error hstep]
  · intro m' hstep
    refine ⟨perform_step_of_ok hstep, ?_, ?_, ?_⟩
    · rw [perform, trace_succ_of_ok hstep]
      rfl
    · obtain ⟨state, t, -, -, rfl⟩ := exists_take_of_ok hstep
      rfl
    · rw [trace_succ_of_ok hstep]
      rfl
  · rw [← hauto, ← map_view_step]
    cases hstep : m.step with
    | error halt => rw [run_takeStep_of_error hstep]; rfl
    | ok m' => rw [run_takeStep_of_ok hstep]; rfl
  · intro n
    rw [perform, run_machine, view_after, hauto]
  · rw [perform, Machine.reset, view_start, hauto]
  · intro text m' hload
    refine ⟨perform_load_of_ok hload, ?_⟩
    rw [load_eq, hauto] at hload
    rw [create_eq_ok hload, view_start]
  · intro text e hload
    exact perform_load_of_error hload
  · intro p
    rfl
  · exact hsparse
  · intro b m' hm' hcells
    exact hm'.sparse.cells_ext hsparse fun p => congrFun hcells p
  · exact m.tape.stored_ascending
  · intro p s
    exact hsparse.mem_stored_iff
  · exact hsparse.stored_eq

theorem refines_eraser :
    ∃ m : Machine, Automaton.eraser.Reaches m ∧ m.head = 1 ∧
      m.tape.stored = [(1, .letter 'b')] ∧ m.Refines .eraser := by
  have hreaches : Automaton.eraser.Reaches
      ((start Automaton.eraser (Symbol.ofTape "b")).performAll
        [.run 7, .load "ab", .run 2, .reset, .step, .load "x"]) :=
    ⟨Symbol.ofTape "b", _, _, rfl, rfl⟩
  exact ⟨_, hreaches, by decide +kernel, by decide +kernel, refines_of_reaches hreaches⟩

end Machine

end TapeLang
