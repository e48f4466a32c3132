import TapeLang.Proofs.Consistency
import TapeLang.Proofs.Labelling
import TapeLang.Proofs.Longest

/-!
Programs that differ in the order of letters and modules.

Checking and compiling go through letters and modules one by one and stop at the first fault, so
the order decides what is reported.  It does not decide whether there is something to report:
consistency speaks of members only (`Program.Consistent.permute`), and that no two modules share a
label is the same in any order (`Program.not_collides_iff`).  Nor does it decide what is built: a
table is determined by its look-ups.  Only the module that comes first counts, since it is where a
run starts.  The letters are looked at when an input is checked and by no step, so a machine runs
alike whatever its alphabet (`Machine.step_withLetters`).
-/

namespace TapeLang

namespace Program

/-- The same program but for the order of its letters, and of its modules after the first. -/
structure Permutes (p q : Program) : Prop where
  letters : p.alphabet.letters.Perm q.alphabet.letters
  first : p.modules.head? = q.modules.head?
  rest : p.modules.tail.Perm q.modules.tail

namespace Permutes

variable {p q : Program}

theorem symm (h : p.Permutes q) : q.Permutes p := ⟨h.letters.symm, h.first.symm, h.rest.symm⟩

theorem values (h : p.Permutes q) : p.alphabet.values.Perm q.alphabet.values :=
  h.letters.map Located.value

theorem modules (h : p.Permutes q) : p.modules.Perm q.modules := by
  have hfirst := h.first
  have hrest := h.rest
  generalize p.modules = ms, q.modules = ns at hfirst hrest ⊢
  cases ms with
  | nil =>
    rw [List.head?_nil, eq_comm, List.head?_eq_none_iff] at hfirst
    rw [hfirst]
  | cons m ms =>
    obtain ⟨ns, rfl⟩ := List.head?_eq_some_iff.mp hfirst.symm
    exact hrest.cons m

end Permutes

section Members

variable {p q : Program} (h : p.modules ⊆ q.modules)
include h

theorem Has.mono {b : Block} (hb : p.Has b) : q.Has b := by
  induction hb with
  | body hm hb => exact .body (h hm) hb
  | inside _ hc hb ih => exact .inside ih hc hb

theorem HasBasic.mono {b : BasicBlock} (hb : p.HasBasic b) : q.HasBasic b := by
  cases hb with
  | block hb => exact .block (hb.mono h)
  | first hb hc => exact .first (hb.mono h) hc

theorem Writes.mono {s : Symbol} (hs : p.Writes s) : q.Writes s := by
  cases hs with
  | basic hb hw => exact .basic (hb.mono h) hw
  | loop hb hc hw => exact .loop (hb.mono h) hc hw

theorem Handles.mono {s : Symbol} (hs : p.Handles s) : q.Handles s := by
  obtain ⟨cases, span, hb, hs⟩ := hs
  exact ⟨cases, span, hb.mono h, hs⟩

theorem JumpsTo.mono {name : String} (hj : p.JumpsTo name) : q.JumpsTo name := by
  obtain ⟨b, target, hb, hf, hname⟩ := hj
  exact ⟨b, target, hb.mono h, hf, hname⟩

end Members

theorem Consistent.permute {p q : Program} (hp : p.Consistent) (h : p.Permutes q) :
    q.Consistent where
  letters := h.values.nodup_iff.mp hp.letters
  modules := (h.modules.map _).nodup_iff.mp hp.modules
  jumps name hj := by
    obtain ⟨m, hm, hname⟩ := hp.jumps name (hj.mono h.modules.symm.subset)
    exact ⟨m, h.modules.mem_iff.mp hm, hname⟩
  written c hw := h.values.mem_iff.mp (hp.written c (hw.mono h.modules.symm.subset))
  handled c hc := h.values.mem_iff.mp (hp.handled c (hc.mono h.modules.symm.subset))
  once cases span hb := hp.once cases span (hb.mono h.modules.symm.subset)

theorem Permutes.check_iff {p q : Program} (h : p.Permutes q) :
    p.check = .ok () ↔ q.check = .ok () := by
  rw [check_eq_ok_iff, check_eq_ok_iff, problems_eq_nil_iff_consistent,
    problems_eq_nil_iff_consistent]
  exact ⟨fun hp => hp.permute h, fun hq => hq.permute h.symm⟩

namespace Permutes

variable {p q : Program} {a b : Automaton}

theorem exists_compile_iff (h : p.Permutes q) :
    (∃ a, p.compile = .ok a) ↔ ∃ b, q.compile = .ok b := by
  have hempty : p.modules = [] ↔ q.modules = [] := by
    rw [← List.length_eq_zero_iff, ← List.length_eq_zero_iff, h.modules.length_eq]
  rw [Program.exists_compile_iff, Program.exists_compile_iff, h.check_iff, not_collides_iff,
    not_collides_iff, h.modules.pairwise_iff Module.Apart.symm, ne_eq, hempty]

theorem initial_eq (h : p.Permutes q) (ha : p.Compiled a) (hb : q.Compiled b) :
    a.initial = b.initial := by
  obtain ⟨m, ms, hm, hinitial⟩ := ha.initial
  obtain ⟨n, ns, hn, hinitial'⟩ := hb.initial
  have hfirst := h.first
  rw [hm, hn, List.head?_cons, List.head?_cons, Option.some.injEq] at hfirst
  rw [hinitial, hinitial', hfirst]

theorem states_eq (h : p.Permutes q) (ha : p.Compiled a) (hb : q.Compiled b) :
    a.states = b.states := by
  refine Table.ext fun label => Option.ext fun state => ?_
  rw [ha.get?_states, hb.get?_states]
  simp only [h.modules.mem_iff]

end Permutes

end Program

/-! ## Running -/

namespace Machine

/-- The machine with another alphabet. -/
def withLetters (letters : List Char) (m : Machine) : Machine :=
  { m with automaton := { m.automaton with alphabet := letters } }

/-- A step does not look at the alphabet. -/
theorem step_withLetters (letters : List Char) (m : Machine) :
    (m.withLetters letters).step = m.step.map (withLetters letters) := by
  have hdue : (m.withLetters letters).due = m.due := rfl
  rw [step_eq_map_due, step_eq_map_due, hdue]
  cases m.due <;> rfl

theorem advance_withLetters (letters : List Char) (n : Nat) (m : Machine) :
    (m.withLetters letters).advance n =
      ((m.advance n).1.withLetters letters, (m.advance n).2) := by
  induction n generalizing m with
  | zero => rfl
  | succ n ih =>
    have hletters := m.step_withLetters letters
    cases hstep : m.step with
    | error halt =>
      rw [hstep] at hletters
      rw [advance_of_error hstep, advance_of_error hletters]
    | ok m' =>
      rw [hstep] at hletters
      rw [advance_succ_of_ok hstep, advance_succ_of_ok hletters]
      exact ih m'

theorem run_withLetters (letters : List Char) (n : Nat) (m : Machine) :
    ((m.withLetters letters).run n).1 = (m.run n).1 := by
  rw [run, run, advance_withLetters]
  rfl

end Machine

/-- Automata that differ in the order of their alphabets run alike. -/
theorem Automaton.run_eq {a b : Automaton} (hinitial : a.initial = b.initial)
    (hstates : a.states = b.states) (hletters : a.alphabet.Perm b.alphabet) (input : String)
    (budget : Nat) : a.run input budget = b.run input budget := by
  have haccepts : b.accepts = a.accepts := by
    funext s
    cases s with
    | blank => rfl
    | letter c =>
      show b.alphabet.contains c = a.alphabet.contains c
      rw [Bool.eq_iff_iff, List.contains_iff_mem, List.contains_iff_mem, hletters.mem_iff]
  have hstart : Machine.start b (Symbol.ofTape input) =
      (Machine.start a (Symbol.ofTape input)).withLetters b.alphabet := by
    obtain ⟨letters, initial, states⟩ := a
    obtain ⟨letters', initial', states'⟩ := b
    obtain rfl : initial = initial' := hinitial
    obtain rfl : states = states' := hstates
    rfl
  have hinput : Machine.checkInput b (Symbol.ofTape input) =
      Machine.checkInput a (Symbol.ofTape input) := by
    rw [Machine.checkInput, Machine.checkInput, haccepts]
  rw [Automaton.run, Automaton.run, Machine.create, Machine.create, hinput, hstart]
  cases Machine.checkInput a (Symbol.ofTape input) with
  | error e => rfl
  | ok _ =>
    have hrun := Machine.run_withLetters b.alphabet budget (Machine.start a (Symbol.ofTape input))
    exact congrArg Except.ok hrun.symm

namespace Program

/-- A program and the same program with its letters, and its modules after the first, in another
order both compile or neither does.  Their automata start alike and have the same states, each has
its letters in the order in which they are declared, and they give the same results. -/
theorem compile_of_permutes {p q : Program} (h : p.Permutes q) :
    ((∃ a, p.compile = .ok a) ↔ ∃ b, q.compile = .ok b) ∧
    ∀ a b, p.compile = .ok a → q.compile = .ok b →
      a.initial = b.initial ∧ a.states = b.states ∧ a.alphabet = p.alphabet.values ∧
      b.alphabet = q.alphabet.values ∧ a.alphabet.Perm b.alphabet ∧
      ∀ (input : String) (budget : Nat), a.run input budget = b.run input budget := by
  refine ⟨h.exists_compile_iff, fun a b ha hb => ?_⟩
  have hp := compiled_of_compile ha
  have hq := compiled_of_compile hb
  have hinitial := h.initial_eq hp hq
  have hstates := h.states_eq hp hq
  have hletters : a.alphabet.Perm b.alphabet := by
    rw [hp.alphabet, hq.alphabet]
    exact h.values
  exact ⟨hinitial, hstates, hp.alphabet, hq.alphabet, hletters,
    Automaton.run_eq hinitial hstates hletters⟩

def reverseRest (p : Program) : Program :=
  ⟨⟨p.alphabet.letters.reverse, p.alphabet.span⟩, p.modules.take 1 ++ p.modules.tail.reverse⟩

theorem permutes_reverseRest (p : Program) : p.Permutes p.reverseRest := by
  refine ⟨(List.reverse_perm _).symm, ?_, ?_⟩
  · rw [reverseRest]
    cases p.modules <;> rfl
  · rw [reverseRest]
    cases p.modules with
    | nil => exact .nil
    | cons m ms => exact (List.reverse_perm ms).symm

/-- Two modules after the first, which jumps to the last one. -/
def relayText : String :=
  "alphabet = \x7b a, b \x7d module start \x7b goto relay \x7d " ++
    "module finish \x7b changeto b accept \x7d module relay \x7b if a \x7b goto finish \x7d \x7d"

theorem compile_relayText : ∃ p q a b, Program.parse relayText = .ok p ∧ p.Permutes q ∧
    p.compile = .ok a ∧ q.compile = .ok b ∧ a.alphabet = ['a', 'b'] ∧ b.alphabet = ['b', 'a'] ∧
    a.states = b.states ∧ ∀ (input : String) (budget : Nat),
      a.run input budget = b.run input budget := by
  have heval : ((Program.parse relayText).toOption.bind fun p =>
      p.compile.toOption.map fun _ => p.alphabet.values) = some ['a', 'b'] := by
    decide +kernel
  obtain ⟨p, hparse, hcompile⟩ := Option.bind_eq_some_iff.mp heval
  obtain ⟨a, hautomaton, hletters⟩ := Option.map_eq_some_iff.mp hcompile
  have hp := eq_ok_of_toOption hparse
  have ha := eq_ok_of_toOption hautomaton
  have h := compile_of_permutes p.permutes_reverseRest
  obtain ⟨b, hb⟩ := h.1.mp ⟨a, ha⟩
  obtain ⟨-, hstates, halphabet, halphabet', -, hrun⟩ := h.2 a b ha hb
  have hreverse : p.reverseRest.alphabet.values = p.alphabet.values.reverse := List.map_reverse ..
  rw [hletters] at halphabet
  rw [hreverse, hletters] at halphabet'
  exact ⟨p, p.reverseRest, a, b, hp, p.permutes_reverseRest, ha, hb, halphabet, halphabet', hstates,
    hrun⟩

end Program

end TapeLang
