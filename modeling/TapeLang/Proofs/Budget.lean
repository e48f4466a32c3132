import Mathlib.Data.ENat.Lattice
import TapeLang.Proofs.Stepping

/-!
What a budget of steps means.

`Machine.lifetime` is how many steps a machine can take before there is none, and may be infinite.
A run within a budget takes as many steps as both allow (`Machine.advance_eq`), and how it ends is
decided by which of the two is smaller.  The two are compared differently for the two reasons to
stop: a terminal label is seen by looking at the machine, so it counts also when the budget is used
up, while a missing transition shows only when another step is tried.

A run can be cut in two (`Machine.run_run_machine`).  Nothing is lost but the fault of the first
part when the second has no budget to meet it again.
-/

namespace TapeLang

namespace Machine

open Classical in
/-- The number of steps before the first one that is not taken. -/
noncomputable def lifetime (m : Machine) : ℕ∞ :=
  if h : ∃ n, ∃ halt, (m.after n).step = .error halt then Nat.find h else ⊤

theorem lifetime_eq_coe_iff {m : Machine} {k : Nat} :
    m.lifetime = k ↔ (∃ halt, (m.after k).step = .error halt) ∧
      ∀ i < k, ∃ m', (m.after i).step = .ok m' := by
  classical
  have hok : ∀ i, (¬ ∃ halt, (m.after i).step = .error halt) ↔
      ∃ m', (m.after i).step = .ok m' := by
    intro i
    cases (m.after i).step <;> simp
  rw [lifetime]
  split
  · next h => simp only [Nat.cast_inj, Nat.find_eq_iff, hok]
  · next h =>
    refine iff_of_false (ENat.top_ne_natCast k) fun hk => h ⟨k, hk.1⟩

theorem lifetime_of_error {m : Machine} {halt : Halt} (h : m.step = .error halt) :
    m.lifetime = 0 :=
  lifetime_eq_coe_iff.mpr ⟨⟨halt, h⟩, fun _ hi => absurd hi (Nat.not_lt_zero _)⟩

theorem lifetime_of_ok {m m' : Machine} (h : m.step = .ok m') :
    m.lifetime = m'.lifetime + 1 := by
  -- A lifetime `k + 1` of the first is a lifetime `k` of the second, and conversely.
  have hshift : ∀ k : Nat, m.lifetime = (k + 1 : Nat) ↔ m'.lifetime = k := by
    intro k
    rw [lifetime_eq_coe_iff, lifetime_eq_coe_iff, after_succ_of_ok h]
    refine and_congr_right fun _ => ⟨fun hall i hi => ?_, fun hall i hi => ?_⟩
    · have hnext := hall (i + 1) (Nat.succ_lt_succ hi)
      rwa [after_succ_of_ok h] at hnext
    · cases i with
      | zero => exact ⟨m', h⟩
      | succ i =>
        rw [after_succ_of_ok h]
        exact hall i (Nat.lt_of_succ_lt_succ hi)
  have hne : m.lifetime ≠ (0 : Nat) := by
    intro hzero
    obtain ⟨⟨halt, herror⟩, -⟩ := lifetime_eq_coe_iff.mp hzero
    rw [after_zero, h] at herror
    cases herror
  cases hm' : m'.lifetime with
  | coe k => exact (hshift k).mpr hm'
  | top =>
    cases hm : m.lifetime with
    | top => rfl
    | coe k =>
      cases k with
      | zero => exact absurd hm hne
      | succ k =>
        rw [(hshift k).mp hm] at hm'
        cases hm'

theorem lt_lifetime_iff {m : Machine} {n : Nat} :
    (n : ℕ∞) < m.lifetime ↔ ∃ m', (m.after n).step = .ok m' := by
  induction n generalizing m with
  | zero =>
    rw [after_zero]
    cases hstep : m.step with
    | error halt => simp [lifetime_of_error hstep]
    | ok m' => simp [lifetime_of_ok hstep]
  | succ n ih =>
    cases hstep : m.step with
    | error halt => simp [lifetime_of_error hstep, after_of_error hstep, hstep]
    | ok m' =>
      rw [lifetime_of_ok hstep, after_succ_of_ok hstep, ← ih, Nat.cast_add, Nat.cast_one,
        ENat.add_lt_add_iff_right ENat.one_ne_top]

theorem lifetime_le_iff {m : Machine} {n : Nat} :
    m.lifetime ≤ n ↔ ∃ halt, (m.after n).step = .error halt := by
  rw [← not_lt, lt_lifetime_iff]
  cases (m.after n).step <;> simp

/-- From the end of its lifetime on a machine stays as it is. -/
theorem after_of_lifetime_le {m : Machine} {k n : Nat} (hk : m.lifetime = k) (hkn : k ≤ n) :
    m.after n = m.after k := by
  obtain ⟨⟨halt, herror⟩, -⟩ := lifetime_eq_coe_iff.mp hk
  rw [← Nat.add_sub_cancel' hkn, after_add, after_of_error herror]

/-- Every step within the lifetime is counted. -/
theorem steps_after {m : Machine} {j : Nat} (h : (j : ℕ∞) ≤ m.lifetime) :
    (m.after j).steps = m.steps + j := by
  induction j generalizing m with
  | zero => rfl
  | succ j ih =>
    cases hstep : m.step with
    | error halt =>
      rw [lifetime_of_error hstep] at h
      exact absurd h (by simp)
    | ok m' =>
      have hcount : m'.steps = m.steps + 1 := by
        obtain ⟨state, t, -, -, rfl⟩ := exists_take_of_ok hstep
        rfl
      rw [lifetime_of_ok hstep, Nat.cast_add, Nat.cast_one] at h
      rw [after_succ_of_ok hstep, ih (by simpa using h), hcount]
      omega

/-! ## Runs -/

def halt? (m : Machine) : Option Halt :=
  match m.step with
  | .ok _ => none
  | .error halt => some halt

theorem halt?_eq_some_iff {m : Machine} {halt : Halt} :
    m.halt? = some halt ↔ m.step = .error halt := by
  rw [halt?]
  cases m.step <;> simp

/-- A run within a budget takes the steps that the lifetime allows, and learns why there are no
more if it has budget left to ask. -/
theorem advance_eq (n : Nat) (m : Machine) :
    m.advance n = (m.after n, if m.lifetime < n then (m.after n).halt? else none) := by
  induction n generalizing m with
  | zero => simp [advance]
  | succ n ih =>
    cases hstep : m.step with
    | error halt =>
      have hhalt : m.halt? = some halt := halt?_eq_some_iff.mpr hstep
      rw [advance_of_error hstep, after_of_error hstep, lifetime_of_error hstep,
        if_pos (by simp), hhalt]
    | ok m' =>
      rw [advance_succ_of_ok hstep, ih, after_succ_of_ok hstep, lifetime_of_ok hstep, Nat.cast_add,
        Nat.cast_one]
      simp only [ENat.add_lt_add_iff_right (ENat.one_ne_top)]

theorem run_machine (n : Nat) (m : Machine) : (m.run n).2 = m.after n := by
  rw [run, advance_eq]

theorem run_result (n : Nat) (m : Machine) :
    (m.run n).1 = (m.after n).result (if m.lifetime < n then (m.after n).halt? else none) := by
  rw [run, advance_eq]

/-- What is seen of a machine without asking it for a step. -/
theorem outcome_none (m : Machine) :
    m.outcome none = match m.step with
      | .error .accept => .accept
      | .error .reject => .reject
      | _ => .timeout := by
  have hterminal := @Label.isTerminal_eq_false_iff m.label
  have hcase := m.stepCase
  rw [outcome]
  generalize m.step = r at hcase ⊢
  cases hcase with
  | accept h => rw [if_pos h]
  | reject h => rw [if_neg (Label.ne_accept_of_eq_reject h), if_pos h]
  | invalid ht h => rw [if_neg (hterminal.mp ht).1, if_neg (hterminal.mp ht).2]
  | undefined ht hs h => rw [if_neg (hterminal.mp ht).1, if_neg (hterminal.mp ht).2]
  | taken ht hs h => rw [if_neg (hterminal.mp ht).1, if_neg (hterminal.mp ht).2]

/-- The outcome of a run, by what the machine it leaves would do next. -/
theorem outcome_run (n : Nat) (m : Machine) :
    (m.run n).1.outcome = match (m.after n).step with
      | .ok _ => .timeout
      | .error .accept => .accept
      | .error .reject => .reject
      | .error (.fault f) => if m.lifetime < n then .fault f else .timeout := by
  rw [run_result]
  show (m.after n).outcome _ = _
  by_cases hlt : m.lifetime < n
  · obtain ⟨halt, hstep⟩ := lifetime_le_iff.mp hlt.le
    rw [if_pos hlt, halt?_eq_some_iff.mpr hstep, hstep]
    cases halt with
    | accept => rfl
    | reject => rfl
    | fault f => exact (if_pos hlt).symm
  · rw [if_neg hlt, outcome_none]
    cases (m.after n).step with
    | ok m' => rfl
    | error halt =>
      cases halt with
      | accept => rfl
      | reject => rfl
      | fault f => exact (if_neg hlt).symm

/-- A fact about the machine at the end of its lifetime, if that is within the budget. -/
theorem exists_lifetime_iff {m : Machine} {n : Nat} {P : Machine → Prop} :
    (∃ k : Nat, m.lifetime = k ∧ k ≤ n ∧ P (m.after k)) ↔ m.lifetime ≤ n ∧ P (m.after n) := by
  constructor
  · intro h
    obtain ⟨k, hk, hkn, hP⟩ := h
    rw [after_of_lifetime_le hk hkn, hk]
    exact ⟨Nat.cast_le.mpr hkn, hP⟩
  · intro h
    obtain ⟨k, hk⟩ := ENat.ne_top_iff_exists.mp (ne_top_of_le_ne_top (ENat.natCast_ne_top n) h.1)
    have hkn : k ≤ n := by
      rw [← hk] at h
      exact Nat.cast_le.mp h.1
    refine ⟨k, hk.symm, hkn, ?_⟩
    rw [← after_of_lifetime_le hk.symm hkn]
    exact h.2

theorem trace_machine (n : Nat) (m : Machine) : (m.trace n).2 = m.after n := by
  induction n generalizing m with
  | zero => rfl
  | succ n ih =>
    cases hstep : m.step with
    | error halt => rw [trace_of_error hstep, after_of_error hstep]
    | ok m' =>
      rw [trace_succ_of_ok hstep, after_succ_of_ok hstep]
      exact ih m'

theorem length_trace (n : Nat) (m : Machine) :
    ((m.trace n).1.length : ℕ∞) = min (n : ℕ∞) m.lifetime := by
  induction n generalizing m with
  | zero => simp [trace]
  | succ n ih =>
    cases hstep : m.step with
    | error halt => simp [trace_of_error hstep, lifetime_of_error hstep]
    | ok m' =>
      rw [trace_succ_of_ok hstep, List.length_cons, Nat.cast_add, Nat.cast_one, ih,
        lifetime_of_ok hstep, Nat.cast_add, Nat.cast_one, min_add_add_right]

theorem getElem?_trace {n i : Nat} {m : Machine} (hi : i < (m.trace n).1.length) :
    (m.trace n).1[i]? = some (m.after (i + 1)).configuration := by
  induction n generalizing m i with
  | zero => exact absurd hi (Nat.not_lt_zero i)
  | succ n ih =>
    cases hstep : m.step with
    | error halt =>
      rw [trace_of_error hstep] at hi
      exact absurd hi (Nat.not_lt_zero i)
    | ok m' =>
      rw [trace_succ_of_ok hstep] at hi ⊢
      rw [after_succ_of_ok hstep]
      cases i with
      | zero => rfl
      | succ i => exact ih (Nat.lt_of_succ_lt_succ hi)

/-- The steps that budget and lifetime both allow lead to where the budget alone leads. -/
theorem after_of_eq_min {m : Machine} {n j : Nat} (hj : (j : ℕ∞) = min (n : ℕ∞) m.lifetime) :
    m.after n = m.after j := by
  rcases le_total (n : ℕ∞) m.lifetime with hle | hle
  · rw [min_eq_left hle, Nat.cast_inj] at hj
    rw [hj]
  · rw [min_eq_right hle] at hj
    rw [← hj] at hle
    exact after_of_lifetime_le hj.symm (Nat.cast_le.mp hle)

theorem lifetime_after (b : Nat) (m : Machine) : (m.after b).lifetime = m.lifetime - b := by
  induction b generalizing m with
  | zero => simp
  | succ b ih =>
    cases hstep : m.step with
    | error halt => simp [after_of_error hstep, lifetime_of_error hstep]
    | ok m' =>
      rw [after_succ_of_ok hstep, ih, lifetime_of_ok hstep]
      cases m'.lifetime with
      | top => exact (ENat.top_sub_natCast (b + 1)).symm
      | coe k =>
        norm_cast
        omega

theorem run_run_machine (b c : Nat) (m : Machine) :
    ((m.run b).2.run c).2 = (m.run (b + c)).2 := by
  rw [run_machine, run_machine, run_machine, after_add]

/-- A result is that of the machine left, but for the outcome. -/
theorem run_result_eq (n : Nat) (m : Machine) :
    (m.run n).1 = ⟨(m.run n).1.outcome, (m.after n).tape.window, (m.after n).steps⟩ := by
  rw [run_result]
  rfl

theorem run_run_result_iff (b c : Nat) (m : Machine) :
    ((m.run b).2.run c).1 = (m.run (b + c)).1 ↔
      ((m.run b).2.run c).1.outcome = (m.run (b + c)).1.outcome := by
  constructor
  · intro h
    rw [h]
  · intro h
    rw [run_result_eq c, run_result_eq (b + c), h, run_machine, after_add]

/-- A second run with a budget meets every fault that one run would have met. -/
theorem outcome_run_run (b : Nat) {c : Nat} (hc : c ≠ 0) (m : Machine) :
    ((m.run b).2.run c).1.outcome = (m.run (b + c)).1.outcome := by
  have hlt : m.lifetime - b < c ↔ m.lifetime < (b + c : Nat) := by
    cases m.lifetime with
    | top => simp
    | coe k =>
      norm_cast
      omega
  rw [outcome_run, outcome_run, run_machine, lifetime_after, after_add]
  simp only [hlt]

/-- A second run without a budget sees what can be seen of the machine, which is all but a
fault. -/
theorem outcome_run_run_zero (b : Nat) (m : Machine) :
    ((m.run b).2.run 0).1.outcome = (m.run b).1.outcome ↔
      ¬ ∃ f, (m.run b).1.outcome = .fault f := by
  have hzero : ((m.run b).2.run 0).1.outcome = (m.after b).outcome none := by
    rw [run_machine]
    rfl
  rw [hzero, outcome_none, outcome_run]
  cases (m.after b).step with
  | ok m' => simp
  | error halt =>
    cases halt with
    | accept => simp
    | reject => simp
    | fault f => by_cases hlt : m.lifetime < b <;> simp [hlt]

/-- More budget changes nothing about a run that has halted or met a fault. -/
theorem run_of_le {m : Machine} {b c : Nat} (hbc : b ≤ c)
    (h : (m.run b).1.outcome ≠ .timeout) : m.run c = m.run b := by
  rw [outcome_run] at h
  cases hstep : (m.after b).step with
  | ok m' =>
    rw [hstep] at h
    exact absurd rfl h
  | error halt =>
    have hafter : m.after c = m.after b := by
      rw [← Nat.add_sub_cancel' hbc, after_add, after_of_error hstep]
    have houtcome : (m.run c).1.outcome = (m.run b).1.outcome := by
      rw [outcome_run, outcome_run, hafter, hstep]
      cases halt with
      | accept => rfl
      | reject => rfl
      | fault f =>
        rw [hstep] at h
        have hlt : m.lifetime < b := by
          by_contra hnot
          exact h (if_neg hnot)
        have hlt' : m.lifetime < c := lt_of_lt_of_le hlt (Nat.cast_le.mpr hbc)
        simp only [hlt, hlt', if_true]
    refine Prod.ext ?_ ?_
    · rw [run_result_eq c, run_result_eq b, houtcome, hafter]
    · rw [run_machine, run_machine, hafter]

/-! ## The laws of a budget -/

section

variable {m : Machine} {n : Nat}

/-- A terminal label is seen whatever budget is left. -/
theorem outcome_run_eq_iff {halt : Halt} (hf : ∀ f, halt ≠ .fault f) :
    (m.run n).1.outcome = halt.outcome ↔
      ∃ k : Nat, m.lifetime = k ∧ k ≤ n ∧ (m.after k).step = .error halt := by
  rw [exists_lifetime_iff (P := fun m => m.step = .error halt), lifetime_le_iff, outcome_run]
  cases (m.after n).step with
  | ok m' => cases halt <;> simp_all [Halt.outcome]
  | error other =>
    cases other with
    | accept => cases halt <;> simp_all [Halt.outcome]
    | reject => cases halt <;> simp_all [Halt.outcome]
    | fault f =>
      refine iff_of_false ?_ fun h => ?_
      · show (if m.lifetime < n then Outcome.fault f else .timeout) ≠ halt.outcome
        split <;> cases halt <;> simp_all [Halt.outcome]
      · obtain ⟨-, h⟩ := h
        cases h
        exact hf f rfl

theorem outcome_run_eq_fault_iff {f : Fault} : (m.run n).1.outcome = .fault f ↔
    m.lifetime < n ∧ (m.after n).step = .error (.fault f) := by
  rw [outcome_run]
  cases (m.after n).step with
  | ok m' => simp
  | error halt =>
    cases halt with
    | accept => simp
    | reject => simp
    | fault g => by_cases hlt : m.lifetime < n <;> simp [hlt]

theorem outcome_run_eq_timeout_iff : (m.run n).1.outcome = .timeout ↔
    n < m.lifetime ∨ m.lifetime = n ∧ ∃ f, (m.after n).step = .error (.fault f) := by
  have hle := @lifetime_le_iff m n
  rw [outcome_run, lt_lifetime_iff]
  cases hstep : (m.after n).step with
  | ok m' => simp
  | error halt =>
    cases halt with
    | accept => simp
    | reject => simp
    | fault f =>
      have hlt : ¬ m.lifetime < n ↔ m.lifetime = n := by
        rw [not_lt]
        exact ⟨fun h => le_antisymm (hle.mpr ⟨_, hstep⟩) h, fun h => h.ge⟩
      by_cases heq : m.lifetime = n
      · simp [heq]
      · simp [heq, not_not.mp (mt hlt.mp heq)]

end

/-- What a run of as many as `n` steps leaves and returns if it takes `j` of them. -/
structure RunsFor (m : Machine) (n j : Nat) : Prop where
  machine : (m.run n).2 = m.after j
  steps : (m.run n).1.steps = m.steps + j
  window : (m.run n).1.window = (m.after j).tape.window
  accept : (m.run n).1.outcome = .accept ↔
    ∃ k : Nat, m.lifetime = k ∧ k ≤ n ∧ (m.after k).label = Label.accept
  reject : (m.run n).1.outcome = .reject ↔
    ∃ k : Nat, m.lifetime = k ∧ k ≤ n ∧ (m.after k).label = Label.reject
  fault : ∀ f, (m.run n).1.outcome = .fault f ↔
    ∃ k : Nat, m.lifetime = k ∧ k < n ∧ (m.after k).step = .error (.fault f)
  timeout : (m.run n).1.outcome = .timeout ↔
    n < m.lifetime ∨ m.lifetime = n ∧ ∃ f, (m.after n).step = .error (.fault f)

/-- What a trace of as many as `n` steps leaves and returns if it takes `j` of them. -/
structure TracesFor (m : Machine) (n j : Nat) : Prop where
  machine : (m.trace n).2 = m.after j
  length : (m.trace n).1.length = j
  configurations : ∀ i < j, (m.trace n).1[i]? = some (m.after (i + 1)).configuration

theorem runsFor {m : Machine} {n j : Nat} (hj : (j : ℕ∞) = min (n : ℕ∞) m.lifetime) :
    m.RunsFor n j := by
  have hafter := after_of_eq_min hj
  constructor
  · rw [run_machine, hafter]
  · rw [run_result_eq, hafter]
    exact steps_after (hj.trans_le (min_le_right _ _))
  · rw [run_result_eq, hafter]
  · simp only [← step_eq_accept_iff]
    exact @outcome_run_eq_iff m n .accept fun _ h => nomatch h
  · simp only [← step_eq_reject_iff]
    exact @outcome_run_eq_iff m n .reject fun _ h => nomatch h
  · intro f
    rw [outcome_run_eq_fault_iff]
    constructor
    · intro h
      obtain ⟨k, hk, hkn, hstep⟩ := exists_lifetime_iff
        (P := fun m => m.step = .error (.fault f)) |>.mpr ⟨h.1.le, h.2⟩
      rw [hk, Nat.cast_lt] at h
      exact ⟨k, hk, h.1, hstep⟩
    · intro h
      obtain ⟨k, hk, hkn, hstep⟩ := h
      rw [after_of_lifetime_le hk hkn.le, hk]
      exact ⟨Nat.cast_lt.mpr hkn, hstep⟩
  · exact outcome_run_eq_timeout_iff

theorem tracesFor {m : Machine} {n j : Nat} (hj : (j : ℕ∞) = min (n : ℕ∞) m.lifetime) :
    m.TracesFor n j := by
  have hlength : (m.trace n).1.length = j := by
    rw [← Nat.cast_inj (R := ℕ∞), length_trace, hj]
  refine ⟨?_, hlength, fun i hi => ?_⟩
  · rw [trace_machine, after_of_eq_min hj]
  · exact getElem?_trace (hlength ▸ hi)

/-- A run or a trace of as many as `n` steps takes as many as `n` and the lifetime of the machine
allow, and returns what `RunsFor` and `TracesFor` say.  A run in two parts leaves the same machine
as one run with both budgets, and its second part returns the same result unless it has no budget
and the first part met a fault.  A run that has halted or met a fault is the run with any larger
budget. -/
theorem run_budget (m : Machine) :
    (∀ n : Nat, ∃ j : Nat, (j : ℕ∞) = min (n : ℕ∞) m.lifetime ∧ m.RunsFor n j ∧ m.TracesFor n j) ∧
    (∀ b c : Nat, ((m.run b).2.run c).2 = (m.run (b + c)).2 ∧
      (((m.run b).2.run c).1 = (m.run (b + c)).1 ↔
        ¬ (c = 0 ∧ ∃ f, (m.run b).1.outcome = .fault f))) ∧
    ∀ b c : Nat, b ≤ c → (m.run b).1.outcome ≠ .timeout → m.run c = m.run b := by
  refine ⟨fun n => ?_, fun b c => ⟨run_run_machine b c m, ?_⟩, fun b c hbc h => run_of_le hbc h⟩
  · have hj := length_trace n m
    exact ⟨_, hj, runsFor hj, tracesFor hj⟩
  · rw [run_run_result_iff]
    by_cases hc : c = 0
    · subst hc
      simpa using outcome_run_run_zero b m
    · exact iff_of_true (outcome_run_run b hc m) fun h => hc h.1

theorem run_budget_eraser :
    ((start Automaton.eraser (Symbol.ofTape "ab")).run 3).1 = ⟨.accept, "", 3⟩ ∧
      (start Automaton.eraser (Symbol.ofTape "ab")).run 10 =
        (start Automaton.eraser (Symbol.ofTape "ab")).run 3 := by
  have hthree : ((start Automaton.eraser (Symbol.ofTape "ab")).run 3).1 = ⟨.accept, "", 3⟩ := by
    decide +kernel
  refine ⟨hthree, (run_budget _).2.2 3 10 (by decide) ?_⟩
  rw [hthree]
  decide

end Machine
end TapeLang
