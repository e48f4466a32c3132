import TapeLang.Proofs.Restarting
import TapeLang.Proofs.Window

/-!
Computations on words.

A situation is a label together with what is on the tape to the left of the head and from the head
on.  `Automaton.Leads` says that an automaton gets from one situation to another in a number of
steps, whatever machine it is at work in, so a computation is put together from its parts by
`Leads.trans`: a single step, a sweep over a stretch of the tape, blanks that are made explicit
where the head leaves the stretch, or left out again.

`Automaton.HaltsIn` is the meaning of a whole computation as a run sees it, and
`Automaton.Leads.haltsIn` is the way from the one to the other.
-/

namespace TapeLang

def Label.verdict (yes : Bool) : Label := bif yes then accept else reject

def Outcome.verdict (yes : Bool) : Outcome := bif yes then .accept else .reject

namespace Machine

inductive Takes : Nat → Machine → Machine → Prop
  | refl (m : Machine) : Takes 0 m m
  | step {n : Nat} {m m' m'' : Machine} (h : m.step = .ok m') (rest : Takes n m' m'') :
    Takes (n + 1) m m''

section

variable {n k : Nat} {m m' m'' : Machine}

theorem Takes.trans (h : Takes n m m') (h' : Takes k m' m'') : Takes (n + k) m m'' := by
  induction h with
  | refl m => rwa [Nat.zero_add]
  | step hstep _ ih =>
    rw [Nat.add_right_comm]
    exact .step hstep (ih h')

theorem Takes.after (h : Takes n m m') : m.after n = m' := by
  induction h with
  | refl m => rfl
  | step hstep _ ih => rw [after_succ_of_ok hstep, ih]

theorem Takes.lifetime (h : Takes n m m') : m.lifetime = m'.lifetime + n := by
  induction h with
  | refl m => simp
  | step hstep _ ih => rw [lifetime_of_ok hstep, ih, Nat.cast_succ, add_assoc]

/-- A machine at a terminal label takes no step. -/
theorem exists_step_of_verdict {yes : Bool} (h : m.label = Label.verdict yes) :
    ∃ halt, m.step = .error halt ∧ halt.outcome = .verdict yes ∧ ∀ f, halt ≠ .fault f := by
  cases yes with
  | true => exact ⟨.accept, step_eq_accept_iff.mpr h, rfl, nofun⟩
  | false => exact ⟨.reject, step_eq_reject_iff.mpr h, rfl, nofun⟩

theorem Takes.lifetime_eq (h : Takes n m m') {yes : Bool} (hlabel : m'.label = Label.verdict yes) :
    m.lifetime = n := by
  obtain ⟨halt, hstep, -, -⟩ := exists_step_of_verdict hlabel
  rw [h.lifetime, lifetime_of_error hstep, zero_add]

/-- A run that reaches a terminal label in `n` steps and has a budget for them. -/
theorem Takes.run (h : Takes n m m') {yes : Bool} (hlabel : m'.label = Label.verdict yes)
    {budget : Nat} (hn : n ≤ budget) :
    m.run budget = (⟨.verdict yes, m'.tape.window, m.steps + n⟩, m') := by
  have hlife := h.lifetime_eq hlabel
  have hafter : m.after budget = m' := (after_of_lifetime_le hlife hn).trans h.after
  have hsteps : m'.steps = m.steps + n := by
    rw [← h.after]
    exact steps_after hlife.ge
  obtain ⟨halt, hstep, houtcome, hfault⟩ := exists_step_of_verdict hlabel
  have hend : (m.run budget).1.outcome = .verdict yes := by
    rw [← houtcome, outcome_run_eq_iff hfault]
    exact ⟨n, hlife, hn, h.after ▸ hstep⟩
  refine Prod.ext ?_ ?_
  · rw [run_result_eq, hend, hafter, hsteps]
  · rw [run_machine, hafter]

/-- A run that would reach a terminal label in `n` steps and has a budget for fewer. -/
theorem Takes.run_short (h : Takes n m m') {yes : Bool} (hlabel : m'.label = Label.verdict yes)
    {budget : Nat} (hn : budget < n) :
    ∃ window, (m.run budget).1 = ⟨.timeout, window, m.steps + budget⟩ := by
  have hlife := h.lifetime_eq hlabel
  have hlt : (budget : ℕ∞) < m.lifetime := by
    rw [hlife]
    exact Nat.cast_lt.mpr hn
  refine ⟨(m.after budget).tape.window, ?_⟩
  rw [run_result_eq, outcome_run_eq_timeout_iff.mpr (.inl hlt), steps_after hlt.le]

end

end Machine

/-! ## Situations -/

/-- A label and a tape: the symbols from `origin` up to the head, and those from the head on. -/
structure Situation where
  label : Label
  origin : Int
  before : List Symbol
  after : List Symbol

structure Machine.Stands (m : Machine) (a : Automaton) (c : Situation) : Prop where
  automaton : m.automaton = a
  label : m.label = c.label
  head : m.tape.head = c.origin + c.before.length
  sparse : m.tape.Sparse
  shows : m.tape.Shows c.origin (c.before ++ c.after)

/-- What an action does to the cell under the head, and to no other. -/
theorem Tape.Shows.act {t : Tape} {p : Int} {u v : List Symbol} {s : Symbol}
    (h : t.Shows p (u ++ s :: v)) (hhead : t.head = p + u.length) (write : Option Symbol)
    (move : Option Direction) : (t.act write move).Shows p (u ++ write.getD s :: v) := by
  cases write with
  | none =>
    constructor
    · intro q hq
      rw [Tape.read_act]
      exact h.before q hq
    · intro i
      rw [Tape.read_act]
      exact h.cells i
  | some w =>
    constructor
    · intro q hq
      rw [Tape.read_act]
      exact (if_neg (by omega)).trans (h.before q hq)
    · intro i
      rw [Tape.read_act]
      show (if p + i = t.head then w else t.read (p + i)) = (u ++ w :: v)[i]?.getD .blank
      by_cases hi : i = u.length
      · rw [if_pos (by omega), hi, List.getElem?_append_right (Nat.le_refl _), Nat.sub_self]
        rfl
      · rw [if_neg (by omega), h.cells, List.getElem?_append, List.getElem?_append]
        by_cases hlt : i < u.length
        · rw [if_pos hlt, if_pos hlt]
        · obtain ⟨j, hj⟩ : ∃ j, i - u.length = j + 1 := ⟨i - u.length - 1, by omega⟩
          rw [if_neg hlt, if_neg hlt, hj]
          rfl

theorem Tape.Shows.here {t : Tape} {p : Int} {u v : List Symbol} {s : Symbol}
    (h : t.Shows p (u ++ s :: v)) (hhead : t.head = p + u.length) : t.here = s := by
  rw [Tape.here, hhead, h.cells, List.getElem?_append_right (Nat.le_refl _), Nat.sub_self]
  rfl

namespace Automaton

/-- The transition that an automaton takes at a label on a symbol. -/
def Rule (a : Automaton) (label : Label) (s : Symbol) (t : Transition) : Prop :=
  Label.isTerminal label = false ∧ (a.states.get? label).bind (·.on s) = some t

instance (a : Automaton) (label : Label) (s : Symbol) (t : Transition) :
    Decidable (a.Rule label s t) := inferInstanceAs (Decidable (_ ∧ _))

theorem Rule.step {a : Automaton} {m : Machine} {t : Transition}
    (h : a.Rule m.label m.symbol t) (hm : m.automaton = a) : m.step = .ok (m.take t) := by
  obtain ⟨hterminal, hrule⟩ := h
  obtain ⟨state, hs, ht⟩ := Option.bind_eq_some_iff.mp hrule
  obtain ⟨haccept, hreject⟩ := Label.isTerminal_eq_false_iff.mp hterminal
  rw [← hm] at hs
  rw [Machine.step_eq_map_due, Machine.due, if_neg haccept, if_neg hreject, Machine.pending_eq hs,
    ht]
  rfl

/-- Every machine of the automaton in the first situation takes `n` steps to the second one. -/
def Leads (a : Automaton) (n : Nat) (c d : Situation) : Prop :=
  ∀ m : Machine, m.Stands a c → ∃ m', m.Takes n m' ∧ m'.Stands a d

section

variable {a : Automaton} {n k : Nat} {c d e : Situation}

theorem Leads.trans (h : a.Leads n c d) (h' : a.Leads k d e) : a.Leads (n + k) c e := by
  intro m hm
  obtain ⟨m', htakes, hm'⟩ := h m hm
  obtain ⟨m'', htakes', hm''⟩ := h' m' hm'
  exact ⟨m'', htakes.trans htakes', hm''⟩

theorem leads_refl (c : Situation) : a.Leads 0 c c := fun m hm => ⟨m, .refl m, hm⟩

/-- The last situation can be said in another way. -/
theorem Leads.recast (h : a.Leads n c d) (hde : ∀ m : Machine, m.Stands a d → m.Stands a e) :
    a.Leads n c e := by
  intro m hm
  obtain ⟨m', htakes, hm'⟩ := h m hm
  exact ⟨m', htakes, hde m' hm'⟩

variable {l l' : Label} {p : Int} {u v w : List Symbol} {x s : Symbol} {write : Option Symbol}

theorem Leads.padRight (h : a.Leads n c ⟨l, p, u, v⟩) :
    a.Leads n c ⟨l, p, u, v ++ [.blank]⟩ := by
  refine h.recast fun m hm => ⟨hm.automaton, hm.label, hm.head, hm.sparse, ?_⟩
  show m.tape.Shows p (u ++ (v ++ [.blank]))
  rw [← List.append_assoc]
  exact Tape.shows_concat_blank.mpr hm.shows

theorem Leads.dropRight (h : a.Leads n c ⟨l, p, u, v ++ [.blank]⟩) :
    a.Leads n c ⟨l, p, u, v⟩ := by
  refine h.recast fun m hm => ⟨hm.automaton, hm.label, hm.head, hm.sparse,
    Tape.shows_concat_blank.mp ?_⟩
  rw [List.append_assoc]
  exact hm.shows

theorem length_blank_cons (p : Int) (u : List Symbol) :
    p + 1 + u.length = p + (Symbol.blank :: u).length := by
  rw [List.length_cons]
  omega

theorem Leads.padLeft (h : a.Leads n c ⟨l, p + 1, u, v⟩) :
    a.Leads n c ⟨l, p, .blank :: u, v⟩ :=
  h.recast fun _ hm => ⟨hm.automaton, hm.label, hm.head.trans (length_blank_cons p u),
    hm.sparse, Tape.shows_blank_cons.mpr hm.shows⟩

theorem Leads.dropLeft (h : a.Leads n c ⟨l, p, .blank :: u, v⟩) :
    a.Leads n c ⟨l, p + 1, u, v⟩ :=
  h.recast fun _ hm => ⟨hm.automaton, hm.label, hm.head.trans (length_blank_cons p u).symm,
    hm.sparse, Tape.shows_blank_cons.mp hm.shows⟩

/-- A step writes under the head and leads to where the head then is. -/
theorem leads_step {move : Option Direction} {u' v' : List Symbol}
    (h : a.Rule l s ⟨l', write, move⟩) (hcells : u' ++ v' = u ++ write.getD s :: v)
    (hhead : (u'.length : Int) = u.length + move.elim 0 Direction.offset) :
    a.Leads 1 ⟨l, p, u, s :: v⟩ ⟨l', p, u', v'⟩ := by
  intro m hm
  have hrule : a.Rule m.label m.symbol ⟨l', write, move⟩ := by
    rw [hm.label, Machine.symbol, hm.shows.here hm.head]
    exact h
  have hstep := hrule.step hm.automaton
  refine ⟨_, .step hstep (.refl _), hm.automaton, rfl, ?_, Machine.sparse_step hm.sparse hstep, ?_⟩
  · show (m.tape.act write move).head = p + u'.length
    rw [Tape.head_act, hm.head, hhead, Int.add_assoc]
  · show (m.tape.act write move).Shows p (u' ++ v')
    rw [hcells]
    exact hm.shows.act hm.head write move

theorem leads_stay (h : a.Rule l s ⟨l', write, none⟩) :
    a.Leads 1 ⟨l, p, u, s :: v⟩ ⟨l', p, u, write.getD s :: v⟩ :=
  leads_step h rfl (Int.add_zero _).symm

theorem leads_right (h : a.Rule l s ⟨l', write, some .right⟩) :
    a.Leads 1 ⟨l, p, u, s :: v⟩ ⟨l', p, u ++ [write.getD s], v⟩ :=
  leads_step h (List.append_assoc ..) (by simp [Direction.offset])

theorem leads_left (h : a.Rule l s ⟨l', write, some .left⟩) :
    a.Leads 1 ⟨l, p, u ++ [x], s :: v⟩ ⟨l', p, u, x :: write.getD s :: v⟩ :=
  leads_step h (List.append_cons ..) (by simp [Direction.offset])

/-- A state that stays and goes to the right on every symbol of a stretch goes over all of it. -/
theorem leads_sweepRight (h : ∀ s ∈ v, a.Rule l s ⟨l, write, some .right⟩) :
    a.Leads v.length ⟨l, p, u, v ++ w⟩ ⟨l, p, u ++ v.map write.getD, w⟩ := by
  induction v generalizing u with
  | nil =>
    rw [List.map_nil, List.append_nil]
    exact leads_refl _
  | cons s v ih =>
    obtain ⟨hs, hv⟩ := List.forall_mem_cons.mp h
    have hstep : a.Leads 1 ⟨l, p, u, s :: (v ++ w)⟩ ⟨l, p, u ++ [write.getD s], v ++ w⟩ :=
      leads_right hs
    rw [List.length_cons, Nat.add_comm, List.map_cons, List.append_cons]
    exact hstep.trans (ih hv)

/-- A state that stays and goes to the right on every letter of a word leaves the word as it is. -/
theorem leads_scanWord {word : List Char}
    (h : ∀ c ∈ word, a.Rule l (.letter c) ⟨l, none, some .right⟩) :
    a.Leads word.length ⟨l, p, [], word.map .letter ++ w⟩ ⟨l, p, word.map .letter, w⟩ := by
  have hsweep := leads_sweepRight (p := p) (u := []) (w := w) (List.forall_mem_map.mpr h)
  rwa [show (none : Option Symbol).getD = id from rfl, List.map_id, List.length_map] at hsweep

/-- A step to the left into a state that stays and goes to the left on every symbol of a stretch
goes over all of it, to the symbol before the stretch. -/
theorem leads_sweepLeft {write' : Option Symbol} (h : a.Rule l s ⟨l', write, some .left⟩)
    (hsweep : ∀ s ∈ v, a.Rule l' s ⟨l', write', some .left⟩) :
    a.Leads (v.length + 1) ⟨l, p, u ++ x :: v, s :: w⟩
      ⟨l', p, u, x :: (v.map write'.getD ++ write.getD s :: w)⟩ := by
  -- The stretch is used up from its right end, where the head is.
  induction v using List.reverseRecOn generalizing l s w write with
  | nil => exact leads_left h
  | append_singleton v y ih =>
    have hstep : a.Leads 1 ⟨l, p, u ++ x :: v ++ [y], s :: w⟩
        ⟨l', p, u ++ x :: v, y :: write.getD s :: w⟩ := leads_left h
    have hy := hsweep y (List.mem_append_right _ (List.mem_singleton_self y))
    have hrest := ih (w := write.getD s :: w) hy fun s hs => hsweep s (List.mem_append_left _ hs)
    have hall := hstep.trans hrest
    rw [List.append_assoc, List.cons_append, Nat.add_comm] at hall
    rw [List.length_append, List.length_singleton, List.map_append, List.append_assoc]
    exact hall

end

/-! ## Whole computations -/

/-- On an input the automaton halts after exactly `n` steps, with an outcome and a window.  A run
with a smaller budget uses it up. -/
structure HaltsIn (a : Automaton) (input : String) (n : Nat) (outcome : Outcome)
    (window : String) : Prop where
  enough : ∀ budget, n ≤ budget → a.run input budget = .ok ⟨outcome, window, n⟩
  short : ∀ budget < n, ∃ seen, a.run input budget = .ok ⟨.timeout, seen, budget⟩

theorem run_eq_ok {a : Automaton} {input : String} {symbols : List Symbol}
    (hinput : Symbol.ofTape input = symbols) (haccepts : ∀ s ∈ symbols, a.accepts s)
    (budget : Nat) : a.run input budget = .ok ((Machine.start a symbols).run budget).1 := by
  rw [Automaton.run, hinput, Machine.create_of_accepts haccepts]
  rfl

theorem stands_start (a : Automaton) (input : List Symbol) :
    (Machine.start a input).Stands a ⟨a.initial, 0, [], input⟩ := by
  exact ⟨rfl, rfl, rfl, Tape.sparse_ofSymbols input, Tape.shows_ofSymbols input⟩

/-- The symbols of a word without a blank. -/
theorem ofTape_eq_map_letter {word : String} (h : Symbol.blankChar ∉ word.toList) :
    Symbol.ofTape word = word.toList.map .letter := by
  rw [Symbol.ofTape]
  refine List.map_congr_left fun c hc => if_neg ?_
  intro hblank
  exact h (hblank ▸ hc)

section

variable {a : Automaton} {word : String} {n : Nat} {d : Situation} {yes : Bool}

/-- A run that has a budget for a computation leaves the machine in its last situation. -/
theorem Leads.stands_run {input : List Symbol} (h : a.Leads n ⟨a.initial, 0, [], input⟩ d)
    (hlabel : d.label = Label.verdict yes) {budget : Nat} (hn : n ≤ budget) :
    ((Machine.start a input).run budget).2.Stands a d := by
  obtain ⟨m, htakes, hm⟩ := h _ (stands_start a input)
  rw [htakes.run (hm.label.trans hlabel) hn]
  exact hm

/-- A computation on a word over the alphabet that leads to a terminal label is what its runs
show. -/
theorem Leads.haltsIn (hword : ∀ c ∈ word.toList, c ∈ a.alphabet)
    (hblank : Symbol.blankChar ∉ word.toList)
    (h : a.Leads n ⟨a.initial, 0, [], word.toList.map .letter⟩ d)
    (hlabel : d.label = Label.verdict yes) {next : String}
    (hnext : d.before ++ d.after = next.toList.map .letter) :
    a.HaltsIn word n (.verdict yes) next := by
  have haccepts : ∀ s ∈ word.toList.map Symbol.letter, a.accepts s := by
    intro s hs
    obtain ⟨c, hc, rfl⟩ := List.mem_map.mp hs
    exact List.contains_iff_mem.mpr (hword c hc)
  have hrun := run_eq_ok (ofTape_eq_map_letter hblank) haccepts
  obtain ⟨m, htakes, hm⟩ := h _ (stands_start a _)
  have hm' : m.label = Label.verdict yes := hm.label.trans hlabel
  have hwindow : m.tape.window = next := by
    have hshows := hm.shows
    rw [hnext] at hshows
    have hchars : Symbol.toChar ∘ Symbol.letter = id := rfl
    rw [hshows.window (trimmed_map_letter _) hm.sparse, List.map_map, hchars, List.map_id,
      String.ofList_toList]
  have hzero : (Machine.start a (word.toList.map .letter)).steps = 0 := rfl
  constructor
  · intro budget hn
    rw [hrun, htakes.run hm' hn, hwindow, hzero, Nat.zero_add]
  · intro budget hn
    obtain ⟨seen, hseen⟩ := htakes.run_short hm' hn
    refine ⟨seen, ?_⟩
    rw [hrun, hseen, hzero, Nat.zero_add]

end

end Automaton

end TapeLang
