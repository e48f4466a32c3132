import TapeLang.Proofs.Window

/-!
How far a machine gets.

A head moves by at most one cell in a step, so it is no farther from where it started than there
were steps, and letters are stored only where the input was or where the head has been.
`Machine.Within` says this of a machine: it holds at every start, and a step keeps it because what
is written is written before the head moves.  Two bounds follow: positions fit into 64-bit words for
as long as the number of steps does, and a window is no longer than the stretch between the bounds.
-/

namespace TapeLang

theorem Direction.offset_bounds (d : Option Direction) :
    -1 ≤ d.elim 0 Direction.offset ∧ d.elim 0 Direction.offset ≤ 1 := by
  cases d with
  | none => decide
  | some d => cases d <;> decide

namespace Machine

/-- The head and the letters are where the steps taken and the input allow. -/
structure Within (m : Machine) : Prop where
  head : m.head.natAbs ≤ m.steps
  cells : ∀ p, m.tape.read p ≠ .blank → -(m.steps : Int) ≤ p ∧ p < max m.input.length m.steps

theorem within_start (a : Automaton) (input : List Symbol) : (start a input).Within := by
  constructor
  · show (Tape.ofSymbols input).head.natAbs ≤ 0
    exact Nat.le_refl 0
  · intro p hp
    have hread := (Tape.shows_ofSymbols input).read_eq p
    have hlower : 0 ≤ p := by
      by_contra hneg
      rw [if_pos (by omega)] at hread
      exact hp hread
    have hupper : p < input.length := by
      by_contra hlarge
      rw [if_neg (by omega), List.getElem?_eq_none (by omega)] at hread
      exact hp hread
    show -((0 : Nat) : Int) ≤ p ∧ p < (max input.length 0 : Nat)
    omega

/-- A step writes where the head is and then moves it by at most one cell. -/
theorem Within.step {m m' : Machine} (h : m.Within) (hstep : m.step = .ok m') : m'.Within := by
  obtain ⟨state, t, -, -, rfl⟩ := exists_take_of_ok hstep
  have hhead : m.tape.head.natAbs ≤ m.steps := h.head
  have hoffset := Direction.offset_bounds t.move
  constructor
  · show (m.tape.act t.write t.move).head.natAbs ≤ m.steps + 1
    rw [Tape.head_act]
    omega
  · intro p hp
    show -((m.steps + 1 : Nat) : Int) ≤ p ∧ p < (max m.input.length (m.steps + 1) : Nat)
    by_cases hwritten : p = m.tape.head
    · omega
    · have hkept : (m.take t).tape.read p = m.tape.read p := by
        show (m.tape.act t.write t.move).read p = _
        rw [Tape.read_act]
        cases t.write with
        | none => rfl
        | some s => exact if_neg hwritten
      have hcell := h.cells p (hkept ▸ hp)
      omega

theorem within_of_reaches {a : Automaton} {m : Machine} (hm : a.Reaches m) : m.Within :=
  (hm.keeps (fun _ => within_start a _) fun _ h hstep => h.step hstep).property

/-- The window reaches from the first letter to the last one, so both bound its length. -/
theorem Within.length_window {m : Machine} (h : m.Within) (hsparse : m.tape.Sparse) :
    m.tape.window.length ≤ m.steps + max m.input.length m.steps := by
  obtain ⟨p, l, hshows, hl⟩ := hsparse.exists_shows
  rw [hshows.length_window hl hsparse]
  cases hlast : l.getLast? with
  | none =>
    rw [List.getLast?_eq_none_iff.mp hlast]
    exact Nat.zero_le _
  | some s =>
    have hne : l ≠ [] := List.getLast?_isSome.mp (by rw [hlast]; rfl)
    have hpos : 0 < l.length := List.length_pos_iff.mpr hne
    have hfirst := h.cells p (hshows.isLeast hl hne).1
    have hread : m.tape.read (p + (l.length - 1 : Nat)) = s := by
      rw [hshows.cells, ← List.getLast?_eq_getElem?, hlast]
      rfl
    have hend := h.cells (p + (l.length - 1 : Nat)) (by
      rw [hread]
      exact fun hblank => hl.last (hblank ▸ hlast))
    omega

/-- The head of a step is the sum of two 64-bit words. -/
theorem Within.head_step {m m' : Machine} (h : m.Within) (hstep : m.step = .ok m')
    (hsteps : m.steps < 2 ^ 63 - 1) :
    ∃ t, m.pending = .ok t ∧ (Int64.ofInt m.head).toInt = m.head ∧
      (Int64.ofInt m.head + Int64.ofInt (t.move.elim 0 Direction.offset)).toInt = m'.head := by
  obtain ⟨state, t, hs, ht, rfl⟩ := exists_take_of_ok hstep
  have hhead := h.head
  have hoffset := Direction.offset_bounds t.move
  refine ⟨t, ?_, Int64.toInt_ofInt_of_le (by omega) (by omega), ?_⟩
  · rw [pending_eq hs, ht]
    rfl
  · rw [← Int64.ofInt_add, Int64.toInt_ofInt_of_le (by omega) (by omega)]
    exact (m.tape.head_act t.write t.move).symm

/-- Whatever is done with a machine, its head is at most as far from where it started as it has
taken steps, all that its tape stores is at most so far from the input, and its window is no longer
than that allows.  So the head of a step is exact in 64-bit words, and so is every stored position
if the input has a length in their range. -/
theorem extent_of_reaches {a : Automaton} {m : Machine} (hm : a.Reaches m) :
    m.head.natAbs ≤ m.steps ∧
    (∀ p s, (p, s) ∈ m.tape.stored →
      -(m.steps : Int) ≤ p ∧ p < max m.input.length m.steps) ∧
    (∀ m', m.step = .ok m' → m.steps < 2 ^ 63 - 1 →
      ∃ t, m.pending = .ok t ∧ (Int64.ofInt m.head).toInt = m.head ∧
        (Int64.ofInt m.head + Int64.ofInt (t.move.elim 0 Direction.offset)).toInt = m'.head) ∧
    (m.input.length < 2 ^ 63 → m.steps < 2 ^ 63 →
      ∀ p s, (p, s) ∈ m.tape.stored → (Int64.ofInt p).toInt = p) ∧
    m.tape.window.length ≤ m.steps + max m.input.length m.steps := by
  have h := within_of_reaches hm
  have hstored : ∀ p s, (p, s) ∈ m.tape.stored →
      -(m.steps : Int) ≤ p ∧ p < max m.input.length m.steps := by
    intro p s hmem
    obtain ⟨hne, hread⟩ := hm.sparse.mem_stored_iff.mp hmem
    exact h.cells p (hread ▸ hne)
  refine ⟨h.head, hstored, fun m' hstep => h.head_step hstep, fun hinput hsteps p s hmem => ?_,
    h.length_window hm.sparse⟩
  have hp := hstored p s hmem
  exact Int64.toInt_ofInt_of_le (by omega) (by omega)

end Machine

def Automaton.leftward : Automaton where
  alphabet := ['a']
  initial := "go"
  states := .ofList [("go", .constant ⟨"go", some (.letter 'a'), some .left⟩)]

namespace Machine

theorem extent_leftward :
    ∃ m m' : Machine, Automaton.leftward.Reaches m ∧ m.head = -3 ∧ m.steps = 3 ∧
      m.tape.window = "aaaa" ∧ m.step = .ok m' ∧
      (∃ t, m.pending = .ok t ∧ (Int64.ofInt m.head).toInt = m.head ∧
        (Int64.ofInt m.head + Int64.ofInt (t.move.elim 0 Direction.offset)).toInt = m'.head) ∧
      m.tape.window.length ≤ m.steps + max m.input.length m.steps := by
  have hreaches : Automaton.leftward.Reaches
      ((start Automaton.leftward (Symbol.ofTape "a")).performAll
        [.run 5, .load "aa", .run 1, .load "b", .step, .next]) :=
    ⟨Symbol.ofTape "a", _, _, rfl, rfl⟩
  generalize hm : (start Automaton.leftward (Symbol.ofTape "a")).performAll
    [.run 5, .load "aa", .run 1, .load "b", .step, .next] = m at hreaches
  have hsteps : m.steps = 3 := by
    rw [← hm]
    decide +kernel
  have hstep : m.step = .ok (m.take ⟨"go", some (.letter 'a'), some .left⟩) := by
    rw [← hm]
    decide +kernel
  obtain ⟨-, -, hhead, -, hwindow⟩ := extent_of_reaches hreaches
  refine ⟨m, _, hreaches, ?_, hsteps, ?_, hstep, hhead _ hstep (by omega), hwindow⟩
  · rw [← hm]
    decide +kernel
  · rw [← hm]
    decide +kernel

end Machine

end TapeLang
