import Mathlib.Data.List.Infix
import TapeLang.Proofs.Labelling

/-!
Lowering into a table of slots.

The states of a module can also be made in another order: a table with one slot for each number is
filled while the blocks are gone through, and a switch gets its slot only after the blocks inside
its cases have theirs.  `Block.script` and `Case.script` are what is done on the way, one action
after the other, with the numbers taken from the sizes.  Done on a table that is long enough, a
script never leaves the table and leaves there what `Block.lowerAll` gives
(`Block.perform_scriptAll`), and it fills every slot of its own range once and no other slot
(`Block.filled_scriptAll`).
-/

namespace TapeLang

/-- A step of filling a table: take a label as the one that control falls through to, or put a
state into a slot. -/
inductive Action where
  | follow (label : Label)
  | fill (slot : Nat) (state : State)

namespace Action

/-- Do the actions one after the other, if all slots that they fill are there. -/
def perform : List Action → List (Option State) → Option (List (Option State))
  | [], slots => some slots
  | .follow _ :: script, slots => perform script slots
  | .fill slot state :: script, slots =>
    if slot < slots.length then perform script (slots.set slot (some state)) else none

/-- The slots that are filled, in order. -/
def filled : List Action → List Nat
  | [] => []
  | .follow _ :: script => filled script
  | .fill slot _ :: script => slot :: filled script

end Action

mutual

/-- How a sequence of blocks numbered from `base` is put into a table. -/
def Block.scriptAll (module : String) (base : Nat) : List Block → List Action
  | [] => []
  | b :: bs =>
    b.script module base (Block.entry module (base + b.size) bs) ++
      Block.scriptAll module (base + b.size) bs

/-- How a block with number `base` that control leaves to `next` is put into a table. -/
def Block.script (module : String) (base : Nat) (next : Label) : Block → List Action
  | .basic b => [.follow next, .fill base (.constant (b.transition next))]
  | .switch cases _ => Case.script module base (base + 1) .empty cases

/-- How the cases of the switch with number `own` are put into a table, if those before them have
given the transitions in `table` and taken the numbers below `cursor`. -/
def Case.script (module : String) (own cursor : Nat) (table : Table Symbol Transition) :
    List Case → List Action
  | [] => [.fill own (.variable table)]
  | .loop symbols body _ :: cs =>
    Case.script module own cursor (symbols.foldl (fun table s =>
      table.insert s.value (body.transition (.ofIndex module own))) table) cs
  | .branch symbols first rest _ :: cs =>
    .follow (Block.entry module cursor rest) :: Block.scriptAll module cursor rest ++
      Case.script module own (cursor + Block.totalSize rest) (symbols.foldl (fun table s =>
        table.insert s.value (first.transition (Block.entry module cursor rest))) table) cs

end

namespace Action

theorem perform_append (script more : List Action) (slots : List (Option State)) :
    perform (script ++ more) slots = (perform script slots).bind (perform more) := by
  induction script generalizing slots with
  | nil => rfl
  | cons action script ih =>
    cases action with
    | follow label => exact ih slots
    | fill slot state =>
      rw [List.cons_append, perform, perform]
      split
      · exact ih _
      · rfl

theorem filled_append (script more : List Action) :
    filled (script ++ more) = filled script ++ filled more := by
  induction script with
  | nil => rfl
  | cons action script ih =>
    cases action with
    | follow label => exact ih
    | fill slot state => exact congrArg (slot :: ·) ih

/-- The slot after `before` is there to be filled. -/
theorem perform_fill {before after : List (Option State)} {slot : Nat} (h : before.length = slot)
    (old : Option State) (state : State) :
    perform [.fill slot state] (before ++ old :: after) =
      some (before ++ some state :: after) := by
  subst h
  rw [perform, if_pos (by simp)]
  simp [perform]

end Action

open TapeLang.Action

/-! ## What is left in the table -/

theorem exists_append_of_length_eq {α : Type} {l : List α} {m n : Nat} (h : l.length = m + n) :
    ∃ l₁ l₂, l = l₁ ++ l₂ ∧ l₁.length = m ∧ l₂.length = n := by
  refine ⟨l.take m, l.drop m, (List.take_append_drop m l).symm, ?_, ?_⟩
  · rw [List.length_take, h, Nat.min_eq_left (Nat.le_add_right m n)]
  · rw [List.length_drop, h, Nat.add_sub_cancel_left]

/-- The transitions of a switch are those of its cases, put in one after the other. -/
theorem Table.foldl_insert_map {κ ν α : Type} [LT κ] [KeyOrder κ] [DecidableEq κ] [DecidableLT κ]
    (key : α → κ) (v : ν) (l : List α) (more : List (κ × ν)) (t : Table κ ν) :
    (l.map (fun a => (key a, v)) ++ more).foldl (fun t e => t.insert e.1 e.2) t =
      more.foldl (fun t e => t.insert e.1 e.2) (l.foldl (fun t a => t.insert (key a) v) t) := by
  rw [List.foldl_append, List.foldl_map]

mutual

/-- The slots between `before` and `after` get the states of the blocks, and no others change. -/
theorem Block.perform_scriptAll (module : String) :
    ∀ (bs : List Block) {base : Nat} {before own : List (Option State)}
      (after : List (Option State)), before.length = base → own.length = Block.totalSize bs →
        perform (Block.scriptAll module base bs) (before ++ (own ++ after)) =
          some (before ++ ((Block.lowerAll module base bs).map some ++ after))
  | [], base, before, own, after, hbase, h => by
    rw [List.eq_nil_of_length_eq_zero h]
    rfl
  | b :: bs, base, before, own, after, hbase, h => by
    obtain ⟨first, rest, rfl, hfirst, hrest⟩ := exists_append_of_length_eq h
    have hb := Block.perform_script module (Block.entry module (base + b.size) bs) b
      (rest ++ after) hbase hfirst
    have hnext : (before ++ (b.lower module base
        (Block.entry module (base + b.size) bs)).map some).length = base + b.size := by
      rw [List.length_append, List.length_map, Block.length_lower, hbase]
    have hbs := Block.perform_scriptAll module bs after hnext hrest
    rw [List.append_assoc, List.append_assoc] at hbs
    rw [Block.scriptAll, perform_append, List.append_assoc, hb, Option.bind_some, hbs,
      Block.lowerAll, List.map_append, List.append_assoc]

theorem Block.perform_script (module : String) (next : Label) :
    ∀ (b : Block) {base : Nat} {before own : List (Option State)} (after : List (Option State)),
      before.length = base → own.length = b.size →
        perform (b.script module base next) (before ++ (own ++ after)) =
          some (before ++ ((b.lower module base next).map some ++ after))
  | .basic b, base, before, own, after, hbase, h => by
    obtain ⟨old, rfl⟩ := List.length_eq_one_iff.mp h
    exact perform_fill hbase old _
  | .switch cases span, base, before, own, after, hbase, h => by
    rw [Block.size, Nat.add_comm] at h
    obtain ⟨old, inner, rfl⟩ := List.exists_cons_of_length_eq_add_one h
    have hcursor : base + 1 + ([] : List (Option State)).length = base + 1 := rfl
    exact Case.perform_script module cases .empty after old hbase hcursor (Nat.succ.inj h)

/-- The slot of a switch gets its transitions after the slots of the blocks inside its cases. -/
theorem Case.perform_script (module : String) :
    ∀ (cs : List Case) (table : Table Symbol Transition) {number cursor : Nat}
      {before ready own : List (Option State)} (after : List (Option State)) (old : Option State),
      before.length = number → number + 1 + ready.length = cursor →
      own.length = Case.totalSize cs →
        perform (Case.script module number cursor table cs)
            (before ++ old :: (ready ++ (own ++ after))) =
          some (before ++ some (.variable ((Case.entries module (.ofIndex module number) cursor
              cs).foldl (fun t e => t.insert e.1 e.2) table)) ::
            (ready ++ ((Case.lowerAll module cursor cs).map some ++ after)))
  | [], table, number, cursor, before, ready, own, after, old, hnumber, hcursor, h => by
    rw [List.eq_nil_of_length_eq_zero h]
    exact perform_fill hnumber old _
  | .loop symbols body span :: cs, table, number, cursor, before, ready, own, after, old, hnumber,
      hcursor, h => by
    rw [Case.script, Case.entries, Table.foldl_insert_map, Case.lowerAll]
    exact Case.perform_script module cs _ after old hnumber hcursor h
  | .branch symbols first rest span :: cs, table, number, cursor, before, ready, own, after, old,
      hnumber, hcursor, h => by
    obtain ⟨mine, others, rfl, hmine, hothers⟩ := exists_append_of_length_eq h
    have hbefore : (before ++ old :: ready).length = cursor := by
      rw [List.length_append, List.length_cons]
      omega
    have hrest := Block.perform_scriptAll module rest (others ++ after) hbefore hmine
    have hready : number + 1 + (ready ++ (Block.lowerAll module cursor rest).map some).length =
        cursor + Block.totalSize rest := by
      rw [List.length_append, List.length_map, Block.length_lowerAll]
      omega
    have hcs := Case.perform_script module cs (symbols.foldl (fun table s =>
      table.insert s.value (first.transition (Block.entry module cursor rest))) table) after old
        hnumber hready hothers
    simp only [List.append_assoc, List.cons_append] at hrest hcs ⊢
    rw [Case.script, List.cons_append, perform, perform_append, hrest, Option.bind_some, hcs,
      Case.entries, Table.foldl_insert_map, Case.lowerAll, List.map_append, List.append_assoc]

end

/-! ## Which slots are filled -/

mutual

/-- Every slot of the range is filled once, and no other slot is. -/
theorem Block.filled_scriptAll (module : String) :
    ∀ (bs : List Block) (base : Nat),
      (filled (Block.scriptAll module base bs)).Perm (List.range' base (Block.totalSize bs))
  | [], base => .refl _
  | b :: bs, base => by
    have hb := Block.filled_script module (Block.entry module (base + b.size) bs) b base
    have hbs := Block.filled_scriptAll module bs (base + b.size)
    rw [Block.scriptAll, filled_append, Block.totalSize, ← List.range'_append_1]
    exact hb.append hbs

theorem Block.filled_script (module : String) (next : Label) :
    ∀ (b : Block) (base : Nat),
      (filled (b.script module base next)).Perm (List.range' base b.size)
  | .basic b, base => .refl _
  | .switch cases span, base => by
    rw [Block.size, Nat.add_comm, List.range'_succ]
    exact Case.filled_script module cases base (base + 1) .empty

theorem Case.filled_script (module : String) :
    ∀ (cs : List Case) (number cursor : Nat) (table : Table Symbol Transition),
      (filled (Case.script module number cursor table cs)).Perm
        (number :: List.range' cursor (Case.totalSize cs))
  | [], number, cursor, table => .refl _
  | .loop symbols body span :: cs, number, cursor, table =>
    Case.filled_script module cs number cursor _
  | .branch symbols first rest span :: cs, number, cursor, table => by
    have hrest := Block.filled_scriptAll module rest cursor
    have hcs := Case.filled_script module cs number (cursor + Block.totalSize rest)
      (symbols.foldl (fun table s =>
        table.insert s.value (first.transition (Block.entry module cursor rest))) table)
    rw [Case.script, List.cons_append, filled, filled_append, Case.totalSize,
      ← List.range'_append_1]
    exact (hrest.append hcs).trans List.perm_middle

end

theorem Block.size_pos (b : Block) : 0 < b.size := by
  cases b with
  | basic b => exact Nat.one_pos
  | switch cases span =>
    rw [Block.size]
    omega

/-- The label rejects, or it is one of those with the numbers from `base` up to `stop`. -/
def Label.Within (module : String) (base stop : Nat) (label : Label) : Prop :=
  label = .reject ∨ ∃ i, base ≤ i ∧ i < stop ∧ label = .ofIndex module i

theorem Label.Within.mono {module : String} {base stop base' stop' : Nat} {label : Label}
    (h : label.Within module base stop) (hbase : base' ≤ base) (hstop : stop ≤ stop') :
    label.Within module base' stop' := by
  rcases h with h | ⟨i, hi, hi', h⟩
  · exact .inl h
  · exact .inr ⟨i, Nat.le_trans hbase hi, Nat.lt_of_lt_of_le hi' hstop, h⟩

theorem Block.entry_within (module : String) (i : Nat) (bs : List Block) :
    Label.Within module i (i + Block.totalSize bs) (Block.entry module i bs) := by
  cases bs with
  | nil => exact .inl rfl
  | cons b bs =>
    have hpos := b.size_pos
    refine .inr ⟨i, Nat.le_refl i, ?_, rfl⟩
    rw [Block.totalSize]
    omega

mutual

/-- Control falls through to a block of the same sequence, or it rejects. -/
theorem Block.within_scriptAll (module : String) {label : Label} :
    ∀ (bs : List Block) (base : Nat), .follow label ∈ Block.scriptAll module base bs →
      label.Within module base (base + Block.totalSize bs)
  | [], base, h => nomatch h
  | b :: bs, base, h => by
    rw [Block.scriptAll, List.mem_append] at h
    rw [Block.totalSize, ← Nat.add_assoc]
    rcases h with h | h
    · rcases Block.within_script module b base h with rfl | h
      · exact (Block.entry_within module _ bs).mono (Nat.le_add_right _ _) (Nat.le_refl _)
      · exact h.mono (Nat.le_refl _) (Nat.le_add_right _ _)
    · exact (Block.within_scriptAll module bs _ h).mono (Nat.le_add_right _ _) (Nat.le_refl _)

theorem Block.within_script (module : String) {label next : Label} :
    ∀ (b : Block) (base : Nat), .follow label ∈ b.script module base next →
      label = next ∨ label.Within module base (base + b.size)
  | .basic b, base, h => by
    rcases List.mem_cons.mp h with h | h
    · cases h
      exact .inl rfl
    · exact nomatch List.mem_singleton.mp h
  | .switch cases span, base, h => by
    have hcases := Case.within_script module cases base (base + 1) .empty h
    rw [Block.size, ← Nat.add_assoc]
    exact .inr (hcases.mono (Nat.le_succ base) (Nat.le_refl _))

theorem Case.within_script (module : String) {label : Label} :
    ∀ (cs : List Case) (number cursor : Nat) (table : Table Symbol Transition),
      .follow label ∈ Case.script module number cursor table cs →
        label.Within module cursor (cursor + Case.totalSize cs)
  | [], number, cursor, table, h => nomatch List.mem_singleton.mp h
  | .loop symbols body span :: cs, number, cursor, table, h =>
    Case.within_script module cs number cursor _ h
  | .branch symbols first rest span :: cs, number, cursor, table, h => by
    rw [Case.script, List.cons_append, List.mem_cons, List.mem_append] at h
    rw [Case.totalSize, ← Nat.add_assoc]
    rcases h with h | h | h
    · cases h
      exact (Block.entry_within module cursor rest).mono (Nat.le_refl _) (Nat.le_add_right _ _)
    · exact (Block.within_scriptAll module rest cursor h).mono (Nat.le_refl _)
        (Nat.le_add_right _ _)
    · exact (Case.within_script module cs number _ _ h).mono (Nat.le_add_right _ _)
        (Nat.le_refl _)

end

theorem Block.perform_scriptAll_of_le (module : String) (bs : List Block) {base : Nat}
    {slots : List (Option State)} (h : base + Block.totalSize bs ≤ slots.length) :
    perform (Block.scriptAll module base bs) slots = some (slots.take base ++
      (Block.lowerAll module base bs).map some ++ slots.drop (base + Block.totalSize bs)) := by
  obtain ⟨after, hafter⟩ := Nat.exists_eq_add_of_le h
  rw [Nat.add_assoc] at hafter
  obtain ⟨before, more, rfl, hbase, hmore⟩ := exists_append_of_length_eq hafter
  obtain ⟨own, rest, rfl, hown, -⟩ := exists_append_of_length_eq hmore
  rw [Block.perform_scriptAll module bs rest hbase hown, List.append_assoc, ← hbase, ← hown,
    List.take_left, ← List.drop_drop, List.drop_left, List.drop_left]

namespace Module

def table (m : Module) : Option (List (Option State)) :=
  perform (Block.scriptAll m.name.value 0 m.blocks) (List.replicate (Block.totalSize m.blocks) none)

/-- The states in the table of a module, with the labels of their slots.  Slots that were not
filled are left out. -/
def build (m : Module) : Option (List (Label × State)) :=
  m.table.map fun slots => slots.zipIdx.filterMap fun (slot, index) =>
    slot.map (Label.ofIndex m.name.value index, ·)

theorem table_eq (m : Module) :
    m.table = some ((Block.lowerAll m.name.value 0 m.blocks).map some) := by
  have hlength : (List.replicate (Block.totalSize m.blocks) (none : Option State)).length =
      Block.totalSize m.blocks := List.length_replicate
  have hzero : ([] : List (Option State)).length = 0 := rfl
  have h := Block.perform_scriptAll m.name.value m.blocks [] hzero hlength
  rwa [List.append_nil, List.append_nil] at h

/-- No slot is left out, so the states in the table are the states of the module. -/
theorem build_eq (m : Module) : m.build = some m.states := by
  rw [build, table_eq, Option.map_some, states, List.zipIdx_map, List.filterMap_map]
  exact congrArg some (congrFun List.filterMap_eq_map _)

end Module

/-- Putting blocks into a table that has their slots stays within the table, fills each of their
slots once and no other slot, and falls through to one of them or rejects.  So the table of a module
is filled completely, and the states in it are those of the module with the labels in order. -/
theorem Block.script_fills_range (module : String) (bs : List Block) (base : Nat)
    (slots : List (Option State)) (h : base + Block.totalSize bs ≤ slots.length) :
    perform (Block.scriptAll module base bs) slots = some (slots.take base ++
      (Block.lowerAll module base bs).map some ++ slots.drop (base + Block.totalSize bs)) ∧
    (filled (Block.scriptAll module base bs)).Perm (List.range' base (Block.totalSize bs)) ∧
    (∀ label, .follow label ∈ Block.scriptAll module base bs → label = .reject ∨
      ∃ i, base ≤ i ∧ i < base + Block.totalSize bs ∧ label = .ofIndex module i) ∧
    ∀ m : Module, m.build = some m.states ∧
      (∃ table, m.table = some table ∧ table.length = Block.totalSize m.blocks ∧
        ∀ slot ∈ table, slot.isSome) ∧
      m.states.map (·.1) = (List.range (Block.totalSize m.blocks)).map (.ofIndex m.name.value) := by
  refine ⟨Block.perform_scriptAll_of_le module bs h, Block.filled_scriptAll module bs base,
    fun label => Block.within_scriptAll module bs base,
    fun m => ⟨m.build_eq, ⟨_, m.table_eq, ?_, ?_⟩, m.map_fst_states⟩⟩
  · rw [List.length_map, Block.length_lowerAll]
  · intro slot hslot
    obtain ⟨state, -, rfl⟩ := List.mem_map.mp hslot
    rfl

def Block.nested : List Block :=
  let right : BasicBlock := ⟨none, some .right, none, .emptyText⟩
  [.switch [.branch [⟨.blank, .emptyText⟩] right [.basic right, .basic right] .emptyText,
      .loop [⟨.letter 'a', .emptyText⟩] ⟨none, some .left, .emptyText⟩ .emptyText] .emptyText,
    .basic right]

/-- Four slots of six are filled, that of the switch after those inside it. -/
theorem Block.script_fills_range_nested :
    1 + Block.totalSize Block.nested ≤ (List.replicate 6 (none : Option State)).length ∧
    filled (Block.scriptAll "m" 1 Block.nested) = [2, 3, 1, 4] ∧
    [2, 3, 1, 4].Perm (List.range' 1 (Block.totalSize Block.nested)) ∧
    (perform (Block.scriptAll "m" 1 Block.nested) (List.replicate 6 none)).map
      (·.map Option.isSome) = some [false, true, true, true, true, false] := by
  have hle : 1 + Block.totalSize Block.nested ≤
      (List.replicate 6 (none : Option State)).length := by decide
  have hfilled : filled (Block.scriptAll "m" 1 Block.nested) = [2, 3, 1, 4] := rfl
  obtain ⟨hperform, hperm, -⟩ := Block.script_fills_range "m" Block.nested 1 _ hle
  refine ⟨hle, hfilled, hfilled ▸ hperm, ?_⟩
  rw [hperform]
  rfl

end TapeLang
