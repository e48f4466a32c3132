import Mathlib.Algebra.BigOperators.Group.List.Basic
import Mathlib.Data.List.Find
import Mathlib.Data.List.Forall2
import Mathlib.Data.List.Pairwise
import TapeLang.Proofs.Labelling

/-!
Programs that differ in the order of cases.

`Program.Reorders p q` says that `q` is `p` with the cases of any of its switches, at any depth,
in another order.  The order decides how the blocks inside the cases are numbered, but neither
how many there are (`Block.Reorders.size_eq`) nor whether the checks are passed
(`Program.Reorders.check_iff`), so both programs compile or neither does.  No symbol is handled
twice by one switch, so the case for a symbol is found in any order (`Case.choose_reorders`).
-/

namespace TapeLang

mutual

inductive Block.Reorders : Block → Block → Prop
  | basic {b} : Block.Reorders (.basic b) (.basic b)
  | switch {cs ds es span} (h : Case.ReordersAll cs ds) (hp : ds.Perm es) :
    Block.Reorders (.switch cs span) (.switch es span)

inductive Block.ReordersAll : List Block → List Block → Prop
  | nil : Block.ReordersAll [] []
  | cons {b c bs cs} (h : Block.Reorders b c) (hs : Block.ReordersAll bs cs) :
    Block.ReordersAll (b :: bs) (c :: cs)

inductive Case.Reorders : Case → Case → Prop
  | branch {symbols first bs cs span} (h : Block.ReordersAll bs cs) :
    Case.Reorders (.branch symbols first bs span) (.branch symbols first cs span)
  | loop {symbols body span} : Case.Reorders (.loop symbols body span) (.loop symbols body span)

inductive Case.ReordersAll : List Case → List Case → Prop
  | nil : Case.ReordersAll [] []
  | cons {c d cs ds} (h : Case.Reorders c d) (hs : Case.ReordersAll cs ds) :
    Case.ReordersAll (c :: cs) (d :: ds)

end

structure Module.Reorders (m n : Module) : Prop where
  name : m.name = n.name
  blocks : Block.ReordersAll m.blocks n.blocks
  span : m.span = n.span

/-- The same program, but for the order of cases inside its switches. -/
structure Program.Reorders (p q : Program) : Prop where
  alphabet : p.alphabet = q.alphabet
  modules : List.Forall₂ Module.Reorders p.modules q.modules

mutual

theorem Block.Reorders.refl : ∀ b : Block, Block.Reorders b b
  | .basic _ => .basic
  | .switch cs _ => .switch (Case.ReordersAll.refl cs) (List.Perm.refl cs)

theorem Block.ReordersAll.refl : ∀ bs : List Block, Block.ReordersAll bs bs
  | [] => .nil
  | b :: bs => .cons (Block.Reorders.refl b) (Block.ReordersAll.refl bs)

theorem Case.Reorders.refl : ∀ c : Case, Case.Reorders c c
  | .branch _ _ rest _ => .branch (Block.ReordersAll.refl rest)
  | .loop _ _ _ => .loop

theorem Case.ReordersAll.refl : ∀ cs : List Case, Case.ReordersAll cs cs
  | [] => .nil
  | c :: cs => .cons (Case.Reorders.refl c) (Case.ReordersAll.refl cs)

end

def Block.reverseCases : Block → Block
  | .basic b => .basic b
  | .switch cases span => .switch cases.reverse span

/-- The program with the cases of every switch that is not inside another one in reverse. -/
def Program.reverseCases (p : Program) : Program :=
  { p with modules := p.modules.map fun m => { m with blocks := m.blocks.map Block.reverseCases } }

theorem Block.reorders_reverseCases (b : Block) : b.Reorders b.reverseCases := by
  cases b with
  | basic b => exact .basic
  | switch cases span => exact .switch (Case.ReordersAll.refl cases) cases.reverse_perm.symm

theorem Block.reordersAll_reverseCases (bs : List Block) :
    Block.ReordersAll bs (bs.map Block.reverseCases) := by
  induction bs with
  | nil => exact .nil
  | cons b bs ih => exact .cons b.reorders_reverseCases ih

theorem Program.reorders_reverseCases (p : Program) : p.Reorders p.reverseCases := by
  refine ⟨rfl, ?_⟩
  rw [Program.reverseCases, List.forall₂_map_right_iff, List.forall₂_same]
  exact fun m _ => ⟨rfl, Block.reordersAll_reverseCases m.blocks, rfl⟩

theorem Case.totalSize_eq_sum (cs : List Case) :
    Case.totalSize cs = (cs.map Case.size).sum := by
  induction cs with
  | nil => rfl
  | cons c cs ih => rw [Case.totalSize_cons, ih, List.map_cons, List.sum_cons]

theorem Case.totalSize_perm {cs ds : List Case} (h : cs.Perm ds) :
    Case.totalSize cs = Case.totalSize ds := by
  rw [Case.totalSize_eq_sum, Case.totalSize_eq_sum, (h.map Case.size).sum_eq]

mutual

theorem Block.Reorders.size_eq : ∀ {b c : Block}, Block.Reorders b c → b.size = c.size
  | _, _, .basic => rfl
  | _, _, .switch h hp => by
    rw [Block.size, Block.size, h.totalSize_eq, Case.totalSize_perm hp]

theorem Block.ReordersAll.totalSize_eq :
    ∀ {bs cs : List Block}, Block.ReordersAll bs cs → Block.totalSize bs = Block.totalSize cs
  | _, _, .nil => rfl
  | _, _, .cons h hs => by rw [Block.totalSize, Block.totalSize, h.size_eq, hs.totalSize_eq]

theorem Case.Reorders.size_eq : ∀ {c d : Case}, Case.Reorders c d → c.size = d.size
  | _, _, .branch h => h.totalSize_eq
  | _, _, .loop => rfl

theorem Case.ReordersAll.totalSize_eq :
    ∀ {cs ds : List Case}, Case.ReordersAll cs ds → Case.totalSize cs = Case.totalSize ds
  | _, _, .nil => rfl
  | _, _, .cons h hs => by
    rw [Case.totalSize_cons, Case.totalSize_cons, h.size_eq, hs.totalSize_eq]

end

/-! ## Faults -/

theorem Case.Reorders.symbols_eq {c d : Case} (h : Case.Reorders c d) : c.symbols = d.symbols := by
  cases h <;> rfl

theorem Case.ReordersAll.forall₂ :
    ∀ {cs ds : List Case}, Case.ReordersAll cs ds → List.Forall₂ Case.Reorders cs ds
  | _, _, .nil => .nil
  | _, _, .cons h hs => .cons h hs.forall₂

theorem Case.ReordersAll.handled_eq {cs ds : List Case} (h : Case.ReordersAll cs ds) :
    Case.handled cs = Case.handled ds := by
  replace h := h.forall₂
  induction h with
  | nil => rfl
  | cons h _ ih =>
    rw [Case.handled, List.flatMap_cons, h.symbols_eq, ← Case.handled, ih]
    rfl

theorem Case.handled_perm {cs ds : List Case} (h : cs.Perm ds) :
    (Case.handled cs).Perm (Case.handled ds) := h.flatMap_right _

section

variable {scope : Scope}

def Case.Respects (scope : Scope) (c : Case) : Prop :=
  (∀ s ∈ c.symbols, scope.Holds s.value) ∧ scope.bodyProblems c = []

mutual

theorem Block.Reorders.problems_iff :
    ∀ {b c : Block}, Block.Reorders b c → (scope.blockProblems b = [] ↔ scope.blockProblems c = [])
  | _, _, .basic => Iff.rfl
  | _, _, @Block.Reorders.switch cs ds es span h hp => by
    rw [Scope.blockProblems, Scope.blockProblems, Scope.casesProblems_eq_nil,
      Scope.casesProblems_eq_nil, fresh_nil_iff, fresh_nil_iff, h.handled_eq,
      (Case.handled_perm hp).nodup_iff]
    have hmem : (∀ c ∈ ds, c.Respects scope) ↔ ∀ c ∈ es, c.Respects scope :=
      forall_congr' fun c => by rw [hp.mem_iff]
    exact and_congr_left' (h.respects_iff.trans hmem)

theorem Block.ReordersAll.problems_iff :
    ∀ {bs cs : List Block}, Block.ReordersAll bs cs →
      (scope.blocksProblems bs = [] ↔ scope.blocksProblems cs = [])
  | _, _, .nil => Iff.rfl
  | _, _, .cons h hs => by
    rw [Scope.blocksProblems_cons, Scope.blocksProblems_cons, h.problems_iff, hs.problems_iff]

theorem Case.Reorders.respects_iff :
    ∀ {c d : Case}, Case.Reorders c d → (c.Respects scope ↔ d.Respects scope)
  | _, _, .branch h => by
    rw [Case.Respects, Case.Respects, Scope.bodyProblems, Scope.bodyProblems,
      List.append_eq_nil_iff, List.append_eq_nil_iff, h.problems_iff]
    rfl
  | _, _, .loop => Iff.rfl

theorem Case.ReordersAll.respects_iff :
    ∀ {cs ds : List Case}, Case.ReordersAll cs ds →
      ((∀ c ∈ cs, c.Respects scope) ↔ ∀ d ∈ ds, d.Respects scope)
  | _, _, .nil => Iff.rfl
  | _, _, .cons h hs => by
    rw [List.forall_mem_cons, List.forall_mem_cons, h.respects_iff, hs.respects_iff]

end

end

/-! ## Compiling -/

theorem Module.Reorders.size_eq {m n : Module} (h : m.Reorders n) : m.size = n.size :=
  h.blocks.totalSize_eq

theorem Program.collides_of_map_eq {p q : Program}
    (h : p.modules.map (fun m => (m.name.value, m.size)) =
      q.modules.map fun m => (m.name.value, m.size)) (hp : p.Collides) : q.Collides := by
  -- only the names and the sizes of modules count
  have hmodule : ∀ {k : Nat} {m : Module}, p.modules[k]? = some m →
      ∃ n, q.modules[k]? = some n ∧ n.name.value = m.name.value ∧ n.size = m.size := by
    intro k m hm
    have hk := congrArg (·[k]?) h
    simp only [List.getElem?_map, hm, Option.map_some] at hk
    obtain ⟨n, hn, heq⟩ := Option.map_eq_some_iff.mp hk.symm
    exact ⟨n, hn, (Prod.mk.inj heq).1, (Prod.mk.inj heq).2⟩
  obtain ⟨k, l, m, m', hne, hm, hm', i, hi, j, hj, heq⟩ := hp
  obtain ⟨n, hn, hname, hsize⟩ := hmodule hm
  obtain ⟨n', hn', hname', hsize'⟩ := hmodule hm'
  refine ⟨k, l, n, n', hne, hn, hn', i, hsize ▸ hi, j, hsize' ▸ hj, ?_⟩
  rw [Module.label, Module.label, hname, hname']
  exact heq

namespace Program.Reorders

variable {p q : Program}

theorem names_eq (h : p.Reorders q) :
    p.modules.map (fun m => (m.name.value, m.size)) =
      q.modules.map fun m => (m.name.value, m.size) := by
  rw [← List.forall₂_eq_eq_eq, List.forall₂_map_left_iff, List.forall₂_map_right_iff]
  exact h.modules.imp fun m n hmn => by rw [hmn.name, hmn.size_eq]

theorem scope_eq (h : p.Reorders q) : p.scope = q.scope := by
  have hnames : p.modules.map (·.name.value) = q.modules.map (·.name.value) := by
    have hfst := congrArg (List.map Prod.fst) h.names_eq
    rwa [List.map_map, List.map_map] at hfst
  rw [Program.scope, Program.scope, h.alphabet, hnames]

theorem blocksProblems_iff (h : p.Reorders q) (scope : Scope) :
    (∀ m ∈ p.modules, scope.blocksProblems m.blocks = []) ↔
      ∀ n ∈ q.modules, scope.blocksProblems n.blocks = [] := by
  have hmodules := h.modules
  generalize p.modules = ms, q.modules = ns at hmodules
  induction hmodules with
  | nil => exact Iff.rfl
  | cons hmn _ ih =>
    rw [List.forall_mem_cons, List.forall_mem_cons, hmn.blocks.problems_iff]
    exact and_congr_right' ih

theorem problems_iff (h : p.Reorders q) : p.problems = [] ↔ q.problems = [] := by
  have hletters : p.alphabet.values = q.alphabet.values := congrArg Alphabet.values h.alphabet
  have hnames : p.modules.map (·.name.value) = q.modules.map (·.name.value) :=
    congrArg Scope.modules h.scope_eq
  rw [Program.problems_eq_nil, Program.problems_eq_nil, hletters, hnames, h.scope_eq,
    h.blocksProblems_iff]

theorem check_iff (h : p.Reorders q) : p.check = .ok () ↔ q.check = .ok () := by
  have hcheck : ∀ r : Program, r.check = .ok () ↔ r.problems = [] := by
    intro r
    rw [Program.check]
    cases r.problems <;> simp
  rw [hcheck, hcheck, h.problems_iff]

/-- Both compile or neither does. -/
theorem exists_compile_iff (h : p.Reorders q) :
    (∃ a, p.compile = .ok a) ↔ ∃ b, q.compile = .ok b := by
  have hempty : p.modules = [] ↔ q.modules = [] := by
    rw [← List.length_eq_zero_iff, ← List.length_eq_zero_iff, h.modules.length_eq]
  have hcollides : p.Collides ↔ q.Collides :=
    ⟨Program.collides_of_map_eq h.names_eq, Program.collides_of_map_eq h.names_eq.symm⟩
  rw [Program.exists_compile_iff, Program.exists_compile_iff, h.check_iff, hcollides, ne_eq,
    hempty]

end Program.Reorders

theorem Case.map_snd_choose (s : Symbol) (cs : List Case) :
    (Case.choose s cs).map Prod.snd = cs.find? fun c => s ∈ c.symbols.map (·.value) := by
  induction cs with
  | nil => rfl
  | cons c cs ih =>
    rw [Case.choose, List.find?_cons]
    by_cases hs : s ∈ c.symbols.map (·.value)
    · rw [if_pos hs, decide_eq_true hs]
      rfl
    · rw [if_neg hs, decide_eq_false hs, ← ih, Option.map_map]
      rfl

/-- At most one case of a switch is for a symbol. -/
theorem Case.eq_of_mem_symbols {cs : List Case} (h : (Case.handled cs).Nodup) {s : Symbol}
    {c d : Case} (hc : c ∈ cs) (hd : d ∈ cs) (hsc : s ∈ c.symbols.map (·.value))
    (hsd : s ∈ d.symbols.map (·.value)) : c = d := by
  by_contra hne
  have : Std.Symm (Function.onFun List.Disjoint fun c : Case => c.symbols.map (·.value)) :=
    ⟨fun _ _ hcd _ hd hc => hcd hc hd⟩
  exact (List.nodup_flatMap.mp h).2.forall hc hd hne hsc hsd

theorem Case.ReordersAll.find? (f : List (Located Symbol) → Bool) {cs ds : List Case}
    (h : Case.ReordersAll cs ds) :
    Option.Rel Case.Reorders (cs.find? (f ·.symbols)) (ds.find? (f ·.symbols)) := by
  replace h := h.forall₂
  induction h with
  | nil => exact .none
  | @cons c d cs ds h _ ih =>
    rw [List.find?_cons, List.find?_cons, h.symbols_eq]
    cases f d.symbols with
    | true => exact .some h
    | false => exact ih

/-- The case for a symbol is the same in any order of the cases. -/
theorem Case.choose_reorders {cs ds es : List Case} (h : Case.ReordersAll cs ds)
    (hp : ds.Perm es) (hn : (Case.handled cs).Nodup) (s : Symbol) :
    Option.Rel (fun c d => Case.Reorders c.2 d.2) (Case.choose s cs) (Case.choose s es) := by
  have hperm : (ds.find? fun c => s ∈ c.symbols.map (·.value)) =
      es.find? fun c => s ∈ c.symbols.map (·.value) := by
    refine List.find?_eq_find?_of_perm hp fun c hc d hd => ?_
    rw [h.handled_eq] at hn
    exact Case.eq_of_mem_symbols hn hc.1 hd.1 (of_decide_eq_true hc.2) (of_decide_eq_true hd.2)
  have hrel := h.find? fun symbols => s ∈ symbols.map (·.value)
  rw [hperm, ← Case.map_snd_choose, ← Case.map_snd_choose] at hrel
  generalize Case.choose s cs = c, Case.choose s es = d at hrel ⊢
  cases c with
  | none =>
    cases d with
    | none => exact .none
    | some d => cases hrel
  | some c =>
    cases d with
    | none => cases hrel
    | some d =>
      cases hrel with
      | some h => exact .some h

end TapeLang
