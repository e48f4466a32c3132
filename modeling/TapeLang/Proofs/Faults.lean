import TapeLang.Proofs.Checked

/-!
The faults of a program and their places.

A fault has an address: the numbers of the parts of the program it stands in, from the outside to
the inside.  The parts of a program are numbered in the order in which they are to be looked at,
so the lexicographic order of addresses is the order of faults.  The relations below say of every
part which faults it has at which addresses; they do not say how faults are looked for.

The reports of a program are those of its faults in the order of their addresses
(`Program.lists_problems`).
-/

namespace TapeLang

/-- The numbers of the parts around a fault, the outermost first. -/
abbrev Address := List Nat

/-- The first number in which two addresses differ decides which one comes before the other. -/
def Address.Before : Address → Address → Prop := List.Lex (· < ·)

namespace Scope

/-- The symbol is a letter that is not in the alphabet. -/
def Foreign (scope : Scope) (s : Located Symbol) (r : Report) : Prop :=
  ∃ c, s.value = .letter c ∧ c ∉ scope.letters ∧ r = ⟨.outsideAlphabet c, s.span⟩

/-- A basic block writes first and jumps then. -/
inductive BasicFault (scope : Scope) (b : BasicBlock) : Address → Report → Prop
  | write {s r} (hw : b.write = some s) (h : scope.Foreign s r) : BasicFault scope b [0] r
  | jump {target} (hf : b.flow = some (.goto target)) (h : target.value ∉ scope.modules) :
    BasicFault scope b [1] ⟨.undefinedModule target.value, target.span⟩

/-- The symbols of a case, `earlier` being those of the cases before it.  A symbol has to be known
first and new then. -/
inductive MatchFault (scope : Scope) (earlier : List Symbol) (ss : List (Located Symbol)) :
    Address → Report → Prop
  | foreign {i s r} (hs : ss[i]? = some s) (h : scope.Foreign s r) :
    MatchFault scope earlier ss [i, 0] r
  | twice {i s} (hs : ss[i]? = some s)
    (h : s.value ∈ earlier ++ (ss.take i).map (·.value)) :
    MatchFault scope earlier ss [i, 1] ⟨.handledTwice s.value, s.span⟩

mutual

inductive BlocksFault (scope : Scope) : List Block → Address → Report → Prop
  | mk {bs i b a r} (hb : bs[i]? = some b) (h : BlockFault scope b a r) :
    BlocksFault scope bs (i :: a) r

inductive BlockFault (scope : Scope) : Block → Address → Report → Prop
  | basic {b a r} (h : BasicFault scope b a r) : BlockFault scope (.basic b) a r
  | switch {cases span k c a r} (hc : cases[k]? = some c)
    (h : CaseFault scope (Case.handled (cases.take k)) c a r) :
    BlockFault scope (.switch cases span) (k :: a) r

/-- A case is its symbols and then what it does. -/
inductive CaseFault (scope : Scope) : List Symbol → Case → Address → Report → Prop
  | symbols {earlier c a r} (h : MatchFault scope earlier c.symbols a r) :
    CaseFault scope earlier c (0 :: a) r
  | body {earlier c a r} (h : BodyFault scope c a r) : CaseFault scope earlier c (1 :: a) r

inductive BodyFault (scope : Scope) : Case → Address → Report → Prop
  | loop {symbols body span s r} (hw : body.write = some s) (h : scope.Foreign s r) :
    BodyFault scope (.loop symbols body span) [0] r
  | first {symbols first rest span a r} (h : BasicFault scope first a r) :
    BodyFault scope (.branch symbols first rest span) (0 :: a) r
  | rest {symbols first rest span a r} (h : BlocksFault scope rest a r) :
    BodyFault scope (.branch symbols first rest span) (1 :: a) r

end

end Scope

/-- The letters come first, then the names of the modules, then their blocks. -/
inductive Program.Fault (p : Program) : Address → Report → Prop
  | letter {i l} (hl : p.alphabet.letters[i]? = some l)
    (h : l.value ∈ (p.alphabet.letters.take i).map (·.value)) :
    Fault p [0, i] ⟨.repeatedLetter l.value, l.span⟩
  | name {i m} (hm : p.modules[i]? = some m)
    (h : m.name.value ∈ (p.modules.take i).map (·.name.value)) :
    Fault p [1, i] ⟨.repeatedModule m.name.value, m.name.span⟩
  | block {i m a r} (hm : p.modules[i]? = some m) (h : p.scope.BlocksFault m.blocks a r) :
    Fault p (2 :: i :: a) r

/-! ## Faults in order -/

namespace Address

theorem before_of_lt {i j : Nat} (h : i < j) (a b : Address) : Before (i :: a) (j :: b) := .rel h

theorem Before.cons {a b : Address} (h : a.Before b) (i : Nat) : Before (i :: a) (i :: b) :=
  List.Lex.cons h

theorem Before.asymm {a b : Address} (h : a.Before b) : ¬ b.Before a := by
  unfold Before at h
  induction h with
  | nil => nofun
  | rel hlt =>
    intro h
    cases h with
    | cons _ => exact Nat.lt_irrefl _ hlt
    | rel hlt' => exact Nat.lt_asymm hlt hlt'
  | cons _ ih =>
    intro h
    cases h with
    | cons h => exact ih h
    | rel hlt => exact Nat.lt_irrefl _ hlt

end Address

/-- The reports are those of the faults `F`, in the order of their addresses. -/
def Lists {ρ : Type} (F : Address → ρ → Prop) (reports : List ρ) : Prop :=
  ∃ l : List (Address × ρ), l.map (·.2) = reports ∧
    l.Pairwise (fun x y => x.1.Before y.1) ∧ ∀ a r, (a, r) ∈ l ↔ F a r

section Lists

variable {ρ : Type} {F G H : Address → ρ → Prop} {l m : List ρ}

theorem Lists.congr (hF : Lists F l) (h : ∀ {a r}, G a r ↔ F a r) : Lists G l := by
  obtain ⟨x, hx, hlt, hmem⟩ := hF
  exact ⟨x, hx, hlt, fun a r => (hmem a r).trans h.symm⟩

theorem lists_nil (h : ∀ {a r}, ¬ F a r) : Lists F [] :=
  ⟨[], rfl, .nil, fun _ _ => iff_of_false List.not_mem_nil h⟩

theorem lists_singleton {a : Address} {r : ρ} (h : ∀ {b s}, F b s ↔ b = a ∧ s = r) :
    Lists F [r] := by
  refine ⟨[(a, r)], rfl, List.pairwise_singleton _ _, fun b s => ?_⟩
  rw [List.mem_singleton, Prod.mk.injEq, h]

/-- The faults of a part and those of a later part. -/
theorem Lists.append (hF : Lists F l) (hG : Lists G m)
    (hlt : ∀ {a b r s}, F a r → G b s → a.Before b) (h : ∀ {a r}, H a r ↔ F a r ∨ G a r) :
    Lists H (l ++ m) := by
  obtain ⟨x, rfl, hx, hmemx⟩ := hF
  obtain ⟨y, rfl, hy, hmemy⟩ := hG
  refine ⟨x ++ y, List.map_append, List.pairwise_append.mpr ⟨hx, hy, ?_⟩, fun a r => ?_⟩
  · rintro ⟨a, r⟩ ha ⟨b, s⟩ hb
    exact hlt ((hmemx a r).mp ha) ((hmemy b s).mp hb)
  · rw [List.mem_append, hmemx, hmemy, h]

/-- The faults of a part are faults of what it is a part of, at longer addresses. -/
theorem Lists.map {f : Address → Address} (hF : Lists F l)
    (hf : ∀ {a b}, a.Before b → (f a).Before (f b))
    (h : ∀ {a r}, G a r ↔ ∃ b, a = f b ∧ F b r) : Lists G l := by
  obtain ⟨x, rfl, hx, hmem⟩ := hF
  refine ⟨x.map fun e => (f e.1, e.2), by simp, ?_, fun a r => ?_⟩
  · rw [List.pairwise_map]
    exact hx.imp hf
  · rw [List.mem_map, h]
    constructor
    · rintro ⟨⟨b, s⟩, hb, he⟩
      obtain ⟨rfl, rfl⟩ := Prod.mk.inj he
      exact ⟨b, rfl, (hmem b s).mp hb⟩
    · rintro ⟨b, rfl, hb⟩
      exact ⟨(b, r), (hmem b r).mpr hb, rfl⟩

/-- The first report is that of the fault with the least address. -/
theorem Lists.head?_eq_some_iff (hF : Lists F l) {r : ρ} :
    l.head? = some r ↔ ∃ a, F a r ∧ ∀ b s, F b s → a = b ∨ a.Before b := by
  obtain ⟨x, rfl, hx, hmem⟩ := hF
  cases x with
  | nil =>
    refine iff_of_false nofun ?_
    rintro ⟨a, ha, -⟩
    exact List.not_mem_nil ((hmem a r).mpr ha)
  | cons e x =>
    obtain ⟨a, s⟩ := e
    obtain ⟨hhead, -⟩ := List.pairwise_cons.mp hx
    have ha := (hmem a s).mp List.mem_cons_self
    show some s = some r ↔ _
    rw [Option.some.injEq]
    constructor
    · rintro rfl
      refine ⟨a, ha, fun b t hb => ?_⟩
      rcases List.mem_cons.mp ((hmem b t).mpr hb) with he | hb
      · exact .inl (Prod.mk.inj he).1.symm
      · exact .inr (hhead _ hb)
    · rintro ⟨b, hb, hleast⟩
      rcases List.mem_cons.mp ((hmem b r).mpr hb) with he | hb
      · exact (Prod.mk.inj he).2.symm
      · have hlt : a.Before b := hhead _ hb
        rcases hleast a s ha with rfl | hgt
        · exact absurd hlt hlt.asymm
        · exact absurd hgt hlt.asymm

end Lists

def Address.next : Address → Address
  | [] => []
  | i :: a => (i + 1) :: a

theorem Address.Before.next {a b : Address} (h : a.Before b) : a.next.Before b.next := by
  cases h with
  | nil => exact .nil
  | rel h => exact .rel (Nat.succ_lt_succ h)
  | cons h => exact Before.cons h _

/-- The faults `F` of the items of a list, which depend on the items in front of them. -/
def Each {α ρ : Type} (F : List α → α → Address → ρ → Prop) (l : List α) (a : Address)
    (r : ρ) : Prop :=
  ∃ i x b, l[i]? = some x ∧ a = i :: b ∧ F (l.take i) x b r

section Each

variable {α ρ : Type} {F : List α → α → Address → ρ → Prop}

theorem each_nil {a : Address} {r : ρ} : ¬ Each F [] a r := by
  rintro ⟨i, x, b, hx, -⟩
  cases hx

theorem each_cons {x : α} {l : List α} {a : Address} {r : ρ} :
    Each F (x :: l) a r ↔ (∃ b, a = 0 :: b ∧ F [] x b r) ∨
      ∃ b, a = Address.next b ∧ Each (fun front => F (x :: front)) l b r := by
  constructor
  · rintro ⟨i, y, b, hy, rfl, h⟩
    cases i with
    | zero =>
      cases hy
      exact .inl ⟨b, rfl, h⟩
    | succ i => exact .inr ⟨i :: b, rfl, i, y, b, hy, rfl, h⟩
  · rintro (⟨b, rfl, h⟩ | ⟨_, rfl, i, y, b, hy, rfl, h⟩)
    · exact ⟨0, x, b, rfl, rfl, h⟩
    · exact ⟨i + 1, y, b, hy, rfl, h⟩

/-- The faults of the first item come before those of the others. -/
theorem lists_each_cons {x : α} {l : List α} {reports reports' : List ρ}
    (hx : Lists (F [] x) reports)
    (hl : Lists (Each (fun front => F (x :: front)) l) reports') :
    Lists (Each F (x :: l)) (reports ++ reports') := by
  refine Lists.append (hx.map (fun h => h.cons 0) Iff.rfl) (hl.map Address.Before.next Iff.rfl) ?_
    each_cons
  rintro _ _ _ _ ⟨b, rfl, -⟩ ⟨_, rfl, i, y, c, -, rfl, -⟩
  exact Address.before_of_lt (Nat.succ_pos i) b c

/-- Items whose faults do not depend on the items in front of them. -/
theorem lists_flatMap {F : α → Address → ρ → Prop} {reports : α → List ρ}
    (h : ∀ x, Lists (F x) (reports x)) (l : List α) :
    Lists (Each (fun _ => F) l) (l.flatMap reports) := by
  induction l with
  | nil => exact lists_nil each_nil
  | cons x l ih => exact lists_each_cons (h x) ih

end Each

/-- A fault that is there under a condition. -/
theorem lists_if {ρ : Type} {c : Prop} [Decidable c] (a : Address) (r : ρ) :
    Lists (fun b s => b = a ∧ c ∧ s = r) (if c then [r] else []) := by
  by_cases hc : c
  · rw [if_pos hc]
    exact lists_singleton (a := a) (by simp [hc])
  · rw [if_neg hc]
    exact lists_nil (by simp [hc])

/-- Elements whose key is in `earlier` or is the key of an element in front of them. -/
theorem lists_repeated {α β : Type} [DecidableEq β] (key : α → β) (report : α → Report)
    (seen earlier : List β) (h : ∀ k, k ∈ seen ↔ k ∈ earlier) (l : List α) :
    Lists (Each (fun front x a r => a = [] ∧ key x ∈ earlier ++ front.map key ∧ r = report x) l)
      ((repeated key seen l).map report) := by
  induction l generalizing seen earlier with
  | nil => exact lists_nil each_nil
  | cons x l ih =>
    have hsplit : (repeated key seen (x :: l)).map report =
        (if key x ∈ earlier then [report x] else []) ++
          (repeated key (if key x ∈ seen then seen else key x :: seen) l).map report := by
      rw [repeated]
      by_cases hx : key x ∈ seen
      · rw [if_pos hx, if_pos hx, if_pos ((h _).mp hx)]
        rfl
      · rw [if_neg hx, if_neg hx, if_neg (mt (h _).mpr hx)]
        rfl
    have hseen : ∀ k, k ∈ (if key x ∈ seen then seen else key x :: seen) ↔
        k ∈ earlier ++ [key x] := by
      intro k
      rw [List.mem_append, List.mem_singleton, ← h]
      by_cases hx : key x ∈ seen
      · rw [if_pos hx]
        exact ⟨.inl, fun hk => hk.elim id fun hk => hk ▸ hx⟩
      · rw [if_neg hx, List.mem_cons, or_comm]
    rw [hsplit]
    refine lists_each_cons ?_ ?_
    · simpa using lists_if [] (report x)
    · simpa using ih _ _ hseen

namespace Scope

variable {scope : Scope}

theorem lists_symbolProblems (s : Located Symbol) (a : Address) :
    Lists (fun b r => b = a ∧ scope.Foreign s r) (scope.symbolProblems s) := by
  unfold symbolProblems Foreign
  split
  · next c hc =>
    by_cases hmem : c ∈ scope.letters
    · rw [if_pos hmem]
      exact lists_nil (by simp [hc, hmem])
    · rw [if_neg hmem]
      exact lists_singleton (a := a) (by simp [hc, hmem])
  · next hc => exact lists_nil (by simp [hc])

theorem lists_writeProblems (write : Option (Located Symbol)) (a : Address) :
    Lists (fun b r => b = a ∧ ∃ s, write = some s ∧ scope.Foreign s r)
      (scope.writeProblems write) := by
  cases write with
  | none => exact lists_nil (by simp)
  | some s =>
    have hs : scope.writeProblems (some s) = scope.symbolProblems s := by simp [writeProblems]
    rw [hs]
    exact (lists_symbolProblems s a).congr (by simp)

theorem lists_flowProblems (flow : Option Flow) (a : Address) :
    Lists (fun b r => b = a ∧ ∃ target, flow = some (.goto target) ∧
      target.value ∉ scope.modules ∧ r = ⟨.undefinedModule target.value, target.span⟩)
      (scope.flowProblems flow) := by
  unfold flowProblems
  split
  · next target =>
    by_cases hmem : target.value ∈ scope.modules
    · rw [if_pos hmem]
      exact lists_nil (by simp [hmem])
    · rw [if_neg hmem]
      exact lists_singleton (a := a) (by simp [hmem])
  · next hflow => exact lists_nil fun ⟨_, target, htarget, _⟩ => hflow target htarget

theorem lists_basicProblems (b : BasicBlock) :
    Lists (scope.BasicFault b) (scope.basicProblems b) := by
  refine (lists_writeProblems b.write [0]).append (lists_flowProblems b.flow [1]) ?_ ?_
  · rintro _ _ _ _ ⟨rfl, -⟩ ⟨rfl, -⟩
    exact Address.before_of_lt Nat.zero_lt_one [] []
  · intro a r
    constructor
    · rintro (⟨hw, h⟩ | ⟨hf, h⟩)
      · exact .inl ⟨rfl, _, hw, h⟩
      · exact .inr ⟨rfl, _, hf, h, rfl⟩
    · rintro (⟨rfl, s, hw, h⟩ | ⟨rfl, target, hf, h, rfl⟩)
      · exact .write hw h
      · exact .jump hf h

theorem lists_matchProblems {seen earlier : List Symbol} (h : ∀ s, s ∈ seen ↔ s ∈ earlier)
    (ss : List (Located Symbol)) :
    Lists (Each (fun front s a r => a = [0] ∧ scope.Foreign s r ∨
        a = [1] ∧ s.value ∈ earlier ++ front.map (·.value) ∧
          r = ⟨.handledTwice s.value, s.span⟩) ss)
      (scope.matchProblems seen ss) := by
  induction ss generalizing seen earlier with
  | nil => exact lists_nil each_nil
  | cons s ss ih =>
    have hseen : ∀ t, t ∈ s.value :: seen ↔ t ∈ earlier ++ [s.value] := by
      intro t
      rw [List.mem_cons, List.mem_append, List.mem_singleton, h, or_comm]
    rw [matchProblems]
    refine lists_each_cons ((lists_symbolProblems s [0]).append (lists_if [1] _) ?_ ?_) ?_
    · rintro _ _ _ _ ⟨rfl, -⟩ ⟨rfl, -⟩
      exact Address.before_of_lt Nat.zero_lt_one [] []
    · simp [h]
    · simpa using ih hseen

theorem matchFault_iff {earlier : List Symbol} {ss : List (Located Symbol)} {a : Address}
    {r : Report} : scope.MatchFault earlier ss a r ↔
      Each (fun front s a r => a = [0] ∧ scope.Foreign s r ∨
        a = [1] ∧ s.value ∈ earlier ++ front.map (·.value) ∧
          r = ⟨.handledTwice s.value, s.span⟩) ss a r := by
  constructor
  · rintro (⟨hs, h⟩ | ⟨hs, h⟩)
    · exact ⟨_, _, [0], hs, rfl, .inl ⟨rfl, h⟩⟩
    · exact ⟨_, _, [1], hs, rfl, .inr ⟨rfl, h, rfl⟩⟩
  · rintro ⟨i, s, _, hs, rfl, ⟨rfl, h⟩ | ⟨rfl, h, rfl⟩⟩
    · exact .foreign hs h
    · exact .twice hs h

theorem blocksFault_iff {bs : List Block} {a : Address} {r : Report} :
    scope.BlocksFault bs a r ↔ Each (fun _ b => scope.BlockFault b) bs a r := by
  constructor
  · rintro ⟨hb, h⟩
    exact ⟨_, _, _, hb, rfl, h⟩
  · rintro ⟨i, b, _, hb, rfl, h⟩
    exact .mk hb h

theorem switchFault_iff {cases : List Case} {span : Span} {a : Address} {r : Report} :
    scope.BlockFault (.switch cases span) a r ↔
      Each (fun front => scope.CaseFault (Case.handled front)) cases a r := by
  constructor
  · intro h
    cases h with
    | switch hc h => exact ⟨_, _, _, hc, rfl, h⟩
  · rintro ⟨k, c, _, hc, rfl, h⟩
    exact .switch hc h

mutual

theorem lists_blocksProblems (scope : Scope) :
    ∀ bs : List Block, Lists (scope.BlocksFault bs) (scope.blocksProblems bs)
  | [] => lists_nil fun h => each_nil (blocksFault_iff.mp h)
  | b :: bs => by
    rw [blocksProblems]
    refine Lists.congr (lists_each_cons (lists_blockProblems scope b) ?_) blocksFault_iff
    exact (lists_blocksProblems scope bs).congr blocksFault_iff.symm

theorem lists_blockProblems (scope : Scope) :
    ∀ b : Block, Lists (scope.BlockFault b) (scope.blockProblems b)
  | .basic b => by
    rw [blockProblems]
    refine (lists_basicProblems b).congr ⟨fun h => ?_, .basic⟩
    cases h with
    | basic h => exact h
  | .switch cases span => by
    rw [blockProblems]
    exact (lists_casesProblems scope cases [] [] fun _ => Iff.rfl).congr switchFault_iff

theorem lists_bodyProblems (scope : Scope) :
    ∀ c : Case, Lists (scope.BodyFault c) (scope.bodyProblems c)
  | .loop symbols body span => by
    rw [bodyProblems]
    refine (lists_writeProblems body.write [0]).congr ⟨fun h => ?_, ?_⟩
    · cases h with
      | loop hw h => exact ⟨rfl, _, hw, h⟩
    · rintro ⟨rfl, s, hw, h⟩
      exact .loop hw h
  | .branch symbols first rest span => by
    rw [bodyProblems]
    refine Lists.append ((lists_basicProblems first).map (fun h => h.cons 0) Iff.rfl)
      ((lists_blocksProblems scope rest).map (fun h => h.cons 1) Iff.rfl) ?_ ⟨fun h => ?_, ?_⟩
    · rintro _ _ _ _ ⟨a, rfl, -⟩ ⟨b, rfl, -⟩
      exact Address.before_of_lt Nat.zero_lt_one a b
    · cases h with
      | first h => exact .inl ⟨_, rfl, h⟩
      | rest h => exact .inr ⟨_, rfl, h⟩
    · rintro (⟨a, rfl, h⟩ | ⟨a, rfl, h⟩)
      · exact .first h
      · exact .rest h

theorem lists_casesProblems (scope : Scope) :
    ∀ (cs : List Case) (seen earlier : List Symbol), (∀ s, s ∈ seen ↔ s ∈ earlier) →
      Lists (Each (fun front => scope.CaseFault (earlier ++ Case.handled front)) cs)
        (scope.casesProblems seen cs)
  | [], _, _, _ => lists_nil each_nil
  | c :: cs, seen, earlier, h => by
    have hseen : ∀ s, s ∈ c.symbols.map (·.value) ++ seen ↔
        s ∈ earlier ++ c.symbols.map (·.value) := by
      intro s
      rw [List.mem_append, List.mem_append, h, or_comm]
    have hrest := lists_casesProblems scope cs _ _ hseen
    have hmatch : Lists (scope.MatchFault earlier c.symbols) (scope.matchProblems seen c.symbols) :=
      (lists_matchProblems h c.symbols).congr matchFault_iff
    rw [casesProblems]
    refine lists_each_cons (Lists.append (hmatch.map (fun h => h.cons 0) Iff.rfl)
      ((lists_bodyProblems scope c).map (fun h => h.cons 1) Iff.rfl) ?_ ⟨fun h => ?_, ?_⟩) ?_
    · rintro _ _ _ _ ⟨a, rfl, -⟩ ⟨b, rfl, -⟩
      exact Address.before_of_lt Nat.zero_lt_one a b
    · rw [show Case.handled [] = [] from rfl, List.append_nil] at h
      cases h with
      | symbols h => exact .inl ⟨_, rfl, h⟩
      | body h => exact .inr ⟨_, rfl, h⟩
    · rw [show Case.handled [] = [] from rfl, List.append_nil]
      rintro (⟨a, rfl, h⟩ | ⟨a, rfl, h⟩)
      · exact .symbols h
      · exact .body h
    · simp only [List.append_assoc] at hrest
      exact hrest

end

end Scope

namespace Program

/-- The faults of a program are found in their order. -/
theorem lists_problems (p : Program) : Lists p.Fault p.problems := by
  have hblocks := lists_flatMap (fun m : Module => p.scope.lists_blocksProblems m.blocks) p.modules
  have hletters := lists_repeated Located.value
    (fun l : Located Char => ⟨.repeatedLetter l.value, l.span⟩) [] [] (fun _ => Iff.rfl)
    p.alphabet.letters
  have hnames := lists_repeated (fun m : Module => m.name.value)
    (fun m : Module => ⟨.repeatedModule m.name.value, m.name.span⟩) [] [] (fun _ => Iff.rfl)
    p.modules
  refine Lists.append (Lists.append (hletters.map (fun h => h.cons 0) Iff.rfl)
    (hnames.map (fun h => h.cons 1) Iff.rfl) ?_ Iff.rfl)
    (hblocks.map (fun h => h.cons 2) Iff.rfl) ?_ ⟨fun h => ?_, ?_⟩
  · rintro _ _ _ _ ⟨a, rfl, -⟩ ⟨b, rfl, -⟩
    exact Address.before_of_lt Nat.zero_lt_one a b
  · rintro _ _ _ _ (⟨a, rfl, -⟩ | ⟨a, rfl, -⟩) ⟨b, rfl, -⟩
    · exact Address.before_of_lt Nat.two_pos a b
    · exact Address.before_of_lt Nat.one_lt_two a b
  · cases h with
    | letter hl h => exact .inl (.inl ⟨_, rfl, _, _, [], hl, rfl, rfl, h, rfl⟩)
    | name hm h => exact .inl (.inr ⟨_, rfl, _, _, [], hm, rfl, rfl, h, rfl⟩)
    | block hm h => exact .inr ⟨_, rfl, _, _, _, hm, rfl, h⟩
  · rintro ((⟨_, rfl, i, l, _, hl, rfl, rfl, h, rfl⟩ | ⟨_, rfl, i, m, _, hm, rfl, rfl, h, rfl⟩) |
      ⟨_, rfl, i, m, a, hm, rfl, h⟩)
    · exact .letter hl h
    · exact .name hm h
    · exact .block hm h

end Program
end TapeLang
