import Mathlib.Data.List.Chain
import TapeLang.Proofs.Longest

/-!
The trees that the parser returns, up to the regions they record.

`erase` forgets the regions.  `WellFormed` is what every tree of the parser satisfies
(`Grammar.IsProgram.wellFormed`), and it does not look at regions (`wellFormed_erase`).  Apart
from lists that may not be empty and from the form of names, one condition is not local to a
node: a basic block takes every command that may still stand in it, so the basic block after it
starts with a command that does not come later in the order (`Block.Apart`).
-/

namespace TapeLang

def Located.erase {α : Type} (a : Located α) : Located α := ⟨a.value, .emptyText⟩

def Flow.erase : Flow → Flow
  | .goto target => .goto target.erase
  | .accept => .accept
  | .reject => .reject

def BasicBlock.erase (b : BasicBlock) : BasicBlock :=
  ⟨b.write.map Located.erase, b.move, b.flow.map Flow.erase, .emptyText⟩

def CoreBlock.erase (b : CoreBlock) : CoreBlock :=
  ⟨b.write.map Located.erase, b.move, .emptyText⟩

mutual

def Block.erase : Block → Block
  | .basic b => .basic b.erase
  | .switch cases _ => .switch (Case.eraseAll cases) .emptyText

def Block.eraseAll : List Block → List Block
  | [] => []
  | b :: bs => b.erase :: Block.eraseAll bs

def Case.erase : Case → Case
  | .branch symbols first rest _ =>
    .branch (symbols.map Located.erase) first.erase (Block.eraseAll rest) .emptyText
  | .loop symbols body _ => .loop (symbols.map Located.erase) body.erase .emptyText

def Case.eraseAll : List Case → List Case
  | [] => []
  | c :: cs => c.erase :: Case.eraseAll cs

end

def Module.erase (m : Module) : Module := ⟨m.name.erase, Block.eraseAll m.blocks, .emptyText⟩

def Alphabet.erase (a : Alphabet) : Alphabet := ⟨a.letters.map Located.erase, .emptyText⟩

/-- A program without the regions its parts were read from. -/
def Program.erase (p : Program) : Program := ⟨p.alphabet.erase, p.modules.map Module.erase⟩

/-! ## Well-formed trees -/

def Symbol.WellFormed : Symbol → Prop
  | .letter c => isLetter c
  | .blank => True

def Flow.WellFormed : Flow → Prop
  | .goto target => Grammar.Identifier target.value
  | .accept => True
  | .reject => True

/-- The commands of a basic block as places in their order: to change a symbol, to move, to
go on elsewhere. -/
def BasicBlock.commands (b : BasicBlock) : List Nat :=
  (if b.write.isSome then [0] else []) ++ (if b.move.isSome then [1] else []) ++
    (if b.flow.isSome then [2] else [])

@[mk_iff]
structure BasicBlock.WellFormed (b : BasicBlock) : Prop where
  some : b.commands ≠ []
  write : ∀ s ∈ b.write, s.value.WellFormed
  flow : ∀ f ∈ b.flow, f.WellFormed

@[mk_iff]
structure CoreBlock.WellFormed (b : CoreBlock) : Prop where
  some : b.write.isSome ∨ b.move.isSome
  write : ∀ s ∈ b.write, s.value.WellFormed

/-- Two neighbours of a sequence: the last command of a basic block does not come before the
first command of the basic block after it. -/
def Block.Apart : Block → Block → Prop
  | .basic a, .basic b => ∀ last ∈ a.commands.getLast?, ∀ first ∈ b.commands.head?, ¬ last < first
  | _, _ => True

/-- The symbols of a case. -/
@[mk_iff]
structure SymbolsWellFormed (ss : List (Located Symbol)) : Prop where
  ne_nil : ss ≠ []
  all : ∀ s ∈ ss, s.value.WellFormed

mutual

def Block.WellFormed : Block → Prop
  | .basic b => b.WellFormed
  | .switch cases _ => cases ≠ [] ∧ Case.AllWellFormed cases

def Block.AllWellFormed : List Block → Prop
  | [] => True
  | b :: bs => b.WellFormed ∧ Block.AllWellFormed bs

def Case.WellFormed : Case → Prop
  | .branch symbols first rest _ =>
    SymbolsWellFormed symbols ∧ first.WellFormed ∧ Block.AllWellFormed rest ∧
      (.basic first :: rest).IsChain Block.Apart
  | .loop symbols body _ => SymbolsWellFormed symbols ∧ body.WellFormed

def Case.AllWellFormed : List Case → Prop
  | [] => True
  | c :: cs => c.WellFormed ∧ Case.AllWellFormed cs

end

@[mk_iff]
structure Module.WellFormed (m : Module) : Prop where
  name : Grammar.Identifier m.name.value
  ne_nil : m.blocks ≠ []
  blocks : Block.AllWellFormed m.blocks
  apart : m.blocks.IsChain Block.Apart

@[mk_iff]
structure Program.WellFormed (p : Program) : Prop where
  letters_ne_nil : p.alphabet.letters ≠ []
  letters : ∀ c ∈ p.alphabet.letters, isLetter c.value
  modules_ne_nil : p.modules ≠ []
  modules : ∀ m ∈ p.modules, m.WellFormed

@[simp] theorem BasicBlock.commands_erase (b : BasicBlock) : b.erase.commands = b.commands := by
  obtain ⟨write, move, flow, span⟩ := b
  cases write <;> cases flow <;> rfl

theorem Block.eraseAll_eq_map (bs : List Block) : Block.eraseAll bs = bs.map Block.erase := by
  induction bs with
  | nil => rfl
  | cons b bs ih => rw [Block.eraseAll, ih, List.map_cons]

theorem Case.eraseAll_eq_map (cs : List Case) : Case.eraseAll cs = cs.map Case.erase := by
  induction cs with
  | nil => rfl
  | cons c cs ih => rw [Case.eraseAll, ih, List.map_cons]

theorem Block.apart_erase (a b : Block) : Block.Apart a.erase b.erase ↔ Block.Apart a b := by
  cases a <;> cases b <;> simp [Block.erase, Block.Apart]

theorem Block.isChain_eraseAll (bs : List Block) :
    (Block.eraseAll bs).IsChain Block.Apart ↔ bs.IsChain Block.Apart := by
  rw [Block.eraseAll_eq_map, List.isChain_map]
  simp only [Block.apart_erase]

theorem Flow.wellFormed_erase (f : Flow) : f.erase.WellFormed ↔ f.WellFormed := by
  cases f <;> exact Iff.rfl

theorem BasicBlock.wellFormed_erase (b : BasicBlock) : b.erase.WellFormed ↔ b.WellFormed := by
  rw [BasicBlock.wellFormed_iff, BasicBlock.wellFormed_iff, BasicBlock.commands_erase]
  simp [BasicBlock.erase, Located.erase, Flow.wellFormed_erase]

theorem CoreBlock.wellFormed_erase (b : CoreBlock) : b.erase.WellFormed ↔ b.WellFormed := by
  rw [CoreBlock.wellFormed_iff, CoreBlock.wellFormed_iff]
  simp [CoreBlock.erase, Located.erase]

theorem symbolsWellFormed_erase (ss : List (Located Symbol)) :
    SymbolsWellFormed (ss.map Located.erase) ↔ SymbolsWellFormed ss := by
  rw [symbolsWellFormed_iff, symbolsWellFormed_iff]
  simp [Located.erase]

mutual

theorem Block.wellFormed_erase : ∀ b : Block, b.erase.WellFormed ↔ b.WellFormed
  | .basic b => b.wellFormed_erase
  | .switch cases _ => by
    rw [Block.erase, Block.WellFormed, Block.WellFormed, Case.allWellFormed_erase,
      Case.eraseAll_eq_map, ne_eq, List.map_eq_nil_iff]

theorem Block.allWellFormed_erase :
    ∀ bs : List Block, Block.AllWellFormed (Block.eraseAll bs) ↔ Block.AllWellFormed bs
  | [] => Iff.rfl
  | b :: bs => by
    rw [Block.eraseAll, Block.AllWellFormed, Block.AllWellFormed, Block.wellFormed_erase,
      Block.allWellFormed_erase]

theorem Case.wellFormed_erase : ∀ c : Case, c.erase.WellFormed ↔ c.WellFormed
  | .branch symbols first rest _ => by
    have hchain := Block.isChain_eraseAll (.basic first :: rest)
    rw [Block.eraseAll, Block.erase] at hchain
    rw [Case.erase, Case.WellFormed, Case.WellFormed, symbolsWellFormed_erase,
      BasicBlock.wellFormed_erase, Block.allWellFormed_erase, hchain]
  | .loop symbols body _ => by
    rw [Case.erase, Case.WellFormed, Case.WellFormed, symbolsWellFormed_erase,
      CoreBlock.wellFormed_erase]

theorem Case.allWellFormed_erase :
    ∀ cs : List Case, Case.AllWellFormed (Case.eraseAll cs) ↔ Case.AllWellFormed cs
  | [] => Iff.rfl
  | c :: cs => by
    rw [Case.eraseAll, Case.AllWellFormed, Case.AllWellFormed, Case.wellFormed_erase,
      Case.allWellFormed_erase]

end

theorem Module.wellFormed_erase (m : Module) : m.erase.WellFormed ↔ m.WellFormed := by
  rw [Module.wellFormed_iff, Module.wellFormed_iff]
  simp only [Module.erase, Block.allWellFormed_erase, Block.isChain_eraseAll]
  simp [Block.eraseAll_eq_map, Located.erase]

theorem Program.wellFormed_erase (p : Program) : p.erase.WellFormed ↔ p.WellFormed := by
  rw [Program.wellFormed_iff, Program.wellFormed_iff]
  simp [Program.erase, Alphabet.erase, Located.erase, Module.wellFormed_erase]

/-! ## What the parser returns is well formed -/

namespace Grammar

theorem IsSymbol.wellFormed {ts rest : List Token} {s : Located Symbol}
    (h : IsSymbol ts s rest) : s.value.WellFormed := by
  cases h with
  | letter h => exact h.2.1
  | blank _ _ => trivial

theorem IsList.forall_mem {α : Type} {item : List Token → α → List Token → Prop} {P : α → Prop}
    (hitem : ∀ {ts a rest}, item ts a rest → P a) {ts rest : List Token} {as : List α}
    (h : IsList item ts as rest) : ∀ a ∈ as, P a := by
  induction h with
  | one h => exact List.forall_mem_singleton.mpr (hitem h)
  | more h _ _ ih => exact List.forall_mem_cons.mpr ⟨hitem h, ih⟩

theorem IsList.symbolsWellFormed {ts rest : List Token} {ss : List (Located Symbol)}
    (h : IsList IsSymbol ts ss rest) : SymbolsWellFormed ss := by
  refine ⟨?_, h.forall_mem (P := (·.value.WellFormed)) IsSymbol.wellFormed⟩
  obtain ⟨s, ss, rfl⟩ := h.eq_cons
  exact List.cons_ne_nil s ss

theorem IsOption.forall_mem {α : Type} {part : List Token → α → List Token → Prop} {P : α → Prop}
    (hpart : ∀ {ts a rest}, part ts a rest → P a) {ts rest : List Token} {o : Option α}
    (h : IsOption part ts o rest) : ∀ a ∈ o, P a := by
  cases h with
  | missing => nofun
  | given h =>
    rintro _ ⟨⟩
    exact hpart h

theorem IsWrite.wellFormed {ts rest : List Token} {s : Located Symbol} (h : IsWrite ts s rest) :
    s.value.WellFormed := by
  obtain ⟨r, -, hs⟩ := h
  exact hs.wellFormed

theorem IsFlow.wellFormed {ts rest : List Token} {f : Flow} (h : IsFlow ts f rest) :
    f.WellFormed := by
  cases h with
  | goto _ hn => exact hn.2.1
  | accept _ => trivial
  | reject _ => trivial

theorem commands_ne_nil {b : BasicBlock} :
    b.commands ≠ [] ↔ b.write.isSome ∨ b.move.isSome ∨ b.flow.isSome := by
  unfold BasicBlock.commands
  cases b.write <;> cases b.move <;> cases b.flow <;> simp

theorem IsBasic.wellFormed {ts rest : List Token} {b : BasicBlock} (h : IsBasic ts b rest) :
    b.WellFormed := by
  obtain ⟨r, r', hw, -, hf⟩ := h.commands
  exact ⟨commands_ne_nil.mpr h.some, hw.forall_mem (P := (·.value.WellFormed)) IsWrite.wellFormed,
    hf.forall_mem (P := (·.WellFormed)) IsFlow.wellFormed⟩

theorem IsCore.wellFormed {ts rest : List Token} {b : CoreBlock} (h : IsCore ts b rest) :
    b.WellFormed := by
  obtain ⟨r, hw, -⟩ := h.commands
  exact ⟨h.some, hw.forall_mem (P := (·.value.WellFormed)) IsWrite.wellFormed⟩

/-! The stages of a walk against the commands of a block: the block ends at the stage after its
last command and starts with a word of its first one. -/

theorem stageOf_eq_succ {b : BasicBlock} {last : Nat} (h : last ∈ b.commands.getLast?) :
    stageOf b = last + 1 := by
  revert h
  unfold stageOf stageAfter BasicBlock.commands
  cases b.write <;> cases b.move <;> cases b.flow <;> simp +contextual

theorem IsBasic.starts_first {ts rest : List Token} {b : BasicBlock} {first : Nat}
    (h : IsBasic ts b rest) (hf : first ∈ b.commands.head?) : Starts (starters first) ts := by
  obtain ⟨r, r', hwrite, hmove, hflow⟩ := h.commands
  unfold BasicBlock.commands at hf
  rcases hwrite.eq_or_starts Command.write with ⟨h₁, rfl⟩ | ⟨h₁, hs⟩
  · rcases hmove.eq_or_starts Command.move with ⟨h₂, rfl⟩ | ⟨h₂, hs⟩
    · rcases hflow.eq_or_starts Command.flow with ⟨h₃, rfl⟩ | ⟨h₃, hs⟩
      · simp [h₁, h₂, h₃] at hf
      · obtain rfl : 2 = first := by simpa [h₁, h₂, h₃] using hf
        exact hs
    · obtain rfl : 1 = first := by simpa [h₁, h₂] using hf
      exact hs
  · obtain rfl : 0 = first := by simpa [h₁] using hf
    exact hs

/-- A basic block that is over stands apart from the blocks after it. -/
theorem IsBasic.isChain {ts r rest : List Token} {b : BasicBlock} {bs : List Block}
    (h : IsBasic ts b r) (hg : Ending.greedy.basic ts r) (hbs : IsBlocks .greedy r bs rest)
    (hc : bs.IsChain Block.Apart) : (.basic b :: bs).IsChain Block.Apart := by
  cases hbs with
  | nil => exact List.isChain_singleton _
  | cons hb _ =>
    refine List.isChain_cons_cons.mpr ⟨?_, hc⟩
    cases hb with
    | basic h₂ _ =>
      intro last hl first hf hlt
      have hstop := h.stops hg
      rw [stageOf_eq_succ hl] at hstop
      exact hstop first hlt (h₂.starts_first hf)
    | switch => trivial
    | run => trivial

mutual

theorem IsBlocks.wellFormed :
    ∀ {ts : List Token} {bs : List Block} {rest : List Token}, IsBlocks .greedy ts bs rest →
      Block.AllWellFormed bs ∧ bs.IsChain Block.Apart
  | _, _, _, .nil => ⟨trivial, List.isChain_nil⟩
  | _, _, _, .cons hb hbs => by
    have ⟨hall, hc⟩ := IsBlocks.wellFormed hbs
    have hwf := IsBlock.wellFormed hb
    refine ⟨⟨hwf, hall⟩, ?_⟩
    cases hb with
    | basic h hg => exact h.isChain hg hbs hc
    | switch => exact List.isChain_cons.mpr ⟨fun _ _ => trivial, hc⟩
    | run => exact List.isChain_cons.mpr ⟨fun _ _ => trivial, hc⟩

theorem IsBlock.wellFormed :
    ∀ {ts : List Token} {b : Block} {rest : List Token}, IsBlock .greedy ts b rest →
      b.WellFormed
  | _, _, _, .basic h _ => h.wellFormed
  | _, _, _, .switch _ _ _ hcs _ _ => IsCases.wellFormed hcs
  | _, _, _, .run hcs _ _ => IsCases.wellFormed hcs

theorem IsCases.wellFormed :
    ∀ {ts : List Token} {cs : List Case} {rest : List Token}, IsCases .greedy ts cs rest →
      cs ≠ [] ∧ Case.AllWellFormed cs
  | _, _, _, .one h => ⟨List.cons_ne_nil _ _, IsCase.wellFormed h, trivial⟩
  | _, _, _, .more h hcs =>
    ⟨List.cons_ne_nil _ _, IsCase.wellFormed h, (IsCases.wellFormed hcs).2⟩

theorem IsCase.wellFormed :
    ∀ {ts : List Token} {c : Case} {rest : List Token}, IsCase .greedy ts c rest →
      c.WellFormed
  | _, _, _, .branch _ hs _ hf hg hbs _ _ => by
    have ⟨hall, hc⟩ := IsBlocks.wellFormed hbs
    exact ⟨hs.symbolsWellFormed, hf.wellFormed, hall, hf.isChain hg hbs hc⟩
  | _, _, _, .loop _ hs _ hb _ _ => ⟨hs.symbolsWellFormed, hb.wellFormed⟩

end

theorem IsModules.wellFormed {ts rest : List Token} {ms : List Module}
    (h : IsModules .greedy ts ms rest) : ms ≠ [] ∧ ∀ m ∈ ms, m.WellFormed := by
  have hmodule : ∀ {ts m rest}, IsModule .greedy ts m rest → m.WellFormed := by
    rintro _ _ _ ⟨-, hn, -, hbs, hne, -, -⟩
    exact ⟨hn.2.1, hne, hbs.wellFormed.1, hbs.wellFormed.2⟩
  induction h with
  | one h => exact ⟨List.cons_ne_nil _ _, List.forall_mem_singleton.mpr (hmodule h)⟩
  | more h _ ih => exact ⟨List.cons_ne_nil _ _, List.forall_mem_cons.mpr ⟨hmodule h, ih.2⟩⟩

theorem IsProgram.wellFormed {ts : List Token} {p : Program} (h : IsProgram .greedy ts p) :
    p.WellFormed := by
  obtain ⟨⟨letters, span⟩, ms⟩ := p
  obtain ⟨r, ⟨_, _, _, hl, _, _⟩, hms⟩ := h
  refine ⟨?_, hl.forall_mem fun h => h.2.1, hms.wellFormed.1, hms.wellFormed.2⟩
  obtain ⟨c, cs, rfl⟩ := hl.eq_cons
  exact List.cons_ne_nil c cs

end Grammar

theorem Program.wellFormed_of_parse {text : String} {p : Program}
    (h : Program.parse text = .ok p) : p.WellFormed := by
  obtain ⟨ts, hts⟩ := Program.exists_scan_of_parse h
  exact ((Program.parse_eq_ok hts).mp h).wellFormed

end TapeLang
