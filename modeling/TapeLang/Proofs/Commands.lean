import TapeLang.Proofs.Derivation

/-!
Where a basic block can end.

The commands of a basic block stand in one order, so reading one is a walk through three
stages: at stage `k` the commands before place `k` of the order are over.  `Run k ts e rest`
walks from stage `k` at `ts` to stage `e` at `rest`.  Two walks from the same tokens take the
same commands until one of them stops (`Run.split`), and so a walk is the longest one if the
next token starts no command that is still to come (`Run.length_le`).
-/

namespace TapeLang
namespace Grammar

/-- The words that start a command, by the place of the command in a basic block. -/
def starters : Nat → List String
  | 0 => ["changeto"]
  | 1 => ["move"]
  | 2 => ["goto", "accept", "reject"]
  | _ => []

def commandStarters : List String := ["changeto", "move", "goto", "accept", "reject"]

theorem starters_subset (k : Nat) : starters k ⊆ commandStarters := by
  match k with
  | 0 | 1 | 2 => decide
  | _ + 3 => simp [starters]

theorem starters_inj {j k : Nat} {text : String} (hj : text ∈ starters j)
    (hk : text ∈ starters k) : j = k := by
  match j, k with
  | 0, 0 | 1, 1 | 2, 2 => rfl
  | 0, 1 | 0, 2 | 1, 0 | 1, 2 | 2, 0 | 2, 1 => simp_all [starters]
  | _ + 3, _ => simp [starters] at hj
  | _, _ + 3 => simp [starters] at hk

def Starts (words : List String) (ts : List Token) : Prop :=
  ∃ t r, ts = t :: r ∧ t.text ∈ words

@[simp] theorem starts_nil {words : List String} : ¬ Starts words [] := by
  intro h
  obtain ⟨t, r, h, -⟩ := h
  cases h

@[simp] theorem starts_cons {words : List String} {t : Token} {ts : List Token} :
    Starts words (t :: ts) ↔ t.text ∈ words := by
  constructor
  · intro h
    obtain ⟨u, r, h, hu⟩ := h
    obtain ⟨rfl, -⟩ := List.cons.inj h
    exact hu
  · exact fun h => ⟨t, ts, rfl, h⟩

theorem Starts.inj {j k : Nat} {ts : List Token} (hj : Starts (starters j) ts)
    (hk : Starts (starters k) ts) : j = k := by
  obtain ⟨t, r, rfl, ht⟩ := hj
  exact starters_inj ht (starts_cons.mp hk)

theorem Terminal.starts {text : String} {words : List String} {ts rest : List Token}
    (h : Terminal text ts rest) (hw : text ∈ words) : Starts words ts := by
  obtain ⟨t, rfl, rfl⟩ := h
  exact starts_cons.mpr hw

theorem Terminal.not_starts {text : String} {words : List String} {ts rest : List Token}
    (h : Terminal text ts rest) (hw : text ∉ words) : ¬ Starts words ts := by
  obtain ⟨t, rfl, rfl⟩ := h
  exact fun hs => hw (starts_cons.mp hs)

theorem Starts.mono {words words' : List String} {ts : List Token} (h : Starts words ts)
    (hw : words ⊆ words') : Starts words' ts := by
  obtain ⟨t, r, rfl, ht⟩ := h
  exact starts_cons.mpr (hw ht)

theorem Starts.disjoint {words words' : List String} {ts : List Token} (h : Starts words ts)
    (hd : ∀ w ∈ words, w ∉ words') : ¬ Starts words' ts := by
  obtain ⟨t, r, rfl, ht⟩ := h
  exact fun h' => hd _ ht (starts_cons.mp h')

/-! Letters, symbols and names are none of the marks between them. -/

theorem singleton_notMem_marks {c : Char} (h : isLetter c) :
    String.singleton c ∉ Token.marks := by
  have hmarks : ∀ m ∈ Token.marks, m.toList.all (fun d => !isLetter d) = true := by decide
  intro hm
  have hc := hmarks _ hm
  rw [String.toList_singleton, List.all_cons, h] at hc
  cases hc

theorem IsLetter.not_starts {ts rest : List Token} {c : Located Char} {words : List String}
    (h : IsLetter ts c rest) (hw : words ⊆ Token.marks) : ¬ Starts words ts :=
  h.1.not_starts fun hm => singleton_notMem_marks h.2.1 (hw hm)

theorem IsSymbol.not_starts {ts rest : List Token} {s : Located Symbol} {words : List String}
    (h : IsSymbol ts s rest) (hw : words ⊆ Token.marks) : ¬ Starts words ts := by
  cases h with
  | letter h => exact h.not_starts hw
  | blank h _ => exact h.not_starts fun hm => absurd (hw hm) (by decide)

theorem IsList.not_starts {α : Type} {item : List Token → α → List Token → Prop}
    {words : List String} (hitem : ∀ {ts a rest}, item ts a rest → ¬ Starts words ts)
    {ts rest : List Token} {as : List α} (h : IsList item ts as rest) : ¬ Starts words ts := by
  cases h with
  | one h => exact hitem h
  | more h _ _ => exact hitem h

theorem IsWrite.starts {ts rest : List Token} {s : Located Symbol} (h : IsWrite ts s rest) :
    Starts (starters 0) ts := by
  obtain ⟨r, hr, -⟩ := h
  exact hr.starts (by decide)

theorem IsMove.starts {ts rest : List Token} {d : Direction} (h : IsMove ts d rest) :
    Starts (starters 1) ts := by
  obtain ⟨r, hr, -⟩ := h
  exact hr.starts (by decide)

theorem IsFlow.starts {ts rest : List Token} {f : Flow} (h : IsFlow ts f rest) :
    Starts (starters 2) ts := by
  cases h with
  | goto h _ => exact h.starts (by decide)
  | accept h => exact h.starts (by decide)
  | reject h => exact h.starts (by decide)

/-- A command with the given place in a basic block. -/
inductive Command : Nat → List Token → List Token → Prop
  | write {ts s rest} (h : IsWrite ts s rest) : Command 0 ts rest
  | move {ts d rest} (h : IsMove ts d rest) : Command 1 ts rest
  | flow {ts f rest} (h : IsFlow ts f rest) : Command 2 ts rest

theorem Command.starts {k : Nat} {ts rest : List Token} (h : Command k ts rest) :
    Starts (starters k) ts := by
  cases h with
  | write h => exact h.starts
  | move h => exact h.starts
  | flow h => exact h.starts

/-- A symbol and a name are one token long. -/
theorem IsSymbol.eq_cons {ts rest : List Token} {s : Located Symbol} (h : IsSymbol ts s rest) :
    ∃ t, ts = t :: rest := by
  cases h with
  | letter h =>
    obtain ⟨⟨t, rfl, -⟩, -⟩ := h
    exact ⟨t, rfl⟩
  | blank h _ =>
    obtain ⟨t, rfl, -⟩ := h
    exact ⟨t, rfl⟩

theorem IsName.eq_cons {ts rest : List Token} {n : Located String} (h : IsName ts n rest) :
    ∃ t, ts = t :: rest := by
  obtain ⟨⟨t, rfl, -⟩, -⟩ := h
  exact ⟨t, rfl⟩

/-- How many tokens a command takes, by the word that starts it. -/
theorem Command.length {k : Nat} {t : Token} {ts rest : List Token}
    (h : Command k (t :: ts) rest) :
    ts = rest ∧ t.text ∈ ["accept", "reject"] ∨
      ∃ u, ts = u :: rest ∧ t.text ∈ ["changeto", "move", "goto"] := by
  cases h with
  | write h =>
    obtain ⟨r, hr, hs⟩ := h
    obtain ⟨rfl, ht⟩ := terminal_cons.mp hr
    obtain ⟨u, rfl⟩ := hs.eq_cons
    exact .inr ⟨u, rfl, by simp [ht]⟩
  | move h =>
    obtain ⟨r, hr, u, rfl, -⟩ := h
    obtain ⟨rfl, ht⟩ := terminal_cons.mp hr
    exact .inr ⟨u, rfl, by simp [ht]⟩
  | flow h =>
    cases h with
    | goto h hn =>
      obtain ⟨rfl, ht⟩ := terminal_cons.mp h
      obtain ⟨u, rfl⟩ := hn.eq_cons
      exact .inr ⟨u, rfl, by simp [ht]⟩
    | accept h =>
      obtain ⟨rfl, ht⟩ := terminal_cons.mp h
      exact .inl ⟨rfl, by simp [ht]⟩
    | reject h =>
      obtain ⟨rfl, ht⟩ := terminal_cons.mp h
      exact .inl ⟨rfl, by simp [ht]⟩

theorem Command.covers {k : Nat} {ts rest : List Token} (h : Command k ts rest) :
    ∃ span, Covers ts span rest := by
  obtain ⟨t, r, rfl, -⟩ := h.starts
  rcases h.length with ⟨rfl, -⟩ | ⟨u, rfl, -⟩
  · exact ⟨_, Covers.token t _⟩
  · exact ⟨_, (Covers.token t _).trans (Covers.token u rest)⟩

/-- At most one command starts at a token, and it ends at one place. -/
theorem Command.unique {j k : Nat} {ts r r' : List Token} (h : Command j ts r)
    (h' : Command k ts r') : j = k ∧ r = r' := by
  refine ⟨h.starts.inj h'.starts, ?_⟩
  obtain ⟨t, more, rfl, -⟩ := h.starts
  rcases h.length with ⟨rfl, ht⟩ | ⟨u, rfl, ht⟩ <;>
    rcases h'.length with ⟨rfl, ht'⟩ | ⟨u', hu, ht'⟩
  · rfl
  · simp only [List.mem_cons, List.not_mem_nil, or_false] at ht ht'
    rcases ht with ht | ht <;> rw [ht] at ht' <;> simp at ht'
  · simp only [List.mem_cons, List.not_mem_nil, or_false] at ht ht'
    rcases ht' with ht' | ht' <;> rw [ht'] at ht <;> simp at ht
  · exact (List.cons.inj hu).2

/-- Commands in order from stage `k` at `ts` to stage `e` at `rest`. -/
inductive Run : Nat → List Token → Nat → List Token → Prop
  | nil {k ts} : Run k ts k ts
  | cons {k j ts r e rest} (h : Command j ts r) (hj : k ≤ j) (hr : Run (j + 1) r e rest) :
    Run k ts e rest

theorem Run.le {k e : Nat} {ts rest : List Token} (h : Run k ts e rest) : k ≤ e := by
  induction h with
  | nil => exact Nat.le_refl _
  | cons _ hj _ ih => omega

theorem Run.suffix {k e : Nat} {ts rest : List Token} (h : Run k ts e rest) : rest <:+ ts := by
  induction h with
  | nil => exact List.suffix_rfl
  | cons h _ _ ih =>
    obtain ⟨_, hc⟩ := h.covers
    exact ih.trans hc.suffix

theorem Run.trans {k l e : Nat} {ts r rest : List Token} (h : Run k ts l r)
    (h' : Run l r e rest) : Run k ts e rest := by
  induction h with
  | nil => exact h'
  | cons hc hj _ ih => exact .cons hc hj (ih h')

/-- A walk may start at any stage before that of its first command. -/
theorem Run.of_starts {j k l e : Nat} {ts rest : List Token} (h : Run k ts e rest)
    (hs : Starts (starters j) ts) (hlt : k < e) (hl : l ≤ j) : Run l ts e rest := by
  cases h with
  | nil => exact absurd hlt (Nat.lt_irrefl _)
  | cons hc _ hr => exact .cons hc (hs.inj hc.starts ▸ hl) hr

/-- Of two walks from the same tokens, the longer one goes on where the other one stops. -/
theorem Run.split {k e e' : Nat} {ts r r' : List Token} (h : Run k ts e r)
    (h' : Run k ts e' r') (hl : r'.length ≤ r.length) : Run e r e' r' := by
  induction h with
  | nil => exact h'
  | @cons k j ts s e r h hj hr ih =>
    cases h' with
    | nil =>
      obtain ⟨_, hc⟩ := h.covers
      have hs := hr.suffix.length_le
      have hlt := hc.length_lt
      omega
    | cons h₂ _ hr₂ =>
      obtain ⟨rfl, rfl⟩ := h.unique h₂
      exact ih hr₂ hl

/-- The next token starts no command that may stand at stage `e` or later. -/
def Stops (e : Nat) (ts : List Token) : Prop := ∀ j, e ≤ j → ¬ Starts (starters j) ts

theorem Run.length_le {k e e' : Nat} {ts r r' : List Token} (h : Run k ts e r)
    (hs : Stops e r) (h' : Run k ts e' r') : r.length ≤ r'.length := by
  rcases Nat.lt_or_ge r'.length r.length with hlt | hge
  · cases h.split h' (Nat.le_of_lt hlt) with
    | nil => exact Nat.le_refl _
    | cons hc hj _ => exact absurd hc.starts (hs _ hj)
  · exact hge

/-- A walk reaches its last tokens at one stage only. -/
theorem Run.stage_unique {k e e' : Nat} {ts rest : List Token} (h : Run k ts e rest)
    (h' : Run k ts e' rest) : e = e' :=
  Nat.le_antisymm (h.split h' (Nat.le_refl _)).le (h'.split h (Nat.le_refl _)).le

/-! ## Basic blocks as walks -/

def stageAfter {α : Type} (k : Nat) (command : Option α) (before : Nat) : Nat :=
  if command.isSome then k + 1 else before

def stageOf (b : BasicBlock) : Nat :=
  stageAfter 2 b.flow (stageAfter 1 b.move (stageAfter 0 b.write 0))

theorem IsOption.eq_or_starts {α : Type} {part : List Token → α → List Token → Prop} {k : Nat}
    (hp : ∀ {ts a rest}, part ts a rest → Command k ts rest) {ts rest : List Token}
    {command : Option α} (h : IsOption part ts command rest) :
    command = none ∧ ts = rest ∨ command.isSome ∧ Starts (starters k) ts := by
  cases h with
  | missing => exact .inl ⟨rfl, rfl⟩
  | given h => exact .inr ⟨rfl, (hp h).starts⟩

theorem stageAfter_le {α : Type} {k : Nat} {command : Option α} {before : Nat}
    (h : before ≤ k) : stageAfter k command before ≤ k + 1 := by
  unfold stageAfter
  split <;> omega

theorem stageOf_le_two {b : BasicBlock} : stageOf b ≤ 2 ↔ b.flow = none := by
  unfold stageOf stageAfter
  cases b.flow <;> cases b.move <;> cases b.write <;> simp

theorem stageOf_le_one {b : BasicBlock} :
    stageOf b ≤ 1 ↔ b.flow = none ∧ b.move = none := by
  unfold stageOf stageAfter
  cases b.flow <;> cases b.move <;> cases b.write <;> simp

theorem stageOf_pos {b : BasicBlock} :
    0 < stageOf b ↔ b.write.isSome ∨ b.move.isSome ∨ b.flow.isSome := by
  unfold stageOf stageAfter
  cases b.flow <;> cases b.move <;> cases b.write <;> simp

theorem IsOption.run {α : Type} {part : List Token → α → List Token → Prop} {k l : Nat}
    (hp : ∀ {ts a rest}, part ts a rest → Command k ts rest) {ts rest : List Token}
    {command : Option α} (h : IsOption part ts command rest) (hl : l ≤ k) :
    Run l ts (stageAfter k command l) rest := by
  cases h with
  | missing => exact .nil
  | given h => exact .cons (hp h) hl .nil

theorem IsOption.eq_or_starts_command {α : Type} {part : List Token → α → List Token → Prop}
    {k : Nat} (hp : ∀ {ts a rest}, part ts a rest → Command k ts rest) {ts rest : List Token}
    {command : Option α} (h : IsOption part ts command rest) :
    command = none ∧ ts = rest ∨ Starts commandStarters ts :=
  (h.eq_or_starts hp).imp id fun hs => hs.2.mono (starters_subset k)

theorem IsBasic.starts {ts rest : List Token} {b : BasicBlock} (h : IsBasic ts b rest) :
    Starts commandStarters ts := by
  obtain ⟨r, r', hw, hm, hf⟩ := h.commands
  rcases hw.eq_or_starts_command Command.write with ⟨h₁, rfl⟩ | hs
  · rcases hm.eq_or_starts_command Command.move with ⟨h₂, rfl⟩ | hs
    · rcases hf.eq_or_starts_command Command.flow with ⟨h₃, rfl⟩ | hs
      · have hsome := h.some
        simp [h₁, h₂, h₃] at hsome
      · exact hs
    · exact hs
  · exact hs

theorem IsCore.starts {ts rest : List Token} {b : CoreBlock} (h : IsCore ts b rest) :
    Starts commandStarters ts := by
  obtain ⟨r, hw, hm⟩ := h.commands
  rcases hw.eq_or_starts_command Command.write with ⟨h₁, rfl⟩ | hs
  · rcases hm.eq_or_starts_command Command.move with ⟨h₂, rfl⟩ | hs
    · have hsome := h.some
      simp [h₁, h₂] at hsome
    · exact hs
  · exact hs

theorem IsBasic.run {ts rest : List Token} {b : BasicBlock} (h : IsBasic ts b rest) :
    Run 0 ts (stageOf b) rest := by
  obtain ⟨r, r', hw, hm, hf⟩ := h.commands
  have h₁ : stageAfter 0 b.write 0 ≤ 1 := stageAfter_le (Nat.le_refl 0)
  have h₂ : stageAfter 1 b.move (stageAfter 0 b.write 0) ≤ 2 := stageAfter_le h₁
  exact (hw.run Command.write (Nat.le_refl 0)).trans
    ((hm.run Command.move h₁).trans (hf.run Command.flow h₂))

/-- A walk takes the command of its first stage or passes it over. -/
theorem Run.first {k e : Nat} {ts rest : List Token} (h : Run k ts e rest) :
    ∃ r e', (Command k ts r ∨ r = ts) ∧ Run (k + 1) r e' rest := by
  cases h with
  | nil => exact ⟨ts, k + 1, .inr rfl, .nil⟩
  | @cons _ j _ r _ _ hc hj hr =>
    rcases Nat.eq_or_lt_of_le hj with rfl | hlt
    · exact ⟨r, e, .inl hc, hr⟩
    · exact ⟨ts, e, .inr rfl, .cons hc hlt hr⟩

theorem Run.last {e : Nat} {ts rest : List Token} (h : Run 3 ts e rest) : ts = rest := by
  cases h with
  | nil => rfl
  | cons hc hj _ => cases hc <;> omega

/-- A walk that takes a command reads a basic block. -/
theorem Run.exists_basic {e : Nat} {ts rest : List Token} (h : Run 0 ts e rest)
    (hl : rest.length < ts.length) : ∃ b, IsBasic ts b rest := by
  obtain ⟨span, hc⟩ := exists_covers h.suffix hl
  obtain ⟨r₁, e₁, h₁, hr₁⟩ := h.first
  obtain ⟨r₂, e₂, h₂, hr₂⟩ := hr₁.first
  obtain ⟨r₃, e₃, h₃, hr₃⟩ := hr₂.first
  obtain rfl := hr₃.last
  obtain ⟨w, hw, hw'⟩ : ∃ w, IsOption IsWrite ts w r₁ ∧ (w = none → r₁ = ts) := by
    rcases h₁ with hc | rfl
    · cases hc with
      | write h => exact ⟨some _, .given h, nofun⟩
    · exact ⟨none, .missing, fun _ => rfl⟩
  obtain ⟨m, hm, hm'⟩ : ∃ m, IsOption IsMove r₁ m r₂ ∧ (m = none → r₂ = r₁) := by
    rcases h₂ with hc | rfl
    · cases hc with
      | move h => exact ⟨some _, .given h, nofun⟩
    · exact ⟨none, .missing, fun _ => rfl⟩
  obtain ⟨f, hf, hf'⟩ : ∃ f, IsOption IsFlow r₂ f r₃ ∧ (f = none → r₃ = r₂) := by
    rcases h₃ with hc | rfl
    · cases hc with
      | flow h => exact ⟨some _, .given h, nofun⟩
    · exact ⟨none, .missing, fun _ => rfl⟩
  refine ⟨⟨w, m, f, span⟩, ⟨r₁, r₂, hw, hm, hf⟩, ?_, hc⟩
  cases w with
  | some _ => exact .inl rfl
  | none =>
    cases m with
    | some _ => exact .inr (.inl rfl)
    | none =>
      cases f with
      | some _ => exact .inr (.inr rfl)
      | none => rw [hf' rfl, hm' rfl, hw' rfl] at hl; exact absurd hl (Nat.lt_irrefl _)

def caseStarters : List String := ["if", "while"]

theorem IsCase.starts {e : Ending} {ts rest : List Token} {c : Case} (h : IsCase e ts c rest) :
    Starts caseStarters ts := by
  cases h with
  | branch h => exact h.starts (by decide)
  | loop h => exact h.starts (by decide)

theorem IsCases.starts {e : Ending} {ts rest : List Token} {cs : List Case}
    (h : IsCases e ts cs rest) : Starts caseStarters ts := by
  cases h with
  | one h => exact h.starts
  | more h _ => exact h.starts

def blockStarters : List String := "switch" :: (caseStarters ++ commandStarters)

theorem IsBlock.starts {e : Ending} {ts rest : List Token} {b : Block}
    (h : IsBlock e ts b rest) : Starts blockStarters ts := by
  cases h with
  | basic h _ => exact h.starts.mono (by decide)
  | switch h => exact h.starts (by decide)
  | run h => exact h.starts.mono (by decide)

theorem IsBlocks.starts {e : Ending} {ts rest : List Token} {bs : List Block}
    (h : IsBlocks e ts bs rest) (hne : bs ≠ []) : Starts blockStarters ts := by
  cases h with
  | nil => exact absurd rfl hne
  | cons hb _ => exact hb.starts

/-- Basic blocks and runs of cases end where the next token cannot go on with them. -/
def Ending.greedy : Ending where
  basic ts rest := ∃ e, Run 0 ts e rest ∧ Stops e rest
  run _ rest := ¬ Starts caseStarters rest

theorem IsBasic.stops {ts rest : List Token} {b : BasicBlock} (h : IsBasic ts b rest)
    (hg : Ending.greedy.basic ts rest) : Stops (stageOf b) rest := by
  obtain ⟨e, hr, hs⟩ := hg
  rwa [hr.stage_unique h.run] at hs

/-- The next token shows that a basic block is the longest one. -/
theorem Ending.greedy_basic_longest {ts rest : List Token} (h : Ending.greedy.basic ts rest) :
    Ending.longest.basic ts rest := by
  intro b r hb
  obtain ⟨e, hr, hs⟩ := h
  exact hr.length_le hs hb.run

end Grammar
end TapeLang
