import TapeLang.Proofs.Parsing

/-!
The plain grammar, the longest reading and the parser.

A plain derivation becomes a greedy one by joining neighbours: a basic block takes over the
commands of the next one as long as they come later in the order, and a run of cases takes over
the run after it.  What follows decides whether there is something to take over, so the
sequence has to be closed by a brace.  The greedy derivation is the one the parser finds, and
it is the only one whose basic blocks and runs are as long as the plain grammar allows.
-/

namespace TapeLang
namespace Grammar

open TapeLang.Parser (closeBrace)

/-- A basic block that the next token does not end takes over the block after it. -/
theorem IsBasic.extend {ts r rest : List Token} {b : BasicBlock} {bs : List Block}
    (h : IsBasic ts b r) (hbs : IsBlocks .greedy r bs rest) (hr : Starts [closeBrace] rest)
    (hn : ¬ Stops (stageOf b) r) :
    ∃ b' r' bs', IsBasic ts b' r' ∧ Ending.greedy.basic ts r' ∧ IsBlocks .greedy r' bs' rest ∧
      r'.length < r.length := by
  obtain ⟨j, hj, hs⟩ : ∃ j, stageOf b ≤ j ∧ Starts (starters j) r := by
    simpa [Stops] using hn
  have hcmd := hs.mono (starters_subset j)
  cases hbs with
  | nil => exact absurd hr (hcmd.disjoint (by decide))
  | cons hb hbs =>
    cases hb with
    | basic h₂ hg =>
      have hpos := stageOf_pos.mpr h₂.some
      have hrun := h.run.trans (h₂.run.of_starts hs hpos hj)
      have hlt := h₂.covers.length_lt
      obtain ⟨b', hb'⟩ := hrun.exists_basic (Nat.lt_trans hlt h.covers.length_lt)
      exact ⟨b', _, _, hb', ⟨_, hrun, h₂.stops hg⟩, hbs, hlt⟩
    | switch h₁ => exact absurd (h₁.starts (List.mem_singleton_self _)) (hcmd.disjoint (by decide))
    | run hcs => exact absurd hcs.starts (hcmd.disjoint (by decide))

theorem IsCases.append {e : Ending} :
    ∀ {ts : List Token} {cs : List Case} {r : List Token}, IsCases e ts cs r →
      ∀ {cs' : List Case} {rest : List Token}, IsCases e r cs' rest →
        IsCases e ts (cs ++ cs') rest
  | _, _, _, .one h, _, _, h' => .more h h'
  | _, _, _, .more h hcs, _, _, h' => .more h (IsCases.append hcs h')

/-- A run of cases that the next token does not end takes over the run after it. -/
theorem IsCases.extend {ts r rest : List Token} {cs : List Case} {bs : List Block}
    (h : IsCases .greedy ts cs r) (hbs : IsBlocks .greedy r bs rest)
    (hr : Starts [closeBrace] rest) (hn : Starts caseStarters r) :
    ∃ cs' r' bs', IsCases .greedy ts cs' r' ∧ ¬ Starts caseStarters r' ∧
      IsBlocks .greedy r' bs' rest ∧ r'.length < r.length := by
  cases hbs with
  | nil => exact absurd hr (hn.disjoint (by decide))
  | cons hb hbs =>
    cases hb with
    | basic h₂ => exact absurd h₂.starts (hn.disjoint (by decide))
    | switch h₁ => exact absurd (h₁.starts (List.mem_singleton_self _)) (hn.disjoint (by decide))
    | run hcs hstop hc => exact ⟨_, _, _, h.append hcs, hstop, hbs, hc.length_lt⟩

theorem exists_greedy_basic {ts r rest : List Token} {b : BasicBlock} {bs : List Block}
    (h : IsBasic ts b r) (hbs : IsBlocks .greedy r bs rest) (hr : Starts [closeBrace] rest) :
    ∃ b' r' bs', IsBasic ts b' r' ∧ Ending.greedy.basic ts r' ∧ IsBlocks .greedy r' bs' rest := by
  by_cases hs : Stops (stageOf b) r
  · exact ⟨b, r, bs, h, ⟨_, h.run, hs⟩, hbs⟩
  · obtain ⟨b', r', bs', hb', hg, hbs', -⟩ := h.extend hbs hr hs
    exact ⟨b', r', bs', hb', hg, hbs'⟩

theorem exists_greedy_run {ts r rest : List Token} {cs : List Case} {bs : List Block}
    (h : IsCases .greedy ts cs r) (hbs : IsBlocks .greedy r bs rest)
    (hr : Starts [closeBrace] rest) : ∃ b bs', IsBlocks .greedy ts (b :: bs') rest := by
  obtain ⟨cs', r', bs', hcs, hn, hbs'⟩ : ∃ cs' r' bs', IsCases .greedy ts cs' r' ∧
      ¬ Starts caseStarters r' ∧ IsBlocks .greedy r' bs' rest := by
    by_cases hs : Starts caseStarters r
    · obtain ⟨cs', r', bs', hcs, hn, hbs', -⟩ := h.extend hbs hr hs
      exact ⟨cs', r', bs', hcs, hn, hbs'⟩
    · exact ⟨cs, r, bs, h, hs, hbs⟩
  obtain ⟨c, cs, rfl⟩ := hcs.eq_cons
  exact ⟨_, bs', .cons (.run hcs hn hcs.chain.covers) hbs'⟩

mutual

theorem exists_greedy_blocks :
    ∀ {ts : List Token} {bs : List Block} {rest : List Token}, IsBlocks .any ts bs rest →
      Starts [closeBrace] rest → ∃ bs', IsBlocks .greedy ts bs' rest ∧ (bs ≠ [] → bs' ≠ [])
  | _, _, _, .nil, _ => ⟨[], .nil, id⟩
  | _, _, _, .cons hb hbs, hr => by
    obtain ⟨bs', hbs', -⟩ := exists_greedy_blocks hbs hr
    obtain ⟨b, bs'', h⟩ := exists_greedy_cons hb hbs' hr
    exact ⟨b :: bs'', h, fun _ => List.cons_ne_nil b bs''⟩

theorem exists_greedy_cons :
    ∀ {ts : List Token} {b : Block} {r : List Token}, IsBlock .any ts b r →
      ∀ {bs : List Block} {rest : List Token}, IsBlocks .greedy r bs rest →
        Starts [closeBrace] rest → ∃ b' bs', IsBlocks .greedy ts (b' :: bs') rest
  | _, _, _, .basic h _, _, _, hbs, hr => by
    obtain ⟨b', r', bs', hb', hg, hbs'⟩ := exists_greedy_basic h hbs hr
    exact ⟨.basic b', bs', .cons (.basic hb' hg) hbs'⟩
  | _, _, _, .switch h₁ h₂ h₃ hcs h₄ hc, _, _, hbs, _ => by
    obtain ⟨cs', hcs'⟩ := exists_greedy_cases hcs
    exact ⟨_, _, .cons (.switch h₁ h₂ h₃ hcs' h₄ hc) hbs⟩
  | _, _, _, .run hcs _ _, _, _, hbs, hr => by
    obtain ⟨cs', hcs'⟩ := exists_greedy_cases hcs
    exact exists_greedy_run hcs' hbs hr

theorem exists_greedy_cases :
    ∀ {ts : List Token} {cs : List Case} {rest : List Token}, IsCases .any ts cs rest →
      ∃ cs', IsCases .greedy ts cs' rest
  | _, _, _, .one h => by
    obtain ⟨c', h'⟩ := exists_greedy_case h
    exact ⟨[c'], .one h'⟩
  | _, _, _, .more h hcs => by
    obtain ⟨c', h'⟩ := exists_greedy_case h
    obtain ⟨cs', hcs'⟩ := exists_greedy_cases hcs
    exact ⟨c' :: cs', .more h' hcs'⟩

theorem exists_greedy_case :
    ∀ {ts : List Token} {c : Case} {rest : List Token}, IsCase .any ts c rest →
      ∃ c', IsCase .greedy ts c' rest
  | _, _, _, .branch h₁ hs h₂ hf _ hbs h₃ hc => by
    have hr := h₃.starts (List.mem_singleton_self closeBrace)
    obtain ⟨bs', hbs', -⟩ := exists_greedy_blocks hbs hr
    obtain ⟨b', r', bs'', hb', hg, hbs''⟩ := exists_greedy_basic hf hbs' hr
    exact ⟨_, .branch h₁ hs h₂ hb' hg hbs'' h₃ hc⟩
  | _, _, _, .loop h₁ hs h₂ hb h₃ hc => ⟨_, .loop h₁ hs h₂ hb h₃ hc⟩

end

theorem exists_greedy_module {ts rest : List Token} {m : Module} (h : IsModule .any ts m rest) :
    ∃ m', IsModule .greedy ts m' rest := by
  obtain ⟨h₁, hn, h₂, hbs, hne, h₃, hc⟩ := h
  obtain ⟨bs', hbs', hne'⟩ := exists_greedy_blocks hbs (h₃.starts (List.mem_singleton_self _))
  exact ⟨_, h₁, hn, h₂, hbs', hne' hne, h₃, hc⟩

theorem exists_greedy_modules {ts rest : List Token} {ms : List Module}
    (h : IsModules .any ts ms rest) : ∃ ms', IsModules .greedy ts ms' rest := by
  induction h with
  | one h =>
    obtain ⟨m', h'⟩ := exists_greedy_module h
    exact ⟨[m'], .one h'⟩
  | more h _ ih =>
    obtain ⟨m', h'⟩ := exists_greedy_module h
    obtain ⟨ms', hms'⟩ := ih
    exact ⟨m' :: ms', .more h' hms'⟩

theorem exists_greedy_program {ts : List Token} {p : Program} (h : IsProgram .any ts p) :
    ∃ p', IsProgram .greedy ts p' := by
  obtain ⟨r, ha, hms⟩ := h
  obtain ⟨ms', hms'⟩ := exists_greedy_modules hms
  exact ⟨⟨p.alphabet, ms'⟩, r, ha, hms'⟩

/-! ## Greedy is longest -/

theorem IsCase.unique {ts r r' : List Token} {c c' : Case} (h : IsCase .greedy ts c r)
    (h' : IsCase .greedy ts c' r') : c = c' ∧ r = r' := by
  obtain ⟨t, more, rfl, -, hread⟩ := Parser.reads_of_isCase h
  obtain ⟨t', more', he, -, hread'⟩ := Parser.reads_of_isCase h'
  obtain ⟨rfl, rfl⟩ := List.cons.inj he
  exact hread.unique hread'

/-- A run of cases that the next token ends is the longest one. -/
theorem IsCases.length_le :
    ∀ {ts : List Token} {cs : List Case} {r : List Token}, IsCases .greedy ts cs r →
      ¬ Starts caseStarters r → ∀ {cs' : List Case} {r' : List Token},
        IsCases .greedy ts cs' r' → r.length ≤ r'.length
  | _, _, _, .one h, hn, _, _, .one h' => by
    obtain ⟨-, rfl⟩ := h.unique h'
    exact Nat.le_refl _
  | _, _, _, .one h, hn, _, _, .more h' hcs' => by
    obtain ⟨-, rfl⟩ := h.unique h'
    exact absurd hcs'.starts hn
  | _, _, _, .more h hcs, _, _, _, .one h' => by
    obtain ⟨-, rfl⟩ := h.unique h'
    exact hcs.chain.suffix.length_le
  | _, _, _, .more h hcs, hn, _, _, .more h' hcs' => by
    obtain ⟨-, rfl⟩ := h.unique h'
    exact IsCases.length_le hcs hn hcs'

theorem Ending.greedy_implies_longest : Ending.greedy.Implies .longest where
  basic _ hg := Ending.greedy_basic_longest hg
  run hcs hn cs' r' hcs' := by
    obtain ⟨cs'', hcs''⟩ := exists_greedy_cases hcs'
    exact hcs.length_le hn hcs''

/-! ## Longest is greedy -/

theorem IsBasic.greedy_of_longest {ts r rest : List Token} {b : BasicBlock} {bs : List Block}
    (h : IsBasic ts b r) (hl : Ending.longest.basic ts r) (hbs : IsBlocks .greedy r bs rest)
    (hr : Starts [closeBrace] rest) : Ending.greedy.basic ts r := by
  refine ⟨stageOf b, h.run, ?_⟩
  by_contra hn
  obtain ⟨b', r', -, hb', -, -, hlt⟩ := h.extend hbs hr hn
  exact absurd (hl b' r' hb') (Nat.not_le_of_lt hlt)

mutual

theorem IsBlocks.greedy_of_longest :
    ∀ {ts : List Token} {bs : List Block} {rest : List Token}, IsBlocks .longest ts bs rest →
      Starts [closeBrace] rest → IsBlocks .greedy ts bs rest
  | _, _, _, .nil, _ => .nil
  | _, _, _, .cons hb hbs, hr =>
    have hbs' := IsBlocks.greedy_of_longest hbs hr
    .cons (IsBlock.greedy_of_longest hb hbs' hr) hbs'

theorem IsBlock.greedy_of_longest :
    ∀ {ts : List Token} {b : Block} {r : List Token}, IsBlock .longest ts b r →
      ∀ {bs : List Block} {rest : List Token}, IsBlocks .greedy r bs rest →
        Starts [closeBrace] rest → IsBlock .greedy ts b r
  | _, _, _, .basic h hl, _, _, hbs, hr => .basic h (h.greedy_of_longest hl hbs hr)
  | _, _, _, .switch h₁ h₂ h₃ hcs h₄ hc, _, _, _, _ =>
    .switch h₁ h₂ h₃ (IsCases.greedy_of_longest hcs) h₄ hc
  | _, _, _, .run hcs hl hc, _, _, hbs, hr => by
    have hcs' := IsCases.greedy_of_longest hcs
    refine .run hcs' (fun hs => ?_) hc
    obtain ⟨cs', r', -, hcs'', -, -, hlt⟩ := hcs'.extend hbs hr hs
    exact absurd (hl cs' r' (hcs''.mono (Ending.implies_any _))) (Nat.not_le_of_lt hlt)

theorem IsCases.greedy_of_longest :
    ∀ {ts : List Token} {cs : List Case} {rest : List Token}, IsCases .longest ts cs rest →
      IsCases .greedy ts cs rest
  | _, _, _, .one h => .one (IsCase.greedy_of_longest h)
  | _, _, _, .more h hcs => .more (IsCase.greedy_of_longest h) (IsCases.greedy_of_longest hcs)

theorem IsCase.greedy_of_longest :
    ∀ {ts : List Token} {c : Case} {rest : List Token}, IsCase .longest ts c rest →
      IsCase .greedy ts c rest
  | _, _, _, .branch h₁ hs h₂ hf hl hbs h₃ hc => by
    have hr := h₃.starts (List.mem_singleton_self closeBrace)
    have hbs' := IsBlocks.greedy_of_longest hbs hr
    exact .branch h₁ hs h₂ hf (hf.greedy_of_longest hl hbs' hr) hbs' h₃ hc
  | _, _, _, .loop h₁ hs h₂ hb h₃ hc => .loop h₁ hs h₂ hb h₃ hc

end

theorem IsModule.greedy_of_longest {ts rest : List Token} {m : Module}
    (h : IsModule .longest ts m rest) : IsModule .greedy ts m rest := by
  obtain ⟨h₁, hn, h₂, hbs, hne, h₃, hc⟩ := h
  have hr := h₃.starts (List.mem_singleton_self closeBrace)
  exact ⟨h₁, hn, h₂, hbs.greedy_of_longest hr, hne, h₃, hc⟩

theorem IsModules.greedy_of_longest {ts rest : List Token} {ms : List Module}
    (h : IsModules .longest ts ms rest) : IsModules .greedy ts ms rest := by
  induction h with
  | one h => exact .one h.greedy_of_longest
  | more h _ ih => exact .more h.greedy_of_longest ih

theorem isProgram_longest_iff_greedy {ts : List Token} {p : Program} :
    IsProgram .longest ts p ↔ IsProgram .greedy ts p := by
  constructor
  · intro h
    obtain ⟨r, ha, hms⟩ := h
    exact ⟨r, ha, hms.greedy_of_longest⟩
  · exact IsProgram.mono Ending.greedy_implies_longest

end Grammar

open Grammar

theorem Program.parse_eq_ok {text : String} {ts : List Token} {p : Program}
    (h : Token.scan text = .ok ts) : Program.parse text = .ok p ↔ IsProgram .greedy ts p := by
  rw [← Program.ofTokens_eq_ok, Program.parse, h]
  rfl

theorem Program.exists_scan_of_parse {text : String} {p : Program}
    (h : Program.parse text = .ok p) : ∃ ts, Token.scan text = .ok ts := by
  cases hs : Token.scan text with
  | ok ts => exact ⟨ts, rfl⟩
  | error e => rw [Program.parse, hs] at h; cases h

/-- The parser accepts exactly the token sequences that the plain grammar derives.  What it
returns is a tree of the plain grammar, and the only one in which every basic block and every
run of cases is as long as that grammar allows. -/
theorem Program.parse_iff_grammar {text : String} {ts : List Token}
    (h : Token.scan text = .ok ts) :
    ((∃ p, Program.parse text = .ok p) ↔ ∃ p, IsProgram .any ts p) ∧
      ∀ p, Program.parse text = .ok p →
        IsProgram .any ts p ∧ ∀ q, IsProgram .longest ts q ↔ q = p := by
  simp only [Program.parse_eq_ok h, isProgram_longest_iff_greedy]
  refine ⟨⟨fun ⟨p, hp⟩ => ⟨p, hp.mono (Ending.implies_any _)⟩, fun ⟨p, hp⟩ =>
    exists_greedy_program hp⟩, fun p hp => ⟨hp.mono (Ending.implies_any _), fun q => ?_⟩⟩
  constructor
  · intro hq
    rw [← Program.ofTokens_eq_ok] at hp hq
    exact Except.ok.inj (hq.symm.trans hp)
  · intro h
    subst h
    exact hp

/-- A program in which two basic blocks and two cases stand next to each other. -/
def Program.sampleText : String :=
  "alphabet = \x7b a, b \x7d module scan \x7b move left changeto a " ++
    "if a \x7b accept \x7d while b, blank \x7b move right \x7d \x7d"

theorem exists_eq_ok {ε α : Type} {r : Except ε α} (h : r.toOption.isSome) :
    ∃ a, r = .ok a := by
  cases r with
  | ok a => exact ⟨a, rfl⟩
  | error e => cases h

theorem eq_ok_of_toOption {ε α : Type} {r : Except ε α} {a : α} (h : r.toOption = some a) :
    r = .ok a := by
  cases r with
  | ok b => exact congrArg Except.ok (Option.some.inj h)
  | error e => cases h

theorem Program.exists_parse_sampleText : ∃ p, Program.parse sampleText = .ok p :=
  exists_eq_ok (by decide +kernel)

theorem Program.parse_sampleText_longest :
    ∃ ts p, Token.scan sampleText = .ok ts ∧ Program.parse sampleText = .ok p ∧
      IsProgram .any ts p ∧ ∀ q, IsProgram .longest ts q ↔ q = p := by
  obtain ⟨p, hp⟩ := Program.exists_parse_sampleText
  obtain ⟨ts, hts⟩ := Program.exists_scan_of_parse hp
  exact ⟨ts, p, hts, hp, (Program.parse_iff_grammar hts).2 p hp⟩

end TapeLang
