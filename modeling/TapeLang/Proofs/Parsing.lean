import TapeLang.Proofs.Reading

/-!
The readers of blocks and cases against the grammar.

The readers take the greedy derivations: those in which the next token shows that a basic block
or a run of cases is over.  One direction follows the recursion of the readers, the other one
the derivation.
-/

namespace TapeLang
namespace Parser

open Grammar

def MaybeCases (e : Ending) (ts : List Token) (cs : List Case) (rest : List Token) : Prop :=
  cs = [] ∧ ts = rest ∨ IsCases e ts cs rest

theorem MaybeCases.cons {e : Ending} {ts r rest : List Token} {c : Case} {cs : List Case}
    (h : MaybeCases e r cs rest) (hc : IsCase e ts c r) : IsCases e ts (c :: cs) rest := by
  rcases h with ⟨rfl, rfl⟩ | h
  · exact .one hc
  · exact .more hc h

theorem MaybeCases.of_not_starts {e : Ending} {ts rest : List Token} {t : Token} {cs : List Case}
    (h : MaybeCases e ts cs (t :: rest)) (ht : t.text = closeBrace)
    (hn : ¬ Starts [closeBrace] ts) : IsCases e ts cs (t :: rest) := by
  rcases h with ⟨-, rfl⟩ | h
  · rw [starts_cons, ht] at hn
    exact absurd (List.mem_singleton_self _) hn
  · exact h

theorem text_of_startsCase {t : Token} (h : startsCase t) : t.text = "if" ∨ t.text = "while" := by
  simpa [startsCase] using h

theorem closeBrace_of_startsCase {t : Token} (h : startsCase t) : t.text ≠ closeBrace := by
  rcases text_of_startsCase h with h | h <;> rw [h] <;> decide

mutual

theorem isBlocks_of_reads (ts : List Token) {bs : List Block} {close : Span} {rest : List Token}
    (h : Reads (blocks ts) (bs, close) rest) :
    ∃ t, IsBlocks .greedy ts bs (t :: rest) ∧ t.text = closeBrace ∧ close = t.span := by
  rcases reads_blocks.mp h with ⟨t, rfl, ht, rfl, rfl⟩ | ⟨t, r, b, r', bs', rfl, -, hb, hbs, rfl⟩
  · exact ⟨t, .nil, ht, rfl⟩
  · have hlt := hb.lt
    have hb' := isBlock_of_reads t r hb
    obtain ⟨u, hbs', hu⟩ := isBlocks_of_reads r' hbs
    exact ⟨u, .cons hb' hbs', hu⟩
termination_by 3 * ts.length + 2

theorem isBlock_of_reads (t : Token) (ts : List Token) {b : Block} {rest : List Token}
    (h : Reads (blockAt t ts) b rest) : IsBlock .greedy (t :: ts) b rest := by
  rcases reads_blockAt.mp h with ⟨ht, r, r', cs, close, h₁, h₂, hn, hcs, rfl⟩ |
    ⟨ht, c, r, cs, hc, hcs, rfl⟩ | ⟨-, -, b, hb, rfl⟩
  · have hl₁ := h₁.length
    have hl₂ := h₂.length
    obtain ⟨u, hcs', hu, rfl⟩ := isCases_of_reads_switch r' hcs
    have hcs'' := hcs'.of_not_starts hu hn
    have hs : u :: rest <:+ t :: ts :=
      (hcs''.chain.suffix.trans (h₂.suffix.trans h₁.suffix)).trans (List.suffix_cons t ts)
    exact .switch ⟨t, rfl, ht⟩ h₁ h₂ hcs'' ⟨u, rfl, hu⟩ (Covers.of_suffix hs)
  · have hlt := hc.lt
    have hc' := isCase_of_reads t ts ht hc
    obtain ⟨hcs', hn⟩ := isCases_of_reads_run r hcs
    have hrun := hcs'.cons hc'
    exact .run hrun hn hrun.chain.covers
  · obtain ⟨hb', hg⟩ := reads_basicBlock.mp hb
    exact .basic hb' hg
termination_by 3 * (ts.length + 1) + 1

theorem isCase_of_reads (t : Token) (ts : List Token) {c : Case} {rest : List Token}
    (ht : startsCase t) (h : Reads (caseAt t ts) c rest) : IsCase .greedy (t :: ts) c rest := by
  rcases reads_caseAt.mp h with ⟨hw, hl⟩ | ⟨hw, ss, r, r', first, r'', bs, close, -, hs, h₂, -,
    hf, hbs, rfl⟩
  · exact (reads_loopAt hw).mp hl
  · have hif : t.text = "if" := (text_of_startsCase ht).resolve_right hw
    have hlt := hs.lt
    have hl₂ := h₂.length
    have hlf := hf.lt
    obtain ⟨hs', -⟩ := reads_symbols.mp hs
    obtain ⟨hf', hg⟩ := reads_basicBlock.mp hf
    obtain ⟨u, hbs', hu, rfl⟩ := isBlocks_of_reads r'' hbs
    have hsuf : u :: rest <:+ t :: ts :=
      (hbs'.suffix.trans (hf'.covers.suffix.trans h₂.suffix)).trans
        ((hs'.suffix fun h => h.covers.suffix).trans (List.suffix_cons t ts))
    exact .branch ⟨t, rfl, hif⟩ hs' h₂ hf' hg hbs' ⟨u, rfl, hu⟩ (Covers.of_suffix hsuf)
termination_by 3 * (ts.length + 1)

theorem isCases_of_reads_switch (ts : List Token) {cs : List Case} {close : Span}
    {rest : List Token} (h : Reads (switchCases ts) (cs, close) rest) :
    ∃ t, MaybeCases .greedy ts cs (t :: rest) ∧ t.text = closeBrace ∧ close = t.span := by
  rcases reads_switchCases.mp h with ⟨t, rfl, ht, rfl, rfl⟩ |
    ⟨t, r, c, r', cs', rfl, -, ht, hc, hcs, rfl⟩
  · exact ⟨t, .inl ⟨rfl, rfl⟩, ht, rfl⟩
  · have hlt := hc.lt
    have hc' := isCase_of_reads t r ht hc
    obtain ⟨u, hcs', hu⟩ := isCases_of_reads_switch r' hcs
    exact ⟨u, .inr (hcs'.cons hc'), hu⟩
termination_by 3 * ts.length + 1

theorem isCases_of_reads_run (ts : List Token) {cs : List Case} {rest : List Token}
    (h : Reads (caseRun ts) cs rest) :
    MaybeCases .greedy ts cs rest ∧ ¬ Starts caseStarters rest := by
  rcases reads_caseRun.mp h with ⟨rfl, rfl, hn⟩ | ⟨t, r, c, r', cs', rfl, ht, hc, hcs, rfl⟩
  · exact ⟨.inl ⟨rfl, rfl⟩, hn⟩
  · have hlt := hc.lt
    have hc' := isCase_of_reads t r ht hc
    obtain ⟨hcs', hn⟩ := isCases_of_reads_run r' hcs
    exact ⟨.inr (hcs'.cons hc'), hn⟩
termination_by 3 * ts.length + 1

end

/-! ## What is derived is read -/

mutual

theorem reads_of_isBlocks :
    ∀ {ts : List Token} {bs : List Block} {r : List Token}, IsBlocks .greedy ts bs r →
      ∀ {t : Token} {rest : List Token}, r = t :: rest → t.text = closeBrace →
        Reads (blocks ts) (bs, t.span) rest
  | _, _, _, .nil, t, rest, hr, ht => by
    subst hr
    exact reads_blocks.mpr (.inl ⟨t, rfl, ht, rfl, rfl⟩)
  | _, _, _, .cons hb hbs, t, rest, hr, ht => by
    obtain ⟨u, r, rfl, hu, hb'⟩ := reads_of_isBlock hb
    exact reads_blocks.mpr
      (.inr ⟨u, r, _, _, _, rfl, hu, hb', reads_of_isBlocks hbs hr ht, rfl⟩)

theorem reads_of_isBlock :
    ∀ {ts : List Token} {b : Block} {rest : List Token}, IsBlock .greedy ts b rest →
      ∃ t r, ts = t :: r ∧ t.text ≠ closeBrace ∧ Reads (blockAt t r) b rest
  | _, _, _, .basic h hg => by
    obtain ⟨t, r, rfl, ht⟩ := h.starts
    have hd : ∀ w ∈ commandStarters, w ≠ closeBrace ∧ w ≠ "switch" ∧ w ≠ "if" ∧ w ≠ "while" := by
      decide
    obtain ⟨h₁, h₂, h₃, h₄⟩ := hd _ ht
    exact ⟨t, r, rfl, h₁, reads_blockAt.mpr (.inr (.inr ⟨h₂, by simp [startsCase, h₃, h₄], _,
      reads_basicBlock.mpr ⟨h, hg⟩, rfl⟩))⟩
  | _, _, _, .switch h₁ h₂ h₃ hcs h₄ hc => by
    obtain ⟨t, rfl, ht⟩ := h₁
    obtain ⟨u, rfl, hu⟩ := h₄
    have hs := (hcs.chain.suffix.trans (h₃.suffix.trans h₂.suffix)).trans (List.suffix_cons t _)
    exact ⟨t, _, rfl, by rw [ht]; decide, reads_blockAt.mpr (.inl ⟨ht, _, _, _, _, h₂, h₃,
      hcs.starts.disjoint (by decide), reads_switch_of_isCases hcs rfl hu, by rw [hc.eq hs]⟩)⟩
  | _, _, _, .run hcs hn hc => by
    obtain ⟨t, r, c, r', cs, rfl, ht, hcase, hrun, rfl⟩ := reads_run_of_isCases hcs hn
    exact ⟨t, r, rfl, closeBrace_of_startsCase ht, reads_blockAt.mpr
      (.inr (.inl ⟨ht, c, r', cs, hcase, hrun, by rw [hc.unique hcs.chain.covers]⟩))⟩

theorem reads_switch_of_isCases :
    ∀ {ts : List Token} {cs : List Case} {r : List Token}, IsCases .greedy ts cs r →
      ∀ {u : Token} {rest : List Token}, r = u :: rest → u.text = closeBrace →
        Reads (switchCases ts) (cs, u.span) rest
  | _, _, _, .one h, u, rest, hr, hu => by
    subst hr
    obtain ⟨t, r, rfl, ht, hcase⟩ := reads_of_isCase h
    exact reads_switchCases.mpr (.inr ⟨t, r, _, _, _, rfl, closeBrace_of_startsCase ht, ht, hcase,
      reads_switchCases.mpr (.inl ⟨u, rfl, hu, rfl, rfl⟩), rfl⟩)
  | _, _, _, .more h hcs, u, rest, hr, hu => by
    obtain ⟨t, r, rfl, ht, hcase⟩ := reads_of_isCase h
    exact reads_switchCases.mpr (.inr ⟨t, r, _, _, _, rfl, closeBrace_of_startsCase ht, ht, hcase,
      reads_switch_of_isCases hcs hr hu, rfl⟩)

theorem reads_run_of_isCases :
    ∀ {ts : List Token} {cs : List Case} {rest : List Token}, IsCases .greedy ts cs rest →
      ¬ Starts caseStarters rest → ∃ t r c r' cs', ts = t :: r ∧ startsCase t ∧
        Reads (caseAt t r) c r' ∧ Reads (caseRun r') cs' rest ∧ cs = c :: cs'
  | _, _, _, .one h, hn => by
    obtain ⟨t, r, rfl, ht, hcase⟩ := reads_of_isCase h
    exact ⟨t, r, _, _, [], rfl, ht, hcase, reads_caseRun.mpr (.inl ⟨rfl, rfl, hn⟩), rfl⟩
  | _, _, _, .more h hcs, hn => by
    obtain ⟨t, r, rfl, ht, hcase⟩ := reads_of_isCase h
    exact ⟨t, r, _, _, _, rfl, ht, hcase,
      reads_caseRun.mpr (.inr (reads_run_of_isCases hcs hn)), rfl⟩

theorem reads_of_isCase :
    ∀ {ts : List Token} {c : Case} {rest : List Token}, IsCase .greedy ts c rest →
      ∃ t r, ts = t :: r ∧ startsCase t ∧ Reads (caseAt t r) c rest
  | _, _, _, .branch h₁ hs h₂ hf hg hbs h₃ hc => by
    obtain ⟨t, rfl, ht⟩ := h₁
    obtain ⟨u, rfl, hu⟩ := h₃
    have hsuf := (hbs.suffix.trans (hf.covers.suffix.trans h₂.suffix)).trans
      ((hs.suffix fun h => h.covers.suffix).trans (List.suffix_cons t _))
    refine ⟨t, _, rfl, by simp [startsCase, ht], reads_caseAt.mpr (.inr ⟨by rw [ht]; decide, _, _,
      _, _, _, _, _, hs.not_starts fun h => h.not_starts (by decide), reads_symbols.mpr ⟨hs, ?_⟩,
      h₂, hf.starts.disjoint (by decide), reads_basicBlock.mpr ⟨hf, hg⟩,
      reads_of_isBlocks hbs rfl hu, by rw [hc.eq hsuf]⟩)⟩
    exact h₂.not_starts (by decide)
  | _, _, _, .loop h₁ hs h₂ hb h₃ hc => by
    obtain ⟨t, rfl, ht⟩ := id h₁
    exact ⟨t, _, rfl, by simp [startsCase, ht], reads_caseAt.mpr
      (.inl ⟨ht, (reads_loopAt ht).mpr (.loop (e := .greedy) h₁ hs h₂ hb h₃ hc)⟩)⟩

end

theorem reads_module {ts rest : List Token} {m : Module} :
    Reads (module ts) m rest ↔ IsModule .greedy ts m rest := by
  simp only [module, reads_bind, reads_bind_unit, reads_pure, reads_expect, reads_identifier,
    refuse_eq_ok, exists_prop, Prod.exists]
  constructor
  · intro h
    obtain ⟨t, r₁, ⟨rfl, ht⟩, n, r₂, hn, u, r₃, ⟨rfl, hu⟩, hne, bs, close, r₄, hbs, rfl, rfl⟩ := h
    obtain ⟨v, hbs', hv, rfl⟩ := isBlocks_of_reads _ hbs
    have hs : v :: r₄ <:+ t :: r₁ :=
      (hbs'.suffix.trans (List.suffix_cons u r₃)).trans
        (hn.covers.suffix.trans (List.suffix_cons t r₁))
    refine .mk ⟨t, rfl, ht⟩ hn ⟨u, rfl, hu⟩ hbs' ?_ ⟨v, rfl, hv⟩ (Covers.of_suffix hs)
    intro h
    subst h
    cases hbs'
    exact hne (starts_cons.mpr (by simp [hv]))
  · intro h
    obtain ⟨⟨t, rfl, ht⟩, hn, ⟨u, rfl, hu⟩, hbs, hne, ⟨v, rfl, hv⟩, hc⟩ := h
    have hs := (hbs.suffix.trans (List.suffix_cons u _)).trans
      (hn.covers.suffix.trans (List.suffix_cons t _))
    exact ⟨t, _, ⟨rfl, ht⟩, _, _, hn, u, _, ⟨rfl, hu⟩, (hbs.starts hne).disjoint (by decide),
      _, _, rest, reads_of_isBlocks hbs rfl hv, by rw [hc.eq hs], rfl⟩

theorem modules_cons_eq_ok {t : Token} {ts : List Token} {ms : List Module} :
    modules (t :: ts) = .ok ms ↔
      ∃ m r ms', Reads (module (t :: ts)) m r ∧ modules r = .ok ms' ∧ ms = m :: ms' := by
  rw [modules]
  constructor
  · intro h
    cases hm : module (t :: ts) with
    | error e => rw [hm] at h; cases h
    | ok v =>
      rw [hm] at h
      cases hr : modules v.rest with
      | error e => simp [bind, Except.bind, hr] at h
      | ok ms' =>
        simp only [bind, Except.bind, hr] at h
        cases h
        exact ⟨v.value, v.rest, ms', ⟨v.lt, rfl⟩, hr, rfl⟩
  · intro h
    obtain ⟨m, r, ms', ⟨hl, hm⟩, hr, rfl⟩ := h
    simp [hm, bind, Except.bind, hr, pure, Except.pure]

theorem modules_eq_ok_nil {ts : List Token} : modules ts = .ok [] ↔ ts = [] := by
  cases ts with
  | nil => simp [modules]
  | cons t ts => simp [modules_cons_eq_ok]

theorem modules_eq_ok_cons {ts : List Token} {m : Module} {ms : List Module} :
    modules ts = .ok (m :: ms) ↔ ∃ r, IsModule .greedy ts m r ∧ modules r = .ok ms := by
  cases ts with
  | nil =>
    constructor
    · intro h
      rw [modules] at h
      cases h
    · intro h
      obtain ⟨r, h, -⟩ := h
      exact absurd h.covers.length_lt (Nat.not_lt_zero _)
  | cons t ts =>
    rw [modules_cons_eq_ok]
    constructor
    · intro h
      obtain ⟨m', r, ms', hm, hms, h⟩ := h
      cases h
      exact ⟨r, reads_module.mp hm, hms⟩
    · intro h
      obtain ⟨r, hm, hms⟩ := h
      exact ⟨m, r, ms, reads_module.mpr hm, hms, rfl⟩

theorem modules_eq_ok {ts : List Token} {ms : List Module} :
    modules ts = .ok ms ↔ ts = [] ∧ ms = [] ∨ IsModules .greedy ts ms [] := by
  induction ms generalizing ts with
  | nil =>
    rw [modules_eq_ok_nil]
    constructor
    · exact fun h => .inl ⟨h, rfl⟩
    · intro h
      rcases h with ⟨h, -⟩ | h
      · exact h
      · cases h
  | cons m ms ih =>
    rw [modules_eq_ok_cons]
    constructor
    · intro h
      obtain ⟨r, hm, hms⟩ := h
      rcases ih.mp hms with ⟨rfl, rfl⟩ | hms
      · exact .inr (.one hm)
      · exact .inr (.more hm hms)
    · intro h
      rcases h with ⟨-, h⟩ | h
      · cases h
      · cases h with
        | one hm => exact ⟨[], hm, ih.mpr (.inl ⟨rfl, rfl⟩)⟩
        | more hm hms => exact ⟨_, hm, ih.mpr (.inr hms)⟩

theorem program_eq_ok {ts : List Token} {p : Program} :
    program ts = .ok p ↔ IsProgram .greedy ts p := by
  have hstep : program ts = .ok p ↔ ∃ a r ms, Reads (alphabet ts) a r ∧ r ≠ [] ∧
      modules r = .ok ms ∧ p = ⟨a, ms⟩ := by
    rw [program]
    cases ha : alphabet ts with
    | error e => simp [bind, Except.bind]
    | ok v =>
      obtain ⟨a, r, hl⟩ := v
      cases r with
      | nil => simp [bind, Except.bind, wrong]
      | cons t r =>
        cases hm : modules (t :: r) with
        | error e => simp [bind, Except.bind, hm]
        | ok ms => simp [bind, Except.bind, pure, Except.pure, hm, eq_comm]
  rw [hstep]
  constructor
  · intro h
    obtain ⟨a, r, ms, ha, hr, hms, rfl⟩ := h
    rcases modules_eq_ok.mp hms with ⟨h, -⟩ | hms
    · exact absurd h hr
    · exact ⟨r, reads_alphabet.mp ha, hms⟩
  · intro h
    obtain ⟨r, ha, hms⟩ := h
    refine ⟨p.alphabet, r, p.modules, reads_alphabet.mpr ha, ?_, modules_eq_ok.mpr (.inr hms), rfl⟩
    intro h
    subst h
    exact absurd hms.length_lt (Nat.lt_irrefl _)

end Parser

theorem Program.ofTokens_eq_ok {ts : List Token} {p : Program} :
    Program.ofTokens ts = .ok p ↔ Grammar.IsProgram .greedy ts p := by
  rw [← Parser.program_eq_ok, Program.ofTokens]
  cases ts with
  | nil =>
    constructor
    · intro h
      cases h
    · intro h
      rw [Parser.program, Parser.alphabet, Parser.expect, Parser.next] at h
      cases h
  | cons t ts =>
    rw [List.getLast?_cons]
    cases h : Parser.program (t :: ts) with
    | ok q => simp
    | error stop => cases stop <;> simp

end TapeLang
