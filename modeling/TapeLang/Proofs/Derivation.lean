import TapeLang.Proofs.Grammar

/-!
Facts that hold of every derivation: the tokens that are left are the end of the tokens that
were given, a region is determined by where it starts and ends, and a derivation keeps its
form when less is asked of the ends of its parts.
-/

namespace TapeLang
namespace Grammar

theorem terminal_cons {text : String} {t : Token} {ts rest : List Token} :
    Terminal text (t :: ts) rest ↔ ts = rest ∧ t.text = text := by
  constructor
  · intro h
    obtain ⟨u, h, hu⟩ := h
    obtain ⟨rfl, rfl⟩ := List.cons.inj h
    exact ⟨rfl, hu⟩
  · intro h
    obtain ⟨rfl, h⟩ := h
    exact ⟨t, rfl, h⟩

theorem Terminal.suffix {text : String} {ts rest : List Token} (h : Terminal text ts rest) :
    rest <:+ ts := by
  obtain ⟨t, rfl, -⟩ := h
  exact List.suffix_cons t rest

theorem Terminal.length {text : String} {ts rest : List Token} (h : Terminal text ts rest) :
    ts.length = rest.length + 1 := by
  obtain ⟨t, rfl, -⟩ := h
  rfl

theorem Covers.of_suffix {first last : Token} {more rest : List Token}
    (h : last :: rest <:+ first :: more) :
    Covers (first :: more) (first.span.upTo last.span) rest :=
  ⟨first, last, more, rfl, h, rfl⟩

theorem Covers.token (t : Token) (rest : List Token) : Covers (t :: rest) t.span rest :=
  Covers.of_suffix List.suffix_rfl

theorem Covers.suffix {ts rest : List Token} {span : Span} (h : Covers ts span rest) :
    rest <:+ ts := by
  obtain ⟨first, last, more, -, hs, -⟩ := h
  exact (List.suffix_cons last rest).trans hs

theorem Covers.length_lt {ts rest : List Token} {span : Span} (h : Covers ts span rest) :
    rest.length < ts.length := by
  obtain ⟨first, last, more, -, hs, -⟩ := h
  exact Nat.lt_of_succ_le hs.length_le

theorem eq_of_suffix {α : Type} {l m n : List α} (hl : l <:+ n) (hm : m <:+ n)
    (h : l.length = m.length) : l = m := by
  rw [List.suffix_iff_eq_drop] at hl hm
  rw [hl, hm, h]

/-- A region is known from its first token and its last one. -/
theorem Covers.eq {first last : Token} {more rest : List Token} {span : Span}
    (h : Covers (first :: more) span rest) (hs : last :: rest <:+ first :: more) :
    span = first.span.upTo last.span := by
  obtain ⟨f, l, m, he, hl, rfl⟩ := h
  obtain ⟨rfl, rfl⟩ := List.cons.inj he
  obtain ⟨rfl, -⟩ := List.cons.inj (eq_of_suffix hl hs rfl)
  rfl

theorem Covers.unique {ts rest : List Token} {span span' : Span} (h : Covers ts span rest)
    (h' : Covers ts span' rest) : span = span' := by
  obtain ⟨first, last, more, rfl, hs, rfl⟩ := h'
  exact h.eq hs

/-- Two neighbouring regions are one. -/
theorem Covers.trans {ts r rest : List Token} {span span' : Span} (h : Covers ts span r)
    (h' : Covers r span' rest) : Covers ts (span.upTo span') rest := by
  have hr := h.suffix
  obtain ⟨first, last, more, rfl, -, rfl⟩ := h
  obtain ⟨first', last', more', rfl, hs, rfl⟩ := h'
  exact ⟨first, last', more, rfl, hs.trans hr, rfl⟩

theorem exists_covers {ts rest : List Token} (h : rest <:+ ts) (hl : rest.length < ts.length) :
    ∃ span, Covers ts span rest := by
  obtain ⟨before, rfl⟩ := h
  rcases List.eq_nil_or_concat before with rfl | ⟨init, last, rfl⟩
  · exact absurd hl (Nat.lt_irrefl _)
  · cases init with
    | nil => exact ⟨_, Covers.token last rest⟩
    | cons first more =>
      have hs : last :: rest <:+ first :: (more ++ last :: rest) := ⟨first :: more, rfl⟩
      rw [List.concat_eq_append, List.append_assoc, List.cons_append]
      exact ⟨_, Covers.of_suffix hs⟩

/-- Neighbouring regions, one after the other. -/
inductive Chain : List Token → List Span → List Token → Prop
  | nil {ts} : Chain ts [] ts
  | cons {ts s r ss rest} (h : Covers ts s r) (hs : Chain r ss rest) : Chain ts (s :: ss) rest

theorem Chain.append {ts r rest : List Token} {ss ss' : List Span} (h : Chain ts ss r)
    (h' : Chain r ss' rest) : Chain ts (ss ++ ss') rest := by
  induction h with
  | nil => exact h'
  | cons hc _ ih => exact .cons hc (ih h')

theorem Chain.suffix {ts rest : List Token} {ss : List Span} (h : Chain ts ss rest) :
    rest <:+ ts := by
  induction h with
  | nil => exact List.suffix_rfl
  | cons hc _ ih => exact ih.trans hc.suffix

theorem Chain.covers {ts rest : List Token} {s : Span} {ss : List Span}
    (h : Chain ts (s :: ss) rest) : Covers ts (s.upTo (ss.getLastD s)) rest := by
  induction ss generalizing ts s with
  | nil =>
    cases h with
    | cons hc hs =>
      cases hs
      exact hc
  | cons s' ss ih =>
    cases h with
    | cons hc hs =>
      have hr : Covers ts (s.upTo (s'.upTo (ss.getLastD s'))) rest := hc.trans (ih hs)
      rwa [List.getLastD_cons]

theorem IsLetter.covers {ts rest : List Token} {c : Located Char} (h : IsLetter ts c rest) :
    Covers ts c.span rest := h.2.2

theorem IsName.covers {ts rest : List Token} {n : Located String} (h : IsName ts n rest) :
    Covers ts n.span rest := h.2.2

theorem IsSymbol.covers {ts rest : List Token} {s : Located Symbol} (h : IsSymbol ts s rest) :
    Covers ts s.span rest := by
  cases h with
  | letter h => exact h.covers
  | blank _ hc => exact hc

theorem IsCase.covers {e : Ending} {ts rest : List Token} {c : Case} (h : IsCase e ts c rest) :
    Covers ts c.span rest := by
  cases h with
  | branch _ _ _ _ _ _ _ hc => exact hc
  | loop _ _ _ _ _ hc => exact hc

theorem IsModule.covers {e : Ending} {ts rest : List Token} {m : Module}
    (h : IsModule e ts m rest) : Covers ts m.span rest := by
  cases h with
  | mk _ _ _ _ _ _ hc => exact hc

theorem IsList.suffix {α : Type} {item : List Token → α → List Token → Prop}
    (hitem : ∀ {ts a rest}, item ts a rest → rest <:+ ts) {ts rest : List Token} {as : List α}
    (h : IsList item ts as rest) : rest <:+ ts := by
  induction h with
  | one h => exact hitem h
  | more h hc _ ih => exact ih.trans (hc.suffix.trans (hitem h))

theorem IsList.eq_cons {α : Type} {item : List Token → α → List Token → Prop}
    {ts rest : List Token} {as : List α} (h : IsList item ts as rest) : ∃ a as', as = a :: as' := by
  cases h with
  | one _ => exact ⟨_, [], rfl⟩
  | more _ _ _ => exact ⟨_, _, rfl⟩

theorem IsBlock.exists_covers {e : Ending} {ts rest : List Token} {b : Block}
    (h : IsBlock e ts b rest) : ∃ span, Covers ts span rest := by
  cases h with
  | basic h _ => exact ⟨_, h.covers⟩
  | switch _ _ _ _ _ hc => exact ⟨_, hc⟩
  | run _ _ hc => exact ⟨_, hc⟩

theorem IsBlocks.suffix {e : Ending} :
    ∀ {ts : List Token} {bs : List Block} {rest : List Token},
      IsBlocks e ts bs rest → rest <:+ ts
  | _, _, _, .nil => List.suffix_rfl
  | _, _, _, .cons hb hbs => by
    obtain ⟨_, hc⟩ := hb.exists_covers
    exact hbs.suffix.trans hc.suffix

theorem IsCases.chain {e : Ending} :
    ∀ {ts : List Token} {cs : List Case} {rest : List Token}, IsCases e ts cs rest →
      Chain ts (cs.map Case.span) rest
  | _, _, _, .one h => .cons h.covers .nil
  | _, _, _, .more h hcs => .cons h.covers hcs.chain

theorem IsCases.eq_cons {e : Ending} {ts rest : List Token} {cs : List Case}
    (h : IsCases e ts cs rest) : ∃ c cs', cs = c :: cs' := by
  cases h with
  | one _ => exact ⟨_, [], rfl⟩
  | more _ _ => exact ⟨_, _, rfl⟩

theorem IsModules.length_lt {e : Ending} {ts rest : List Token} {ms : List Module}
    (h : IsModules e ts ms rest) : rest.length < ts.length := by
  induction h with
  | one h => exact h.covers.length_lt
  | more h _ ih => exact Nat.lt_trans ih h.covers.length_lt

structure Ending.Implies (e e' : Ending) : Prop where
  basic {ts b rest} : IsBasic ts b rest → e.basic ts rest → e'.basic ts rest
  run {ts cs rest} : IsCases e ts cs rest → e.run ts rest → e'.run ts rest

theorem Ending.implies_any (e : Ending) : e.Implies .any :=
  ⟨fun _ _ => trivial, fun _ _ => trivial⟩

mutual

theorem IsBlocks.mono {e e' : Ending} (he : e.Implies e') :
    ∀ {ts : List Token} {bs : List Block} {rest : List Token},
      IsBlocks e ts bs rest → IsBlocks e' ts bs rest
  | _, _, _, .nil => .nil
  | _, _, _, .cons hb hbs => .cons (IsBlock.mono he hb) (IsBlocks.mono he hbs)

theorem IsBlock.mono {e e' : Ending} (he : e.Implies e') :
    ∀ {ts : List Token} {b : Block} {rest : List Token},
      IsBlock e ts b rest → IsBlock e' ts b rest
  | _, _, _, .basic h hb => .basic h (he.basic h hb)
  | _, _, _, .switch h₁ h₂ h₃ hcs h₄ hc => .switch h₁ h₂ h₃ (IsCases.mono he hcs) h₄ hc
  | _, _, _, .run hcs hr hc => .run (IsCases.mono he hcs) (he.run hcs hr) hc

theorem IsCases.mono {e e' : Ending} (he : e.Implies e') :
    ∀ {ts : List Token} {cs : List Case} {rest : List Token},
      IsCases e ts cs rest → IsCases e' ts cs rest
  | _, _, _, .one h => .one (IsCase.mono he h)
  | _, _, _, .more h hcs => .more (IsCase.mono he h) (IsCases.mono he hcs)

theorem IsCase.mono {e e' : Ending} (he : e.Implies e') :
    ∀ {ts : List Token} {c : Case} {rest : List Token},
      IsCase e ts c rest → IsCase e' ts c rest
  | _, _, _, .branch h₁ hs h₂ hf hb hbs h₃ hc =>
    .branch h₁ hs h₂ hf (he.basic hf hb) (IsBlocks.mono he hbs) h₃ hc
  | _, _, _, .loop h₁ hs h₂ hb h₃ hc => .loop h₁ hs h₂ hb h₃ hc

end

theorem IsModule.mono {e e' : Ending} (he : e.Implies e') {ts : List Token} {m : Module}
    {rest : List Token} (h : IsModule e ts m rest) : IsModule e' ts m rest := by
  obtain ⟨h₁, hn, h₂, hbs, hne, h₃, hc⟩ := h
  exact ⟨h₁, hn, h₂, hbs.mono he, hne, h₃, hc⟩

theorem IsModules.mono {e e' : Ending} (he : e.Implies e') {ts : List Token} {ms : List Module}
    {rest : List Token} (h : IsModules e ts ms rest) : IsModules e' ts ms rest := by
  induction h with
  | one h => exact .one (h.mono he)
  | more h _ ih => exact .more (h.mono he) ih

theorem IsProgram.mono {e e' : Ending} (he : e.Implies e') {ts : List Token} {p : Program}
    (h : IsProgram e ts p) : IsProgram e' ts p := by
  obtain ⟨r, ha, hm⟩ := h
  exact ⟨r, ha, hm.mono he⟩

end Grammar
end TapeLang
