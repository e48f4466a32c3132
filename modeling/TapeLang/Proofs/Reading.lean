import TapeLang.Program.Parser
import TapeLang.Proofs.Commands

/-!
What the readers read.
-/

namespace TapeLang
namespace Parser

open Grammar

/-- The reader succeeds with the value `a` and leaves `rest`. -/
def Reads {α : Type} {n : Nat} (x : Except Stop (Read Token α n)) (a : α) (rest : List Token) :
    Prop :=
  ∃ h, x = .ok ⟨a, rest, h⟩

section Reads

variable {α β : Type} {n m : Nat} {a : α} {b : β} {rest : List Token}

theorem Reads.lt {x : Except Stop (Read Token α n)} (h : Reads x a rest) : rest.length < n := by
  obtain ⟨hl, -⟩ := h
  exact hl

theorem Reads.unique {x : Except Stop (Read Token α n)} {a' : α} {rest' : List Token}
    (h : Reads x a rest) (h' : Reads x a' rest') : a = a' ∧ rest = rest' := by
  obtain ⟨hl, rfl⟩ := h
  obtain ⟨hl', he⟩ := h'
  cases he
  exact ⟨rfl, rfl⟩

@[simp] theorem reads_ok {v : α} {r : List Token} {h : r.length < n} :
    Reads (.ok ⟨v, r, h⟩) a rest ↔ v = a ∧ r = rest := by
  constructor
  · intro h
    obtain ⟨hl, he⟩ := h
    cases he
    exact ⟨rfl, rfl⟩
  · intro h
    obtain ⟨rfl, rfl⟩ := h
    exact ⟨h, rfl⟩

@[simp] theorem reads_pure {v : α} {r : List Token} {h : r.length < n} :
    Reads (pure ⟨v, r, h⟩) a rest ↔ v = a ∧ r = rest := reads_ok

@[simp] theorem reads_error {e : Stop} :
    ¬ Reads (.error e : Except Stop (Read Token α n)) a rest := by
  intro h
  obtain ⟨hl, he⟩ := h
  cases he

@[simp] theorem reads_wrong {p : Problem} {s : Span} :
    ¬ Reads (wrong p s : Except Stop (Read Token α n)) a rest := reads_error

@[simp] theorem reads_bind {x : Except Stop (Read Token α n)}
    {f : Read Token α n → Except Stop (Read Token β m)} :
    Reads (x >>= f) b rest ↔ ∃ a r, ∃ h : Reads x a r, Reads (f ⟨a, r, h.lt⟩) b rest := by
  constructor
  · intro h
    cases x with
    | error e => exact absurd h reads_error
    | ok v => exact ⟨v.value, v.rest, ⟨v.lt, rfl⟩, h⟩
  · intro h
    obtain ⟨a, r, ⟨hl, rfl⟩, hf⟩ := h
    exact hf

@[simp] theorem reads_bind_unit {x : Except Stop Unit}
    {f : Unit → Except Stop (Read Token β m)} :
    Reads (x >>= f) b rest ↔ x = .ok () ∧ Reads (f ()) b rest := by
  cases x with
  | error e => simp [bind, Except.bind]
  | ok v => simp [bind, Except.bind]

theorem reads_bind_value {γ : Type} {x : Except Stop γ} {f : γ → Except Stop (Read Token β m)} :
    Reads (x >>= f) b rest ↔ ∃ v, x = .ok v ∧ Reads (f v) b rest := by
  cases x with
  | error e => simp [bind, Except.bind]
  | ok v => simp [bind, Except.bind]

theorem reads_ite {c : Prop} [Decidable c] {x y : Except Stop (Read Token α n)} :
    Reads (if c then x else y) a rest ↔ c ∧ Reads x a rest ∨ ¬ c ∧ Reads y a rest := by
  by_cases h : c <;> simp [h]

end Reads

theorem reads_next {ts rest : List Token} {t : Token} :
    Reads (next ts) t rest ↔ ts = t :: rest := by
  cases ts with
  | nil => simp [next]
  | cons u ts => simp [next]

theorem reads_expect {text : String} {ts rest : List Token} {t : Token} :
    Reads (expect text ts) t rest ↔ ts = t :: rest ∧ t.text = text := by
  simp only [expect, reads_bind, reads_ite, reads_next, reads_pure, reads_wrong]
  grind

theorem refuse_eq_ok {text : String} {report : Token → Report} {ts : List Token} :
    refuse text report ts = .ok () ↔ ¬ Starts [text] ts := by
  cases ts with
  | nil => simp [refuse]
  | cons t ts => by_cases h : t.text = text <;> simp [refuse, h]

theorem eq_singleton_iff {s : String} {c : Char} : s = String.singleton c ↔ s.toList = [c] := by
  rw [← String.toList_inj, String.toList_singleton]

theorem letterOf_eq_ok {t : Token} {c : Char} :
    letterOf t = .ok c ↔ t.text = String.singleton c ∧ isLetter c := by
  rw [eq_singleton_iff]
  unfold letterOf
  split
  · next d hd =>
    rw [hd]
    by_cases h : isLetter d <;> simp [h, wrong] <;> grind
  · next hd =>
    simp only [wrong, reduceCtorEq, false_iff, not_and]
    exact fun h => absurd h (hd c)

theorem symbolOf_eq_ok {t : Token} {s : Symbol} :
    symbolOf t = .ok s ↔ t.text = "blank" ∧ s = .blank ∨
      ∃ c, t.text = String.singleton c ∧ isLetter c ∧ s = .letter c := by
  unfold symbolOf
  split
  · next h =>
    have hb : t.text = "blank" := h
    have hne (c : Char) : "blank" ≠ String.singleton c := by
      intro hc
      have hl := eq_singleton_iff.mp hc
      rw [show "blank".toList = ['b', 'l', 'a', 'n', 'k'] from rfl] at hl
      cases hl
    rw [hb]
    constructor
    · intro hs
      cases hs
      exact .inl ⟨rfl, rfl⟩
    · intro h
      rcases h with ⟨-, rfl⟩ | ⟨c, hc, -⟩
      · rfl
      · exact absurd hc (hne c)
  · next h =>
    have hb : ¬ t.text = "blank" := h
    have hm : ((do return .letter (← letterOf t) : Except Stop Symbol) = .ok s) ↔
        ∃ c, letterOf t = .ok c ∧ s = .letter c := by
      cases letterOf t <;> simp [bind, Except.bind, pure, Except.pure, eq_comm]
    rw [hm]
    simp [hb, letterOf_eq_ok, and_assoc]

theorem reads_letter {ts rest : List Token} {c : Located Char} :
    Reads (letter ts) c rest ↔ IsLetter ts c rest := by
  simp only [letter, reads_bind, reads_next]
  simp only [reads_bind_value, letterOf_eq_ok, reads_pure]
  constructor
  · intro h
    obtain ⟨t, r, rfl, v, ⟨hv, hl⟩, rfl, rfl⟩ := h
    exact ⟨⟨t, rfl, hv⟩, hl, Covers.token t r⟩
  · intro h
    obtain ⟨⟨t, rfl, ht⟩, hl, hc⟩ := h
    have hs : c.span = t.span := hc.eq List.suffix_rfl
    exact ⟨t, rest, rfl, c.value, ⟨ht, hl⟩, by rw [← hs], rfl⟩

theorem reads_symbol {ts rest : List Token} {s : Located Symbol} :
    Reads (symbol ts) s rest ↔ IsSymbol ts s rest := by
  simp only [symbol, reads_bind, reads_next]
  simp only [reads_bind_value, symbolOf_eq_ok, reads_pure]
  constructor
  · intro h
    obtain ⟨t, r, rfl, v, ⟨hv, rfl⟩ | ⟨c, hv, hl, rfl⟩, rfl, rfl⟩ := h
    · exact .blank ⟨t, rfl, hv⟩ (Covers.token t r)
    · exact .letter (c := ⟨c, t.span⟩) ⟨⟨t, rfl, hv⟩, hl, Covers.token t r⟩
  · intro h
    cases h with
    | letter h =>
      obtain ⟨⟨t, rfl, ht⟩, hl, hc⟩ := h
      rw [hc.eq List.suffix_rfl]
      exact ⟨t, rest, rfl, _, .inr ⟨_, ht, hl, rfl⟩, rfl, rfl⟩
    | blank h hc =>
      obtain ⟨t, rfl, ht⟩ := h
      rw [hc.eq List.suffix_rfl]
      exact ⟨t, rest, rfl, _, .inl ⟨ht, rfl⟩, rfl, rfl⟩

theorem isName_iff {t : Token} : isName t = true ↔ Identifier t.text := by
  unfold isName Identifier Token.kind Token.Kind.ofText
  rw [Bool.and_eq_true, decide_eq_true_eq]
  constructor
  · intro h
    obtain ⟨hk, hh⟩ := h
    split at hk
    · cases hk
    · next hw =>
      refine ⟨hw, ?_⟩
      split at hk
      · next hall =>
        rw [List.all_eq_true] at hall
        cases hl : t.text.toList with
        | nil => rw [hl] at hh; cases hh
        | cons c cs =>
          rw [hl] at hh hall
          exact ⟨c, cs, rfl, hh, fun d hd => hall d (List.mem_cons_of_mem c hd)⟩
      · split at hk <;> cases hk
  · intro h
    obtain ⟨hw, c, cs, hl, hc, hcs⟩ := h
    have hall : t.text.toList.all Token.isWordChar = true := by
      rw [hl, List.all_cons, List.all_eq_true.mpr hcs, Bool.and_true]
      simp [Token.isWordChar, Char.isAlphanum, hc]
    rw [if_neg hw, if_pos hall]
    exact ⟨rfl, by rw [hl]; exact hc⟩

theorem reads_identifier {ts rest : List Token} {n : Located String} :
    Reads (identifier ts) n rest ↔ IsName ts n rest := by
  simp only [identifier, reads_bind, reads_next, reads_ite, reads_wrong, reads_pure, isName_iff]
  constructor
  · intro h
    obtain ⟨t, r, rfl, ⟨hi, rfl, rfl⟩ | ⟨-, h⟩⟩ := h
    · exact ⟨⟨t, rfl, rfl⟩, hi, Covers.token t r⟩
    · exact h.elim
  · intro h
    obtain ⟨⟨t, rfl, ht⟩, hi, hc⟩ := h
    refine ⟨t, rest, rfl, .inl ⟨ht ▸ hi, ?_, rfl⟩⟩
    rw [ht, ← show n.span = t.span from hc.eq List.suffix_rfl]

theorem reads_direction {ts rest : List Token} {d : Located Direction} :
    Reads (direction ts) d rest ↔ Terminal d.value.text ts rest ∧ Covers ts d.span rest := by
  simp only [direction, reads_bind, reads_next, reads_ite, reads_wrong, reads_pure]
  constructor
  · intro h
    obtain ⟨t, r, rfl, ⟨ht, rfl, rfl⟩ | ⟨-, ⟨ht, rfl, rfl⟩ | ⟨-, h⟩⟩⟩ := h
    · exact ⟨⟨t, rfl, ht⟩, Covers.token t r⟩
    · exact ⟨⟨t, rfl, ht⟩, Covers.token t r⟩
    · exact h.elim
  · intro h
    obtain ⟨⟨t, rfl, ht⟩, hc⟩ := h
    obtain ⟨v, span⟩ := d
    have hs : span = t.span := hc.eq List.suffix_rfl
    refine ⟨t, rest, rfl, ?_⟩
    cases v with
    | left => exact .inl ⟨ht, by rw [hs], rfl⟩
    | right => exact .inr ⟨by rw [ht]; simp [Direction.text], .inl ⟨ht, by rw [hs], rfl⟩⟩

theorem reads_moreLetters {ts rest : List Token} {cs : List (Located Char)} {close : Span} :
    Reads (moreLetters ts) (cs, close) rest ↔
      (∃ t, ts = t :: rest ∧ t.text = closeBrace ∧ cs = [] ∧ close = t.span) ∨
      ∃ r c r' cs', Terminal "," ts r ∧ IsLetter r c r' ∧
        Reads (moreLetters r') (cs', close) rest ∧ cs = c :: cs' := by
  cases ts with
  | nil =>
    rw [moreLetters]
    simp [Terminal]
  | cons t ts =>
    rw [moreLetters]
    simp only [reads_ite, reads_bind, reads_ok, reads_pure, reads_wrong, reads_letter,
      exists_prop, Prod.exists, Prod.mk.injEq, terminal_cons]
    constructor
    · intro h
      rcases h with ⟨ht, c, r, hc, cs', close', r', hr, ⟨rfl, rfl⟩, rfl⟩ |
        ⟨-, ⟨ht, ⟨rfl, rfl⟩, rfl⟩ | ⟨-, h⟩⟩
      · exact .inr ⟨ts, c, r, cs', ⟨rfl, ht⟩, hc, hr, rfl⟩
      · exact .inl ⟨t, rfl, ht, rfl, rfl⟩
      · exact h.elim
    · intro h
      rcases h with ⟨u, h, hu, rfl, rfl⟩ | ⟨r, c, r', cs', ⟨rfl, ht⟩, hc, hr, rfl⟩
      · obtain ⟨rfl, rfl⟩ := List.cons.inj h
        refine .inr ⟨by rw [hu]; decide, .inl ⟨hu, ⟨rfl, rfl⟩, rfl⟩⟩
      · exact .inl ⟨ht, c, r', hc, cs', close, rest, hr, ⟨rfl, rfl⟩, rfl⟩

/-- The letters up to the brace that closes the alphabet. -/
theorem reads_letters_iff {ts rest : List Token} {c : Located Char} {cs : List (Located Char)}
    {close : Span} :
    (∃ r, IsLetter ts c r ∧ Reads (moreLetters r) (cs, close) rest) ↔
      ∃ t, IsList IsLetter ts (c :: cs) (t :: rest) ∧ t.text = closeBrace ∧ close = t.span := by
  induction cs generalizing ts c with
  | nil =>
    constructor
    · intro h
      obtain ⟨r, hc, hr⟩ := h
      rcases reads_moreLetters.mp hr with ⟨t, rfl, ht, -, rfl⟩ | ⟨_, _, _, _, _, _, _, h⟩
      · exact ⟨t, .one hc, ht, rfl⟩
      · cases h
    · intro h
      obtain ⟨t, h, ht, rfl⟩ := h
      cases h with
      | one h => exact ⟨_, h, reads_moreLetters.mpr (.inl ⟨t, rfl, ht, rfl, rfl⟩)⟩
      | more _ _ hs => cases hs
  | cons c' cs ih =>
    constructor
    · intro h
      obtain ⟨r, hc, hr⟩ := h
      rcases reads_moreLetters.mp hr with ⟨_, _, _, h, _⟩ | ⟨r₁, d, r₂, ds, h₁, hd, hds, h⟩
      · cases h
      · obtain ⟨rfl, rfl⟩ := List.cons.inj h
        obtain ⟨t, hl, ht⟩ := ih.mp ⟨r₂, hd, hds⟩
        exact ⟨t, .more hc h₁ hl, ht⟩
    · intro h
      obtain ⟨t, h, ht⟩ := h
      cases h with
      | more hc h₁ hl =>
        obtain ⟨r₂, hd, hds⟩ := ih.mpr ⟨t, hl, ht⟩
        exact ⟨_, hc, reads_moreLetters.mpr (.inr ⟨_, c', r₂, cs, h₁, hd, hds, rfl⟩)⟩

theorem reads_moreSymbols {ts rest : List Token} {ss : List (Located Symbol)} :
    Reads (moreSymbols ts) ss rest ↔
      (ss = [] ∧ ts = rest ∧ ¬ Starts [","] ts) ∨
      ∃ r s r' ss', Terminal "," ts r ∧ IsSymbol r s r' ∧ Reads (moreSymbols r') ss' rest ∧
        ss = s :: ss' := by
  cases ts with
  | nil =>
    rw [moreSymbols]
    simp [Terminal, eq_comm]
  | cons t ts =>
    rw [moreSymbols]
    simp only [reads_ite, reads_bind, reads_ok, reads_pure, reads_symbol, exists_prop,
      terminal_cons, starts_cons, List.mem_singleton]
    constructor
    · intro h
      rcases h with ⟨ht, s, r, hs, ss', r', hr, rfl, rfl⟩ | ⟨ht, rfl, rfl⟩
      · exact .inr ⟨ts, s, r, ss', ⟨rfl, ht⟩, hs, hr, rfl⟩
      · exact .inl ⟨rfl, rfl, ht⟩
    · intro h
      rcases h with ⟨rfl, rfl, ht⟩ | ⟨r, s, r', ss', ⟨rfl, ht⟩, hs, hr, rfl⟩
      · exact .inr ⟨ht, rfl, rfl⟩
      · exact .inl ⟨ht, s, r', hs, ss', rest, hr, rfl, rfl⟩

theorem reads_symbols {ts rest : List Token} {ss : List (Located Symbol)} :
    Reads (symbols ts) ss rest ↔ IsList IsSymbol ts ss rest ∧ ¬ Starts [","] rest := by
  simp only [symbols, reads_bind, reads_pure, reads_symbol, exists_prop]
  constructor
  · intro h
    obtain ⟨s, r, hs, ss, r', hr, rfl, rfl⟩ := h
    induction ss generalizing ts s r with
    | nil =>
      rcases reads_moreSymbols.mp hr with ⟨-, rfl, hn⟩ | ⟨_, _, _, _, _, _, _, h⟩
      · exact ⟨.one hs, hn⟩
      · cases h
    | cons s' ss ih =>
      rcases reads_moreSymbols.mp hr with ⟨h, -⟩ | ⟨r₁, u, r₂, us, h₁, hu, hus, h⟩
      · cases h
      · obtain ⟨rfl, rfl⟩ := List.cons.inj h
        obtain ⟨hl, hn⟩ := ih s' r₂ hu hus
        exact ⟨.more hs h₁ hl, hn⟩
  · intro h
    obtain ⟨hl, hn⟩ := h
    induction hl with
    | one h => exact ⟨_, _, h, [], _, reads_moreSymbols.mpr (.inl ⟨rfl, rfl, hn⟩), rfl, rfl⟩
    | more h hc _ ih =>
      obtain ⟨s', r', hs', ss', r'', hss', rfl, rfl⟩ := ih hn
      exact ⟨_, _, h, s' :: ss', _, reads_moreSymbols.mpr
        (.inr ⟨_, s', r', ss', hc, hs', hss', rfl⟩), rfl, rfl⟩

theorem reads_alphabet {ts rest : List Token} {a : Alphabet} :
    Reads (alphabet ts) a rest ↔ IsAlphabet ts a rest := by
  simp only [alphabet, reads_bind, reads_bind_unit, reads_pure, reads_letter, reads_expect,
    refuse_eq_ok, exists_prop, Prod.exists]
  constructor
  · intro h
    obtain ⟨t, r₁, ⟨rfl, ht⟩, u, r₂, ⟨rfl, hu⟩, v, r₃, ⟨rfl, hv⟩, -, c, r₄, hc, cs, close, r₅, hr,
      rfl, rfl⟩ := h
    obtain ⟨w, hl, hw, rfl⟩ := reads_letters_iff.mp ⟨r₄, hc, hr⟩
    have hs : w :: r₅ <:+ t :: u :: v :: r₃ :=
      (hl.suffix fun h => h.covers.suffix).trans
        ((List.suffix_cons v r₃).trans ((List.suffix_cons u _).trans (List.suffix_cons t _)))
    exact .mk ⟨t, rfl, ht⟩ ⟨u, rfl, hu⟩ ⟨v, rfl, hv⟩ hl ⟨w, rfl, hw⟩ (Covers.of_suffix hs)
  · intro h
    obtain ⟨⟨t, rfl, ht⟩, ⟨u, rfl, hu⟩, ⟨v, rfl, hv⟩, hl, ⟨w, rfl, hw⟩, hc⟩ := h
    have hs := hl.suffix fun h => h.covers.suffix
    have hn : ¬ Starts [closeBrace] _ := hl.not_starts fun h => h.not_starts (by decide)
    obtain ⟨c, cs, rfl⟩ := hl.eq_cons
    obtain ⟨r₄, hc', hr⟩ := reads_letters_iff.mpr ⟨w, hl, hw, rfl⟩
    refine ⟨t, _, ⟨rfl, ht⟩, u, _, ⟨rfl, hu⟩, v, _, ⟨rfl, hv⟩, hn, c, r₄, hc', cs, w.span, rest,
      hr, ?_, rfl⟩
    rw [hc.eq (hs.trans ((List.suffix_cons v _).trans
      ((List.suffix_cons u _).trans (List.suffix_cons t _))))]

/-! ## Commands -/

/-- The reader of an optional part succeeds with `v` and leaves `rest`. -/
def Takes {α : Type} {n : Nat} (x : Except Stop (Optional α n)) (v : Option α)
    (rest : List Token) : Prop :=
  ∃ h, x = .ok ⟨v, rest, h⟩

theorem Takes.le {α : Type} {n : Nat} {x : Except Stop (Optional α n)} {v : Option α}
    {rest : List Token} (h : Takes x v rest) : rest.length + v.toList.length ≤ n := by
  obtain ⟨hl, -⟩ := h
  exact hl

theorem reads_bind_optional {α β : Type} {n m : Nat} {b : β} {rest : List Token}
    {x : Except Stop (Optional α n)} {f : Optional α n → Except Stop (Read Token β m)} :
    Reads (x >>= f) b rest ↔ ∃ v r, ∃ h : Takes x v r, Reads (f ⟨v, r, h.le⟩) b rest := by
  constructor
  · intro h
    cases x with
    | error e => exact absurd h reads_error
    | ok v => exact ⟨v.value, v.rest, ⟨v.le, rfl⟩, h⟩
  · intro h
    obtain ⟨v, r, ⟨hl, rfl⟩, hf⟩ := h
    exact hf

/-- The part is read if a word of its place in a basic block starts it, and is missing
otherwise. -/
def TakesPart {α : Type} (k : Nat) (part : List Token → α → List Token → Prop)
    (ts : List Token) (v : Option (Located α)) (rest : List Token) : Prop :=
  match v with
  | none => ts = rest ∧ ¬ Starts (starters k) ts
  | some a => part ts a.value rest ∧ Covers ts a.span rest

theorem takes_missing {α : Type} {n k : Nat} {part : List Token → α → List Token → Prop}
    (hpart : ∀ {ts a rest}, part ts a rest → Starts (starters k) ts) {ts rest : List Token}
    (hn : ¬ Starts (starters k) ts) {v : Option (Located α)}
    {hl : ts.length + (none : Option (Located α)).toList.length ≤ n} :
    Takes (.ok ⟨none, ts, hl⟩) v rest ↔ TakesPart k part ts v rest := by
  constructor
  · intro h
    obtain ⟨h, he⟩ := h
    cases he
    exact ⟨rfl, hn⟩
  · cases v with
    | none =>
      intro h
      obtain ⟨rfl, -⟩ := h
      exact ⟨hl, rfl⟩
    | some a => exact fun h => absurd (hpart h.1) hn

/-- What an optional command reads, from what its reader does on a word that starts it and on
one that does not. -/
theorem takes_optional {α : Type} {read : (t : Token) → (rest : List Token) →
      Option (Except Stop (Read Token (Located α) (rest.length + 1)))}
    {k : Nat} {part : List Token → α → List Token → Prop}
    (hpart : ∀ {ts a rest}, part ts a rest → Starts (starters k) ts)
    (hnone : ∀ t r, t.text ∉ starters k → read t r = none)
    (hsome : ∀ t r, t.text ∈ starters k → ∃ x, read t r = some x ∧
      ∀ a rest, Reads x a rest ↔ part (t :: r) a.value rest ∧ Covers (t :: r) a.span rest)
    {ts rest : List Token} {v : Option (Located α)} :
    Takes (optional read ts) v rest ↔ TakesPart k part ts v rest := by
  cases ts with
  | nil => exact takes_missing hpart starts_nil
  | cons t ts =>
    simp only [optional]
    by_cases ht : t.text ∈ starters k
    · obtain ⟨x, hx, hread⟩ := hsome t ts ht
      rw [hx]
      constructor
      · intro h
        obtain ⟨h, he⟩ := h
        cases x with
        | error e => cases he
        | ok y =>
          cases he
          exact (hread y.value y.rest).mp ⟨y.lt, rfl⟩
      · cases v with
        | none => exact fun h => absurd (starts_cons.mpr ht) h.2
        | some a =>
          intro h
          obtain ⟨hl, rfl⟩ := (hread a rest).mpr h
          exact ⟨hl, rfl⟩
    · rw [hnone t ts ht]
      exact takes_missing hpart fun hs => ht (starts_cons.mp hs)

theorem takes_write {ts rest : List Token} {w : Option (Located (Located Symbol))} :
    Takes (write ts) w rest ↔ TakesPart 0 IsWrite ts w rest := by
  refine takes_optional IsWrite.starts (fun t r ht => if_neg (by simpa [starters] using ht))
    fun t r ht => ⟨_, if_pos (by simpa [starters] using ht), fun a rest => ?_⟩
  simp only [reads_bind, reads_symbol, reads_pure, exists_prop]
  constructor
  · intro h
    obtain ⟨s, r', hs, rfl, rfl⟩ := h
    exact ⟨⟨r, ⟨t, rfl, by simpa [starters] using ht⟩, hs⟩, (Covers.token t r).trans hs.covers⟩
  · intro h
    obtain ⟨⟨r', hr', hs⟩, hc⟩ := h
    obtain ⟨rfl, -⟩ := terminal_cons.mp hr'
    refine ⟨a.value, rest, hs, ?_, rfl⟩
    rw [((Covers.token t r).trans hs.covers).unique hc]

theorem takes_move {ts rest : List Token} {m : Option (Located Direction)} :
    Takes (move ts) m rest ↔ TakesPart 1 IsMove ts m rest := by
  refine takes_optional IsMove.starts (fun t r ht => if_neg (by simpa [starters] using ht))
    fun t r ht => ⟨_, if_pos (by simpa [starters] using ht), fun a rest => ?_⟩
  simp only [reads_bind, reads_direction, reads_pure, exists_prop]
  constructor
  · intro h
    obtain ⟨d, r', ⟨hd, hc⟩, rfl, rfl⟩ := h
    exact ⟨⟨r, ⟨t, rfl, by simpa [starters] using ht⟩, hd⟩, (Covers.token t r).trans hc⟩
  · intro h
    obtain ⟨⟨r', hr', u, rfl, hu⟩, hc⟩ := h
    obtain ⟨rfl, -⟩ := terminal_cons.mp hr'
    refine ⟨⟨a.value, u.span⟩, rest, ⟨⟨u, rfl, hu⟩, Covers.token u rest⟩, ?_, rfl⟩
    rw [((Covers.token t _).trans (Covers.token u rest)).unique hc]

theorem isFlow_cons {t : Token} {r rest : List Token} {f : Flow} :
    IsFlow (t :: r) f rest ↔
      (t.text = "goto" ∧ ∃ n, IsName r n rest ∧ .goto n = f) ∨
      (t.text = "accept" ∧ .accept = f ∧ r = rest) ∨
      (t.text = "reject" ∧ .reject = f ∧ r = rest) := by
  constructor
  · intro h
    cases h with
    | goto h hn =>
      obtain ⟨rfl, ht⟩ := terminal_cons.mp h
      exact .inl ⟨ht, _, hn, rfl⟩
    | accept h =>
      obtain ⟨rfl, ht⟩ := terminal_cons.mp h
      exact .inr (.inl ⟨ht, rfl, rfl⟩)
    | reject h =>
      obtain ⟨rfl, ht⟩ := terminal_cons.mp h
      exact .inr (.inr ⟨ht, rfl, rfl⟩)
  · intro h
    rcases h with ⟨ht, n, hn, rfl⟩ | ⟨ht, rfl, rfl⟩ | ⟨ht, rfl, rfl⟩
    · exact .goto ⟨t, rfl, ht⟩ hn
    · exact .accept ⟨t, rfl, ht⟩
    · exact .reject ⟨t, rfl, ht⟩

/-- A flow command of one word. -/
theorem reads_flowWord {n : Nat} {t : Token} {r rest : List Token} {f : Flow} {a : Located Flow}
    {hr : r.length < n} (h : IsFlow (t :: r) a.value rest ↔ f = a.value ∧ r = rest) :
    Reads (.ok ⟨⟨f, t.span⟩, r, hr⟩) a rest ↔
      IsFlow (t :: r) a.value rest ∧ Covers (t :: r) a.span rest := by
  rw [reads_ok, h]
  constructor
  · intro h'
    obtain ⟨rfl, rfl⟩ := h'
    exact ⟨⟨rfl, rfl⟩, Covers.token t r⟩
  · intro h'
    obtain ⟨⟨rfl, rfl⟩, hc⟩ := h'
    exact ⟨by rw [(Covers.token t r).unique hc], rfl⟩

theorem takes_flow {ts rest : List Token} {f : Option (Located Flow)} :
    Takes (flow ts) f rest ↔ TakesPart 2 IsFlow ts f rest := by
  refine takes_optional IsFlow.starts (fun t r ht => ?_) fun t r ht => ?_
  · simp only [starters, List.mem_cons, List.not_mem_nil, or_false, not_or] at ht
    rw [if_neg ht.1, if_neg ht.2.1, if_neg ht.2.2]
  · simp only [starters, List.mem_cons, List.not_mem_nil, or_false] at ht
    rcases ht with ht | ht | ht
    · refine ⟨_, if_pos ht, fun a rest => ?_⟩
      simp only [reads_bind, reads_identifier, reads_pure, exists_prop, isFlow_cons, ht, true_and,
        String.reduceEq, false_and, or_false]
      constructor
      · intro h
        obtain ⟨n, r', hn, rfl, rfl⟩ := h
        exact ⟨⟨n, hn, rfl⟩, (Covers.token t r).trans hn.covers⟩
      · obtain ⟨v, span⟩ := a
        intro h
        obtain ⟨⟨n, hn, rfl⟩, hc⟩ := h
        refine ⟨n, rest, hn, ?_, rfl⟩
        rw [((Covers.token t r).trans hn.covers).unique hc]
    · refine ⟨_, by rw [if_neg (by simp [ht]), if_pos ht], fun a rest => reads_flowWord ?_⟩
      simp [isFlow_cons, ht]
    · refine ⟨_, by rw [if_neg (by simp [ht]), if_neg (by simp [ht]), if_pos ht],
        fun a rest => reads_flowWord ?_⟩
      simp [isFlow_cons, ht]

theorem TakesPart.chain {α : Type} {k : Nat} {part : List Token → α → List Token → Prop}
    {ts rest : List Token} {v : Option (Located α)} (h : TakesPart k part ts v rest) :
    Chain ts (v.toList.map (·.span)) rest := by
  cases v with
  | none =>
    obtain ⟨rfl, -⟩ := h
    exact .nil
  | some a => exact .cons h.2 .nil

theorem TakesPart.isOption {α : Type} {k : Nat} {part : List Token → α → List Token → Prop}
    {ts rest : List Token} {v : Option (Located α)} (h : TakesPart k part ts v rest) :
    IsOption part ts (v.map (·.value)) rest := by
  cases v with
  | none =>
    obtain ⟨rfl, -⟩ := h
    exact .missing
  | some a => exact .given h.1

@[simp] theorem reads_noCommand {α : Type} {n : Nat} {problem : String → Problem}
    {ts rest : List Token} {a : α} :
    ¬ Reads (noCommand problem ts : Except Stop (Read Token α n)) a rest := by
  cases ts with
  | nil => exact reads_error
  | cons t ts => exact reads_wrong

theorem spans_eq_nil {α β γ : Type} {w : Option (Located α)} {m : Option (Located β)}
    {f : Option (Located γ)} :
    w.toList.map (·.span) ++ m.toList.map (·.span) ++ f.toList.map (·.span) = [] ↔
      ¬ (w.isSome ∨ m.isSome ∨ f.isSome) := by
  cases w <;> cases m <;> cases f <;> simp

theorem reads_basicBlock_iff {ts rest : List Token} {b : BasicBlock} :
    Reads (basicBlock ts) b rest ↔ ∃ w r m r' f, TakesPart 0 IsWrite ts w r ∧
      TakesPart 1 IsMove r m r' ∧ TakesPart 2 IsFlow r' f rest ∧
      (w.isSome ∨ m.isSome ∨ f.isSome) ∧ b.write = w.map (·.value) ∧ b.move = m.map (·.value) ∧
      b.flow = f.map (·.value) ∧ Covers ts b.span rest := by
  simp only [basicBlock, reads_bind_optional]
  constructor
  · intro h
    obtain ⟨w, r, hw, m, r', hm, f, r'', hf, h⟩ := h
    have hw' := takes_write.mp hw
    have hm' := takes_move.mp hm
    have hf' := takes_flow.mp hf
    have hch := (hw'.chain.append hm'.chain).append hf'.chain
    split at h
    · exact absurd h reads_noCommand
    · next span more hs =>
      rw [hs] at hch
      obtain ⟨rfl, rfl⟩ := reads_pure.mp h
      refine ⟨w, r, m, r', f, hw', hm', hf', ?_, rfl, rfl, rfl, hch.covers⟩
      by_contra hn
      rw [spans_eq_nil.mpr hn] at hs
      cases hs
  · intro h
    obtain ⟨w, r, m, r', f, hw, hm, hf, hsome, h₁, h₂, h₃, hc⟩ := h
    have hch := (hw.chain.append hm.chain).append hf.chain
    refine ⟨w, r, takes_write.mpr hw, m, r', takes_move.mpr hm, f, rest, takes_flow.mpr hf, ?_⟩
    split
    · next hs => exact absurd hsome (spans_eq_nil.mp hs)
    · next span more hs =>
      rw [hs] at hch
      refine reads_pure.mpr ⟨?_, rfl⟩
      rw [← h₁, ← h₂, ← h₃, hch.covers.unique hc]

theorem exists_takesPart {α : Type} {k : Nat} {part : List Token → α → List Token → Prop}
    (hp : ∀ {ts a rest}, part ts a rest → Command k ts rest) {ts rest : List Token}
    {v : Option α} (h : IsOption part ts v rest) (hn : v = none → ¬ Starts (starters k) ts) :
    ∃ w, TakesPart k part ts w rest ∧ v = w.map (·.value) := by
  cases h with
  | missing => exact ⟨none, ⟨rfl, hn rfl⟩, rfl⟩
  | given h =>
    obtain ⟨span, hc⟩ := (hp h).covers
    exact ⟨some ⟨_, span⟩, ⟨h, hc⟩, rfl⟩

theorem TakesPart.not_starts {α : Type} {k : Nat} {part : List Token → α → List Token → Prop}
    {ts rest : List Token} {v : Option (Located α)} (h : TakesPart k part ts v rest)
    (hv : v.map (·.value) = none) : ts = rest ∧ ¬ Starts (starters k) rest := by
  cases v with
  | none =>
    obtain ⟨rfl, hn⟩ := h
    exact ⟨rfl, hn⟩
  | some a => cases hv

/-- The reader of basic blocks takes exactly those that the next token ends. -/
theorem reads_basicBlock {ts rest : List Token} {b : BasicBlock} :
    Reads (basicBlock ts) b rest ↔ IsBasic ts b rest ∧ Ending.greedy.basic ts rest := by
  rw [reads_basicBlock_iff]
  constructor
  · intro h
    obtain ⟨w, r, m, r', f, hw, hm, hf, hsome, h₁, h₂, h₃, hc⟩ := h
    have hb : IsBasic ts b rest :=
      ⟨⟨r, r', h₁ ▸ hw.isOption, h₂ ▸ hm.isOption, h₃ ▸ hf.isOption⟩, by simpa [h₁, h₂, h₃], hc⟩
    refine ⟨hb, stageOf b, hb.run, fun j hj hs => ?_⟩
    match j with
    | 0 => exact absurd (stageOf_pos.mpr hb.some) (by omega)
    | 1 =>
      obtain ⟨hf₀, hm₀⟩ := stageOf_le_one.mp hj
      obtain ⟨rfl, -⟩ := hf.not_starts (h₃ ▸ hf₀)
      exact (hm.not_starts (h₂ ▸ hm₀)).2 hs
    | 2 => exact (hf.not_starts (h₃ ▸ stageOf_le_two.mp hj)).2 hs
    | _ + 3 => simp [Starts, starters] at hs
  · intro h
    obtain ⟨hb, hg⟩ := h
    obtain ⟨r, r', hw, hm, hf⟩ := hb.commands
    have hstops := hb.stops hg
    have hf₀ : b.flow = none → ¬ Starts (starters 2) r' := by
      intro h
      rcases hf.eq_or_starts Command.flow with ⟨-, rfl⟩ | ⟨hf', -⟩
      · exact hstops 2 (stageOf_le_two.mpr h)
      · rw [h] at hf'; cases hf'
    have hm₀ : b.move = none → ¬ Starts (starters 1) r := by
      intro h hs
      rcases hm.eq_or_starts Command.move with ⟨-, rfl⟩ | ⟨hm', -⟩
      · rcases hf.eq_or_starts Command.flow with ⟨hf', rfl⟩ | ⟨-, hf'⟩
        · exact hstops 1 (stageOf_le_one.mpr ⟨hf', h⟩) hs
        · cases hs.inj hf'
      · rw [h] at hm'; cases hm'
    have hw₀ : b.write = none → ¬ Starts (starters 0) ts := by
      intro h hs
      rcases hw.eq_or_starts Command.write with ⟨-, rfl⟩ | ⟨hw', -⟩
      · rcases hm.eq_or_starts Command.move with ⟨hm', rfl⟩ | ⟨-, hm'⟩
        · rcases hf.eq_or_starts Command.flow with ⟨hf', rfl⟩ | ⟨-, hf'⟩
          · have hsome := hb.some
            simp [h, hm', hf'] at hsome
          · cases hs.inj hf'
        · cases hs.inj hm'
      · rw [h] at hw'; cases hw'
    obtain ⟨w', hw', h₁⟩ := exists_takesPart Command.write hw hw₀
    obtain ⟨m', hm', h₂⟩ := exists_takesPart Command.move hm hm₀
    obtain ⟨f', hf', h₃⟩ := exists_takesPart Command.flow hf hf₀
    exact ⟨w', r, m', r', f', hw', hm', hf', by simpa [h₁, h₂, h₃] using hb.some, h₁, h₂, h₃,
      hb.covers⟩

theorem reads_coreBlock_iff {ts rest : List Token} {b : CoreBlock} :
    Reads (coreBlock ts) b rest ↔ ∃ w r m, TakesPart 0 IsWrite ts w r ∧
      TakesPart 1 IsMove r m rest ∧ (w.isSome ∨ m.isSome) ∧ b.write = w.map (·.value) ∧
      b.move = m.map (·.value) ∧ Covers ts b.span rest := by
  have hnil {w : Option (Located (Located Symbol))} {m : Option (Located Direction)} :
      w.toList.map (·.span) ++ m.toList.map (·.span) = [] ↔ ¬ (w.isSome ∨ m.isSome) := by
    cases w <;> cases m <;> simp
  simp only [coreBlock, reads_bind_optional]
  constructor
  · intro h
    obtain ⟨w, r, hw, m, r', hm, h⟩ := h
    have hw' := takes_write.mp hw
    have hm' := takes_move.mp hm
    have hch := hw'.chain.append hm'.chain
    split at h
    · exact absurd h reads_noCommand
    · next span more hs =>
      rw [hs] at hch
      obtain ⟨rfl, rfl⟩ := reads_pure.mp h
      refine ⟨w, r, m, hw', hm', ?_, rfl, rfl, hch.covers⟩
      by_contra hn
      rw [hnil.mpr hn] at hs
      cases hs
  · intro h
    obtain ⟨w, r, m, hw, hm, hsome, h₁, h₂, hc⟩ := h
    have hch := hw.chain.append hm.chain
    refine ⟨w, r, takes_write.mpr hw, m, rest, takes_move.mpr hm, ?_⟩
    split
    · next hs => exact absurd hsome (hnil.mp hs)
    · next span more hs =>
      rw [hs] at hch
      refine reads_pure.mpr ⟨?_, rfl⟩
      rw [← h₁, ← h₂, hch.covers.unique hc]

theorem isCore_of_reads {ts rest : List Token} {b : CoreBlock}
    (h : Reads (coreBlock ts) b rest) : IsCore ts b rest := by
  obtain ⟨w, r, m, hw, hm, hsome, h₁, h₂, hc⟩ := reads_coreBlock_iff.mp h
  exact ⟨⟨r, h₁ ▸ hw.isOption, h₂ ▸ hm.isOption⟩, by simpa [h₁, h₂], hc⟩

theorem reads_coreBlock {ts rest : List Token} {b : CoreBlock} (h : IsCore ts b rest)
    (hn : ¬ Starts (starters 1) rest) : Reads (coreBlock ts) b rest := by
  obtain ⟨r, hw, hm⟩ := h.commands
  have hm₀ : b.move = none → ¬ Starts (starters 1) r := by
    intro h₀
    rcases hm.eq_or_starts Command.move with ⟨-, rfl⟩ | ⟨hm', -⟩
    · exact hn
    · rw [h₀] at hm'; cases hm'
  have hw₀ : b.write = none → ¬ Starts (starters 0) ts := by
    intro h₀ hs
    rcases hw.eq_or_starts Command.write with ⟨-, rfl⟩ | ⟨hw', -⟩
    · rcases hm.eq_or_starts Command.move with ⟨hm', -⟩ | ⟨-, hm'⟩
      · have hsome := h.some
        simp [h₀, hm'] at hsome
      · cases hs.inj hm'
    · rw [h₀] at hw'; cases hw'
  obtain ⟨w', hw', h₁⟩ := exists_takesPart Command.write hw hw₀
  obtain ⟨m', hm', h₂⟩ := exists_takesPart Command.move hm hm₀
  exact reads_coreBlock_iff.mpr ⟨w', r, m', hw', hm', by simpa [h₁, h₂] using h.some, h₁, h₂,
    h.covers⟩

/-! ## Cases -/

theorem reads_loopAt {e : Ending} {t : Token} {ts rest : List Token} {c : Case}
    (ht : t.text = "while") : Reads (loopAt t ts) c rest ↔ IsCase e (t :: ts) c rest := by
  simp only [loopAt, reads_bind, reads_bind_unit, reads_ite, reads_pure, reads_expect,
    reads_symbols, reads_next, reads_wrong, refuse_eq_ok, exists_prop]
  constructor
  · intro h
    obtain ⟨-, ss, r₁, ⟨hs, -⟩, u, r₂, ⟨rfl, hu⟩, -, body, r₃, hb, v, r₄, rfl, ⟨hv, rfl,
      rfl⟩ | ⟨-, h⟩⟩ := h
    · have hcore := isCore_of_reads hb
      have hsuf : v :: r₄ <:+ t :: ts :=
        (hcore.covers.suffix.trans (List.suffix_cons u r₂)).trans
          ((hs.suffix fun h => h.covers.suffix).trans (List.suffix_cons t ts))
      exact .loop ⟨t, rfl, ht⟩ hs ⟨u, rfl, hu⟩ hcore ⟨v, rfl, hv⟩ (Covers.of_suffix hsuf)
    · exact h.elim
  · intro h
    cases h with
    | branch h₁ =>
      obtain ⟨-, h₁⟩ := terminal_cons.mp h₁
      rw [ht] at h₁
      exact absurd h₁ (by decide)
    | loop h₁ hs h₂ hb h₃ hc =>
      obtain ⟨rfl, -⟩ := terminal_cons.mp h₁
      obtain ⟨u, rfl, hu⟩ := h₂
      obtain ⟨v, rfl, hv⟩ := h₃
      have hn : ¬ Starts (starters 1) (v :: rest) := by
        rw [starts_cons, hv]
        decide
      have hsuf := (hb.covers.suffix.trans (List.suffix_cons u _)).trans
        ((hs.suffix fun h => h.covers.suffix).trans (List.suffix_cons t _))
      refine ⟨hs.not_starts fun h => h.not_starts (by decide), _, _, ⟨hs, ?_⟩, u, _, ⟨rfl, hu⟩,
        hb.starts.disjoint (by decide), _, _, reads_coreBlock hb hn, v, rest, rfl,
        .inl ⟨hv, ?_, rfl⟩⟩
      · rw [starts_cons, hu]
        decide
      · rw [hc.eq hsuf]

theorem reads_blocks {ts rest : List Token} {bs : List Block} {close : Span} :
    Reads (blocks ts) (bs, close) rest ↔
      (∃ t, ts = t :: rest ∧ t.text = closeBrace ∧ bs = [] ∧ close = t.span) ∨
      ∃ t r b r' bs', ts = t :: r ∧ t.text ≠ closeBrace ∧ Reads (blockAt t r) b r' ∧
        Reads (blocks r') (bs', close) rest ∧ bs = b :: bs' := by
  cases ts with
  | nil =>
    rw [blocks]
    simp
  | cons t ts =>
    rw [blocks]
    simp only [reads_ite, reads_bind, reads_ok, reads_pure, exists_prop, Prod.exists,
      Prod.mk.injEq, List.cons.injEq]
    grind

theorem reads_blockAt {t : Token} {ts rest : List Token} {b : Block} :
    Reads (blockAt t ts) b rest ↔
      (t.text = "switch" ∧ ∃ r r' cs close, Terminal "tapehead" ts r ∧ Terminal openBrace r r' ∧
        ¬ Starts [closeBrace] r' ∧ Reads (switchCases r') (cs, close) rest ∧
        b = .switch cs (t.span.upTo close)) ∨
      (startsCase t ∧ ∃ c r cs, Reads (caseAt t ts) c r ∧ Reads (caseRun r) cs rest ∧
        b = .switch (c :: cs) (c.span.upTo ((cs.map Case.span).getLastD c.span))) ∨
      (t.text ≠ "switch" ∧ ¬ startsCase t ∧ ∃ b', Reads (basicBlock (t :: ts)) b' rest ∧
        b = .basic b') := by
  have hcase : startsCase t = true → t.text ≠ "switch" := by
    intro h hs
    rw [startsCase, hs] at h
    exact absurd h (by decide)
  rw [blockAt]
  simp only [reads_ite, reads_bind, reads_bind_unit, reads_pure, reads_expect, refuse_eq_ok,
    exists_prop, Prod.exists, Terminal]
  grind

theorem reads_caseAt {t : Token} {ts rest : List Token} {c : Case} :
    Reads (caseAt t ts) c rest ↔
      (t.text = "while" ∧ Reads (loopAt t ts) c rest) ∨
      (t.text ≠ "while" ∧ ∃ ss r r' first r'' bs close, ¬ Starts [openBrace] ts ∧
        Reads (symbols ts) ss r ∧ Terminal openBrace r r' ∧ ¬ Starts [closeBrace] r' ∧
        Reads (basicBlock r') first r'' ∧ Reads (blocks r'') (bs, close) rest ∧
        c = .branch ss first bs (t.span.upTo close)) := by
  rw [caseAt]
  simp only [reads_ite, reads_bind, reads_bind_unit, reads_pure, reads_expect, refuse_eq_ok,
    exists_prop, Prod.exists, Terminal]
  grind

theorem reads_switchCases {ts rest : List Token} {cs : List Case} {close : Span} :
    Reads (switchCases ts) (cs, close) rest ↔
      (∃ t, ts = t :: rest ∧ t.text = closeBrace ∧ cs = [] ∧ close = t.span) ∨
      ∃ t r c r' cs', ts = t :: r ∧ t.text ≠ closeBrace ∧ startsCase t ∧ Reads (caseAt t r) c r' ∧
        Reads (switchCases r') (cs', close) rest ∧ cs = c :: cs' := by
  cases ts with
  | nil =>
    rw [switchCases]
    simp
  | cons t ts =>
    rw [switchCases]
    simp only [reads_ite, reads_bind, reads_ok, reads_pure, reads_wrong, exists_prop, Prod.exists,
      Prod.mk.injEq, List.cons.injEq]
    grind

theorem reads_caseRun {ts rest : List Token} {cs : List Case} :
    Reads (caseRun ts) cs rest ↔
      (ts = rest ∧ cs = [] ∧ ¬ Starts caseStarters ts) ∨
      ∃ t r c r' cs', ts = t :: r ∧ startsCase t ∧ Reads (caseAt t r) c r' ∧
        Reads (caseRun r') cs' rest ∧ cs = c :: cs' := by
  cases ts with
  | nil =>
    rw [caseRun, reads_ok]
    have hn : ¬ Starts caseStarters [] := starts_nil
    grind
  | cons t ts =>
    have hstart : startsCase t = true ↔ Starts caseStarters (t :: ts) := by
      simp [startsCase, caseStarters]
    rw [caseRun, ← hstart]
    simp only [reads_ite, reads_bind, reads_ok, reads_pure, exists_prop, List.cons.injEq]
    grind

end Parser
end TapeLang
