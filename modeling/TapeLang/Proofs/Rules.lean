import Mathlib.Logic.Relation
import TapeLang.Proofs.Derivation

/-!
Parts of programs without their values.

A `Rule` says from which tokens to which tokens a part of a program may go, whatever comes after
it.  Every rule has a sentence, so a part that is still missing can always be supplied: tokens
that are the beginning of one part, or a whole part and the beginning of the next one, can be
completed to both (`Viable.seq_left`, `Viable.seq_right`).

A part of the grammar is a rule by one of its forms, which provides the sentence
(`Rule.ofShape`); the other forms are shown to imply the rule.  The grammar is the plain one, so
the place where a part ends does not have to be shown by the next token.
-/

namespace TapeLang
namespace Grammar

/-- A part of a program: from where to where it may go, whatever comes after it. -/
structure Rule where
  Holds : List Token → List Token → Prop
  suffix : ∀ {ts r}, Holds ts r → r <:+ ts
  followed : ∀ {ts r}, Holds ts r → ∀ k, Holds (ts ++ k) (r ++ k)
  sentence : ∃ ts, Holds ts []

namespace Rule

def word (w : String) : Rule where
  Holds := Terminal w
  suffix h := h.suffix
  followed := by
    rintro _ r ⟨t, rfl, ht⟩ k
    exact ⟨t, rfl, ht⟩
  sentence := ⟨[⟨w, .emptyText⟩], _, rfl, rfl⟩

def done : Rule where
  Holds := Eq
  suffix := by
    rintro ts _ rfl
    exact List.suffix_rfl
  followed := by
    rintro ts _ rfl k
    rfl
  sentence := ⟨[], rfl⟩

def seq (R S : Rule) : Rule where
  Holds := Relation.Comp R.Holds S.Holds
  suffix := by
    rintro ts r ⟨m, hR, hS⟩
    exact (S.suffix hS).trans (R.suffix hR)
  followed := by
    rintro ts r ⟨m, hR, hS⟩ k
    exact ⟨m ++ k, R.followed hR k, S.followed hS k⟩
  sentence := by
    obtain ⟨ts, hR⟩ := R.sentence
    obtain ⟨k, hS⟩ := S.sentence
    exact ⟨ts ++ k, k, R.followed hR k, hS⟩

def all : List Rule → Rule
  | [] => done
  | R :: Rs => R.seq (all Rs)

def opt (R : Rule) : Rule where
  Holds := Relation.ReflGen R.Holds
  suffix h := by
    cases h with
    | refl => exact List.suffix_rfl
    | single h => exact R.suffix h
  followed h k := by
    cases h with
    | refl => exact .refl
    | single h => exact .single (R.followed h k)
  sentence := ⟨[], .refl⟩

def many (R : Rule) : Rule where
  Holds := Relation.ReflTransGen R.Holds
  suffix h := by
    induction h with
    | refl => exact List.suffix_rfl
    | tail _ h ih => exact (R.suffix h).trans ih
  followed h k := h.lift (· ++ k) fun _ _ h => R.followed h k
  sentence := ⟨[], .refl⟩

/-- The tokens up to `r` are a part of the grammar, whatever comes after them. -/
def Fits {α : Type} (P : List Token → α → List Token → Prop) (ts r : List Token) : Prop :=
  r <:+ ts ∧ ∀ k, ∃ a, P (ts ++ k) a (r ++ k)

theorem Fits.exists {α : Type} {P : List Token → α → List Token → Prop} {ts r : List Token}
    (h : Fits P ts r) : ∃ a, P ts a r := by
  simpa using h.2 []

/-- The rule of a part of the grammar, one form of which is `shape`. -/
def ofShape {α : Type} (P : List Token → α → List Token → Prop) (shape : Rule)
    (h : ∀ ts r, shape.Holds ts r → ∃ a, P ts a r) : Rule where
  Holds := Fits P
  suffix h := h.1
  followed := by
    rintro ts r ⟨⟨m, rfl⟩, hP⟩ k
    refine ⟨⟨m, (List.append_assoc ..).symm⟩, fun k' => ?_⟩
    simpa using hP (k ++ k')
  sentence := by
    obtain ⟨ts, hs⟩ := shape.sentence
    exact ⟨ts, shape.suffix hs, fun k => h _ _ (shape.followed hs k)⟩

variable {R S : Rule} {Rs : List Rule} {ts r : List Token}

def Implies (R S : Rule) : Prop := ∀ ⦃ts r⦄, R.Holds ts r → S.Holds ts r

theorem opt_implies : R.Implies (opt R) := fun _ _ h => .single h

theorem many_implies : (R.seq (many R)).Implies (many R) := by
  rintro ts r ⟨m, hR, hmany⟩
  exact .head hR hmany

theorem seq_many_implies : (R.seq ((many R).seq S)).Implies ((many R).seq S) := by
  rintro ts r ⟨m, hR, m', hmany, hS⟩
  exact ⟨m', .head hR hmany, hS⟩

section OfShape

variable {α : Type} {P : List Token → α → List Token → Prop}
  {hR : ∀ ts r, R.Holds ts r → ∃ a, P ts a r}

theorem implies_ofShape (hS : ∀ ts r, S.Holds ts r → ∃ a, P ts a r) :
    S.Implies (ofShape P R hR) :=
  fun _ _ h => ⟨S.suffix h, fun k => hS _ _ (S.followed h k)⟩

theorem shape_implies : R.Implies (ofShape P R hR) := implies_ofShape hR

/-- Where a rule holds only of parts of one kind or of nothing, it holds so whatever follows. -/
theorem eq_or_fits (h : ∀ ts r, R.Holds ts r → ts = r ∨ ∃ a, P ts a r) (hR : R.Holds ts r) :
    ts = r ∨ Fits P ts r := by
  refine or_iff_not_imp_left.mpr fun hne => ⟨R.suffix hR, fun k => ?_⟩
  exact (h _ _ (R.followed hR k)).resolve_left fun he => hne (List.append_cancel_right he)

end OfShape

/-- The tokens can be completed to an instance of the rule. -/
def Viable (R : Rule) (ts : List Token) : Prop := ∃ k, R.Holds (ts ++ k) []

theorem viable_nil (R : Rule) : R.Viable [] := R.sentence

theorem Viable.mono (h : R.Viable ts) (hRS : R.Implies S) : S.Viable ts := by
  obtain ⟨k, h⟩ := h
  exact ⟨k, hRS h⟩

theorem Viable.seq_left (h : R.Viable ts) : (R.seq S).Viable ts := by
  obtain ⟨k, hR⟩ := h
  obtain ⟨k', hS⟩ := S.sentence
  refine ⟨k ++ k', k', ?_, hS⟩
  rw [← List.append_assoc]
  exact R.followed hR k'

theorem Viable.seq_right (h : S.Viable r) (hR : R.Holds ts r) : (R.seq S).Viable ts := by
  obtain ⟨k, hS⟩ := h
  exact ⟨k, r ++ k, R.followed hR k, hS⟩

theorem exists_covers (h : R.Holds ts r) (hne : ts ≠ r) : ∃ span, Covers ts span r := by
  have hs := R.suffix h
  refine Grammar.exists_covers hs (Nat.lt_of_le_of_ne hs.length_le fun hl => hne ?_)
  exact (hs.eq_of_length hl).symm

theorem ne_of_word {w : String} (h : (all (word w :: Rs)).Holds ts r) : ts ≠ r := by
  obtain ⟨m, hw, hm⟩ := h
  have hl := Terminal.length hw
  have hle := ((all Rs).suffix hm).length_le
  rintro rfl
  omega

section Lists

variable {α : Type} {P : List Token → α → List Token → Prop} {m : List Token}

theorem exists_isOption (h : Relation.ReflGen (Fits P) ts r) :
    ∃ v, IsOption P ts v r ∧ (v.isSome ∨ ts = r) := by
  cases h with
  | refl => exact ⟨none, .missing, .inr rfl⟩
  | single h =>
    obtain ⟨a, ha⟩ := h.exists
    exact ⟨some a, .given ha, .inl rfl⟩

theorem exists_isList (h : Fits P ts m)
    (hmore : Relation.ReflTransGen (Relation.Comp (Terminal ",") (Fits P)) m r) :
    ∃ as, IsList P ts as r := by
  induction hmore using Relation.ReflTransGen.head_induction_on generalizing ts with
  | refl =>
    obtain ⟨a, ha⟩ := h.exists
    exact ⟨_, .one ha⟩
  | head hstep _ ih =>
    obtain ⟨a, ha⟩ := h.exists
    obtain ⟨m', hcomma, hnext⟩ := hstep
    obtain ⟨as, has⟩ := ih hnext
    exact ⟨_, .more ha hcomma has⟩

/-- One part or more of a kind that has a rule for the last one and a rule for the others. -/
theorem exists_run {Q : List Token → List α → List Token → Prop}
    (one : ∀ {ts a r}, P ts a r → Q ts [a] r)
    (more : ∀ {ts a m as r}, P ts a m → Q m as r → Q ts (a :: as) r) (h : Fits P ts m)
    (hmore : Relation.ReflTransGen (Fits P) m r) : ∃ as, Q ts as r := by
  induction hmore using Relation.ReflTransGen.head_induction_on generalizing ts with
  | refl =>
    obtain ⟨a, ha⟩ := h.exists
    exact ⟨_, one ha⟩
  | head hnext _ ih =>
    obtain ⟨a, ha⟩ := h.exists
    obtain ⟨as, has⟩ := ih hnext
    exact ⟨_, more ha has⟩

theorem exists_isBlocks (h : Relation.ReflTransGen (Fits (IsBlock .any)) ts r) :
    ∃ bs, IsBlocks .any ts bs r := by
  induction h using Relation.ReflTransGen.head_induction_on with
  | refl => exact ⟨_, .nil⟩
  | head hb _ ih =>
    obtain ⟨b, hb⟩ := hb.exists
    obtain ⟨bs, hbs⟩ := ih
    exact ⟨_, .cons hb hbs⟩

end Lists

theorem isLetter_of_word (ts r : List Token) (h : (word "a").Holds ts r) :
    ∃ c, IsLetter ts c r := by
  obtain ⟨t, rfl, ht⟩ := h
  exact ⟨⟨'a', t.span⟩, ⟨t, rfl, ht⟩, rfl, Covers.token t _⟩

def letter : Rule := ofShape IsLetter (word "a") isLetter_of_word

theorem isSymbol_of_letter (ts r : List Token) (h : letter.Holds ts r) :
    ∃ s, IsSymbol ts s r := by
  obtain ⟨c, hc⟩ := Fits.exists (P := IsLetter) h
  exact ⟨_, .letter hc⟩

def symbol : Rule := ofShape IsSymbol letter isSymbol_of_letter

theorem isName_of_word (ts r : List Token) (h : (word "a").Holds ts r) : ∃ n, IsName ts n r := by
  obtain ⟨t, rfl, ht⟩ := h
  have ha : Identifier "a" := ⟨by decide, 'a', [], rfl, rfl, by simp⟩
  exact ⟨⟨"a", t.span⟩, ⟨t, rfl, ht⟩, ha, Covers.token t _⟩

def name : Rule := ofShape IsName (word "a") isName_of_word

def IsDirection (ts : List Token) (d : Direction) (rest : List Token) : Prop :=
  Terminal d.text ts rest

def direction : Rule := ofShape IsDirection (word "left") fun _ _ h => ⟨.left, h⟩

def moreLetters : Rule := many ((word ",").seq letter)

def moreSymbols : Rule := many ((word ",").seq symbol)

theorem isList_of_symbols (ts r : List Token) (h : (symbol.seq moreSymbols).Holds ts r) :
    ∃ ss, IsList IsSymbol ts ss r := by
  obtain ⟨m, hs, hmore⟩ := h
  exact exists_isList hs hmore

def symbols : Rule := ofShape (IsList IsSymbol) (symbol.seq moreSymbols) isList_of_symbols

def alphabetShape : Rule :=
  all [word "alphabet", word "=", word "\x7b", letter, moreLetters, word "\x7d"]

theorem isAlphabet_of_shape (ts r : List Token) (h : alphabetShape.Holds ts r) :
    ∃ a, IsAlphabet ts a r := by
  obtain ⟨span, hc⟩ := exists_covers h (ne_of_word h)
  obtain ⟨r₁, h₁, r₂, h₂, r₃, h₃, r₄, hl, r₅, hmore, _, h₄, rfl⟩ := h
  obtain ⟨letters, hl⟩ := exists_isList hl hmore
  exact ⟨_, .mk h₁ h₂ h₃ hl h₄ hc⟩

def alphabet : Rule := ofShape IsAlphabet alphabetShape isAlphabet_of_shape

/-! ## Commands -/

theorem isWrite_of_symbol (ts r : List Token) (h : ((word "changeto").seq symbol).Holds ts r) :
    ∃ s, IsWrite ts s r := by
  obtain ⟨m, hw, hs⟩ := h
  obtain ⟨s, hs⟩ := Fits.exists (P := IsSymbol) hs
  exact ⟨s, m, hw, hs⟩

def write : Rule := ofShape IsWrite ((word "changeto").seq symbol) isWrite_of_symbol

theorem isMove_of_direction (ts r : List Token) (h : ((word "move").seq direction).Holds ts r) :
    ∃ d, IsMove ts d r := by
  obtain ⟨m, hw, hd⟩ := h
  obtain ⟨d, hd⟩ := Fits.exists (P := IsDirection) hd
  exact ⟨d, m, hw, hd⟩

def move : Rule := ofShape IsMove ((word "move").seq direction) isMove_of_direction

def flow : Rule := ofShape IsFlow (word "accept") fun _ _ h => ⟨.accept, .accept h⟩

theorem reject_implies : (word "reject").Implies flow :=
  implies_ofShape fun _ _ h => ⟨.reject, .reject h⟩

theorem goto_implies : ((word "goto").seq name).Implies flow := by
  refine implies_ofShape fun ts r h => ?_
  obtain ⟨m, hw, hn⟩ := h
  obtain ⟨n, hn⟩ := Fits.exists (P := IsName) hn
  exact ⟨_, .goto hw hn⟩

def commands : Rule := all [opt write, opt move, opt flow]

theorem eq_or_isBasic (ts r : List Token) (h : commands.Holds ts r) :
    ts = r ∨ ∃ b, IsBasic ts b r := by
  refine or_iff_not_imp_left.mpr fun hne => ?_
  obtain ⟨span, hc⟩ := exists_covers h hne
  obtain ⟨m₁, hw, m₂, hm, _, hf, rfl⟩ := h
  obtain ⟨w, hw, hw'⟩ := exists_isOption hw
  obtain ⟨m, hm, hm'⟩ := exists_isOption hm
  obtain ⟨f, hf, hf'⟩ := exists_isOption hf
  refine ⟨⟨w, m, f, span⟩, ⟨m₁, m₂, hw, hm, hf⟩, ?_, hc⟩
  grind

theorem isBasic_of_accept (ts r : List Token) (h : (all [word "accept"]).Holds ts r) :
    ∃ b, IsBasic ts b r := by
  have hne := ne_of_word h
  obtain ⟨_, hw, rfl⟩ := h
  have hflow : (opt flow).Holds ts _ := .single (shape_implies hw)
  exact (eq_or_isBasic _ _ ⟨ts, .refl, ts, .refl, _, hflow, rfl⟩).resolve_left hne

def basic : Rule := ofShape IsBasic (all [word "accept"]) isBasic_of_accept

def coreCommands : Rule := all [opt write, opt move]

theorem eq_or_isCore (ts r : List Token) (h : coreCommands.Holds ts r) :
    ts = r ∨ ∃ b, IsCore ts b r := by
  refine or_iff_not_imp_left.mpr fun hne => ?_
  obtain ⟨span, hc⟩ := exists_covers h hne
  obtain ⟨m₁, hw, _, hm, rfl⟩ := h
  obtain ⟨w, hw, hw'⟩ := exists_isOption hw
  obtain ⟨m, hm, hm'⟩ := exists_isOption hm
  refine ⟨⟨w, m, span⟩, ⟨m₁, hw, hm⟩, ?_, hc⟩
  grind

theorem isCore_of_move (ts r : List Token) (h : (all [word "move", word "left"]).Holds ts r) :
    ∃ b, IsCore ts b r := by
  have hne := ne_of_word h
  obtain ⟨m, hw, _, hd, rfl⟩ := h
  have hmove : (opt move).Holds ts _ := .single (shape_implies ⟨m, hw, shape_implies hd⟩)
  exact (eq_or_isCore _ _ ⟨ts, .refl, _, hmove, rfl⟩).resolve_left hne

def core : Rule := ofShape IsCore (all [word "move", word "left"]) isCore_of_move

/-! ## Blocks and cases -/

theorem isBlock_of_basic (ts r : List Token) (h : basic.Holds ts r) :
    ∃ b, IsBlock .any ts b r := by
  obtain ⟨b, hb⟩ := Fits.exists (P := IsBasic) h
  exact ⟨_, .basic hb trivial⟩

def block : Rule := ofShape (IsBlock .any) basic isBlock_of_basic

def branchShape : Rule := all [word "if", symbols, word "\x7b", basic, many block, word "\x7d"]

theorem isCase_of_branch (ts r : List Token) (h : branchShape.Holds ts r) :
    ∃ c, IsCase .any ts c r := by
  obtain ⟨span, hc⟩ := exists_covers h (ne_of_word h)
  obtain ⟨r₁, h₁, r₂, hs, r₃, h₂, r₄, hf, r₅, hb, _, h₃, rfl⟩ := h
  obtain ⟨ss, hs⟩ := Fits.exists (P := IsList IsSymbol) hs
  obtain ⟨first, hf⟩ := Fits.exists (P := IsBasic) hf
  obtain ⟨bs, hb⟩ := exists_isBlocks hb
  exact ⟨_, .branch h₁ hs h₂ hf trivial hb h₃ hc⟩

def case : Rule := ofShape (IsCase .any) branchShape isCase_of_branch

theorem loop_implies :
    (all [word "while", symbols, word "\x7b", core, word "\x7d"]).Implies case := by
  refine implies_ofShape fun ts r h => ?_
  obtain ⟨span, hc⟩ := exists_covers h (ne_of_word h)
  obtain ⟨r₁, h₁, r₂, hs, r₃, h₂, r₄, hb, _, h₃, rfl⟩ := h
  obtain ⟨ss, hs⟩ := Fits.exists (P := IsList IsSymbol) hs
  obtain ⟨body, hb⟩ := Fits.exists (P := IsCore) hb
  exact ⟨_, .loop h₁ hs h₂ hb h₃ hc⟩

theorem switch_implies :
    (all [word "switch", word "tapehead", word "\x7b", case, many case,
      word "\x7d"]).Implies block := by
  refine implies_ofShape fun ts r h => ?_
  obtain ⟨span, hc⟩ := exists_covers h (ne_of_word h)
  obtain ⟨r₁, h₁, r₂, h₂, r₃, h₃, r₄, hcase, r₅, hmore, _, h₄, rfl⟩ := h
  obtain ⟨cs, hcs⟩ := exists_run (Q := IsCases .any) .one .more hcase hmore
  exact ⟨_, .switch h₁ h₂ h₃ hcs h₄ hc⟩

theorem run_implies : (case.seq (many case)).Implies block := by
  refine implies_ofShape fun ts r h => ?_
  obtain ⟨m, hcase, hmore⟩ := h
  obtain ⟨cs, hcs⟩ := exists_run (Q := IsCases .any) .one .more hcase hmore
  obtain ⟨c, cs, rfl⟩ := hcs.eq_cons
  exact ⟨_, .run hcs trivial hcs.chain.covers⟩

def moduleShape : Rule :=
  all [word "module", name, word "\x7b", block, many block, word "\x7d"]

theorem isModule_of_shape (ts r : List Token) (h : moduleShape.Holds ts r) :
    ∃ m, IsModule .any ts m r := by
  obtain ⟨span, hc⟩ := exists_covers h (ne_of_word h)
  obtain ⟨r₁, h₁, r₂, hn, r₃, h₂, r₄, hb, r₅, hbs, _, h₃, rfl⟩ := h
  obtain ⟨n, hn⟩ := Fits.exists (P := IsName) hn
  obtain ⟨b, hb⟩ := Fits.exists (P := IsBlock .any) hb
  obtain ⟨bs, hbs⟩ := exists_isBlocks hbs
  exact ⟨_, .mk h₁ hn h₂ (.cons hb hbs) (List.cons_ne_nil b bs) h₃ hc⟩

def module : Rule := ofShape (IsModule .any) moduleShape isModule_of_shape

def program : Rule := all [alphabet, module, many module]

theorem exists_isProgram (h : program.Holds ts []) : ∃ p, IsProgram .any ts p := by
  obtain ⟨r, ha, m, hm, _, hms, rfl⟩ := h
  obtain ⟨a, ha⟩ := Fits.exists (P := IsAlphabet) ha
  obtain ⟨ms, hms⟩ := exists_run (Q := IsModules .any) .one .more hm hms
  exact ⟨⟨a, ms⟩, r, ha, hms⟩

/-- Modules that were started are one at least. -/
theorem Viable.modules {t : Token} (h : (many module).Viable (t :: ts)) :
    (all [module, many module]).Viable (t :: ts) := by
  obtain ⟨k, hk⟩ := h
  rcases hk.cases_head with he | ⟨m, hm, hms⟩
  · cases he
  · exact ⟨k, m, hm, [], hms, rfl⟩

end Rule
end Grammar
end TapeLang
