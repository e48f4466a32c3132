import TapeLang.Proofs.Agreement
import TapeLang.Proofs.WellFormed

/-!
Two readings side by side.

A `Likeness` says which regions count as the same and whether the second list of tokens may go on
where the first one ends.  On lists of tokens that are alike every reader does the same on both
sides (`Likeness.Same`): it succeeds with values that differ in regions only, it runs out of
tokens, or it refuses a token for one and the same reason.  The one exception is a reader that
has come to the end of the first list (`Over`): what it would do with further tokens is open.

A reader either stops at the last token of its part (`Likeness.Reads`) or looks at the token
after it (`Likeness.Peeks`), and then the end of the list leaves open whether the part goes on.
-/

namespace TapeLang

/-- A token stands where it must not: the problems that no further token can cure. -/
def Problem.isMisplaced : Problem → Bool
  | .expected .. | .letterLength _ | .letterClass _ | .badIdentifier _ | .badDirection _
  | .badCommand _ | .badCoreCommand _ | .badCase _ | .noLetters | .emptyModule | .emptySwitch
  | .ifWithoutSymbols | .ifWithoutCommands | .whileWithoutSymbols | .whileWithoutCommands
  | .whileTooLong => true
  | _ => false

namespace Parser

/-- Which regions count as the same, and whether the second list may be the longer one. -/
structure Likeness where
  span : Span → Span → Prop
  upTo : ∀ {a a' b b'}, span a a' → span b b' → span (a.upTo b) (a'.upTo b')
  more : Prop

/-- The result is the end of the tokens, or a value that `E` says is not final before the end of
the tokens. -/
def Over {α : Type} (E : α → Prop) : Except Stop α → Prop
  | .ok a => E a
  | .error .atEnd => True
  | .error (.wrong _) => False

theorem Over.bind {α β : Type} {E : α → Prop} {F : β → Prop} {x : Except Stop α}
    {f : α → Except Stop β} (h : Over E x) (hf : ∀ a, E a → Over F (f a)) : Over F (x >>= f) := by
  match x, h with
  | .ok a, h => exact hf a h
  | .error .atEnd, _ => trivial

theorem over_bind_atEnd {α β : Type} {F : β → Prop} {x : Except Stop α} {f : α → Except Stop β}
    (h : x = .error .atEnd) : Over F (x >>= f) := by
  subst h
  trivial

namespace Likeness

/-- The same words at regions that count as the same. -/
inductive Like (L : Likeness) : Token → Token → Prop
  | mk (text : String) {s s' : Span} (h : L.span s s') : Like L ⟨text, s⟩ ⟨text, s'⟩

/-- Token by token alike, as far as the first list goes. -/
inductive AllLike (L : Likeness) : List Token → List Token → Prop
  | nil : AllLike L [] []
  | ended (h : L.more) (ts : List Token) : AllLike L [] ts
  | cons {t t' ts ts'} (h : L.Like t t') (hs : AllLike L ts ts') : AllLike L (t :: ts) (t' :: ts')

/-- A token is refused, for the same reason and at regions that count as the same. -/
structure SameReport (L : Likeness) (r r' : Report) : Prop where
  problem : r.problem = r'.problem
  misplaced : r.problem.isMisplaced
  span : L.span r.span r'.span

/-- The two results are the same: values in the relation `R`, two ends of the tokens, or the same
refusal.  Where the second list may go on, nothing is asked of it once the first result is
`Over`. -/
inductive Same {α β : Type} (L : Likeness) (R : α → β → Prop) (E : α → Prop) :
    Except Stop α → Except Stop β → Prop
  | ok {a b} (h : R a b) : Same L R E (.ok a) (.ok b)
  | atEnd : Same L R E (.error .atEnd) (.error .atEnd)
  | wrong {r r'} (h : L.SameReport r r') : Same L R E (.error (.wrong r)) (.error (.wrong r'))
  | ended {x y} (hm : L.more) (hx : Over E x) : Same L R E x y

variable {L : Likeness} {α β γ δ : Type} {R : α → β → Prop} {E : α → Prop} {S : γ → δ → Prop}
  {F : γ → Prop}

theorem Same.bind {x : Except Stop α} {y : Except Stop β} {f : α → Except Stop γ}
    {g : β → Except Stop δ} (h : L.Same R E x y) (hf : ∀ a b, R a b → L.Same S F (f a) (g b))
    (he : ∀ a, E a → Over F (f a)) : L.Same S F (x >>= f) (y >>= g) := by
  cases h with
  | ok h => exact hf _ _ h
  | atEnd => exact .atEnd
  | wrong h => exact .wrong h
  | ended hm hx => exact .ended hm (hx.bind he)

theorem Same.ite {c c' : Prop} [Decidable c] [Decidable c'] {x x' : Except Stop α}
    {y y' : Except Stop β} (hc : c ↔ c') (h : c → L.Same R E x y) (h' : ¬ c → L.Same R E x' y') :
    L.Same R E (if c then x else x') (if c' then y else y') := by
  by_cases hx : c
  · rw [if_pos hx, if_pos (hc.mp hx)]
    exact h hx
  · rw [if_neg hx, if_neg (mt hc.mpr hx)]
    exact h' hx

/-- What a reader does that stops at the last token of its part. -/
def Reads {n m : Nat} (L : Likeness) (R : α → β → Prop)
    (x : Except Stop (Read Token α n)) (y : Except Stop (Read Token β m)) : Prop :=
  L.Same (fun a b => R a.value b.value ∧ L.AllLike a.rest b.rest) (fun _ => False) x y

/-- What a reader does that looks at the token after its part. -/
def Peeks {n m : Nat} (L : Likeness) (R : α → β → Prop)
    (x : Except Stop (Read Token α n)) (y : Except Stop (Read Token β m)) : Prop :=
  L.Same (fun a b => R a.value b.value ∧ L.AllLike a.rest b.rest) (fun a => a.rest = []) x y

section Bind

variable {n m : Nat} {x : Except Stop (Read Token α n)} {y : Except Stop (Read Token β m)}
  {f : Read Token α n → Except Stop γ} {g : Read Token β m → Except Stop δ}

theorem Reads.bind (h : L.Reads R x y)
    (hf : ∀ a b r r' ha hb, R a b → L.AllLike r r' → L.Same S F (f ⟨a, r, ha⟩) (g ⟨b, r', hb⟩)) :
    L.Same S F (x >>= f) (y >>= g) :=
  Same.bind h (fun a b hab => hf a.value b.value a.rest b.rest a.lt b.lt hab.1 hab.2)
    fun _ => False.elim

theorem Peeks.bind (h : L.Peeks R x y)
    (hf : ∀ a b r r' ha hb, R a b → L.AllLike r r' → L.Same S F (f ⟨a, r, ha⟩) (g ⟨b, r', hb⟩))
    (he : ∀ a ha, Over F (f ⟨a, [], ha⟩)) : L.Same S F (x >>= f) (y >>= g) := by
  refine Same.bind h (fun a b hab => hf a.value b.value a.rest b.rest a.lt b.lt hab.1 hab.2) ?_
  rintro ⟨a, r, ha⟩ (rfl : r = [])
  exact he a ha

end Bind

variable {ts ts' : List Token}

theorem same_next (h : L.AllLike ts ts') : L.Reads L.Like (next ts) (next ts') := by
  cases h with
  | nil => exact .atEnd
  | ended hm ts => exact .ended hm trivial
  | cons ht hts => exact .ok ⟨ht, hts⟩

theorem same_expect (wanted : String) (h : L.AllLike ts ts') :
    L.Reads L.Like (expect wanted ts) (expect wanted ts') := by
  refine (same_next h).bind fun t t' r r' ha hb ht hr => ?_
  obtain ⟨text, hs⟩ := ht
  exact .ite Iff.rfl (fun _ => .ok ⟨⟨text, hs⟩, hr⟩) fun _ => .wrong ⟨rfl, rfl, hs⟩

theorem same_refuse {text : String} {report report' : Token → Report} (h : L.AllLike ts ts')
    (hr : ∀ {t t'}, L.Like t t' → L.SameReport (report t) (report' t')) :
    L.Same (fun _ _ => True) (fun _ => ts = []) (refuse text report ts)
      (refuse text report' ts') := by
  cases h with
  | nil => exact .ok trivial
  | ended hm ts => exact .ended hm rfl
  | cons ht hts =>
    have hrep := hr ht
    obtain ⟨word, hs⟩ := ht
    exact .ite Iff.rfl (fun _ => .wrong hrep) fun _ => .ok trivial

theorem same_letterOf {t t' : Token} (h : L.Like t t') :
    L.Same Eq (fun _ => False) (letterOf t) (letterOf t') := by
  obtain ⟨text, hs⟩ := h
  unfold letterOf
  dsimp only
  split
  · exact .ite Iff.rfl (fun _ => .ok rfl) fun _ => .wrong ⟨rfl, rfl, hs⟩
  · exact .wrong ⟨rfl, rfl, hs⟩

theorem same_symbolOf {t t' : Token} (h : L.Like t t') :
    L.Same Eq (fun _ => False) (symbolOf t) (symbolOf t') := by
  have hl := same_letterOf h
  obtain ⟨text, hs⟩ := h
  refine .ite Iff.rfl (fun _ => .ok rfl) fun _ => hl.bind ?_ fun _ => False.elim
  rintro c _ rfl
  exact .ok rfl

theorem same_letter (h : L.AllLike ts ts') :
    L.Reads (EqUpTo Located.erase) (letter ts) (letter ts') := by
  refine (same_next h).bind fun t t' r r' ha hb ht hr => ?_
  refine (same_letterOf ht).bind ?_ fun _ => False.elim
  rintro c _ rfl
  exact .ok ⟨rfl, hr⟩

theorem same_symbol (h : L.AllLike ts ts') :
    L.Reads (EqUpTo Located.erase) (symbol ts) (symbol ts') := by
  refine (same_next h).bind fun t t' r r' ha hb ht hr => ?_
  refine (same_symbolOf ht).bind ?_ fun _ => False.elim
  rintro s _ rfl
  exact .ok ⟨rfl, hr⟩

theorem same_identifier (h : L.AllLike ts ts') :
    L.Reads (EqUpTo Located.erase) (identifier ts) (identifier ts') := by
  refine (same_next h).bind fun t t' r r' ha hb ht hr => ?_
  obtain ⟨text, hs⟩ := ht
  exact .ite Iff.rfl (fun _ => .ok ⟨rfl, hr⟩) fun _ => .wrong ⟨rfl, rfl, hs⟩

theorem same_direction (h : L.AllLike ts ts') :
    L.Reads (EqUpTo Located.value) (direction ts) (direction ts') := by
  refine (same_next h).bind fun t t' r r' ha hb ht hr => ?_
  obtain ⟨text, hs⟩ := ht
  exact .ite Iff.rfl (fun _ => .ok ⟨rfl, hr⟩) fun _ =>
    .ite Iff.rfl (fun _ => .ok ⟨rfl, hr⟩) fun _ => .wrong ⟨rfl, rfl, hs⟩

theorem same_moreLetters {ts ts' : List Token} (h : L.AllLike ts ts') :
    L.Reads (EqUpTo fun p => p.1.map Located.erase) (moreLetters ts) (moreLetters ts') := by
  cases h with
  | nil => rw [moreLetters]; exact .atEnd
  | ended hm ts' => rw [moreLetters]; exact .ended hm trivial
  | @cons _ _ ts ts' ht hts =>
    obtain ⟨text, hs⟩ := ht
    rw [moreLetters, moreLetters]
    refine .ite Iff.rfl (fun _ => ?_) fun _ =>
      .ite Iff.rfl (fun _ => .ok ⟨rfl, hts⟩) fun _ => .wrong ⟨rfl, rfl, hs⟩
    refine (same_letter hts).bind fun c c' r r' hlt _ hc hr => ?_
    refine (same_moreLetters hr).bind fun p p' q q' _ _ hp hq => .ok ⟨?_, hq⟩
    exact congrArg₂ List.cons hc hp
termination_by ts.length
decreasing_by simp only [List.length_cons]; omega

theorem same_alphabet (h : L.AllLike ts ts') :
    L.Reads (EqUpTo Alphabet.erase) (alphabet ts) (alphabet ts') := by
  refine (same_expect "alphabet" h).bind fun t t' r₁ r₁' _ _ ht h₁ => ?_
  refine (same_expect "=" h₁).bind fun _ _ r₂ r₂' _ _ _ h₂ => ?_
  refine (same_expect openBrace h₂).bind fun _ _ r₃ r₃' _ _ _ h₃ => ?_
  refine (same_refuse h₃ fun hc => ?_).bind (fun _ _ _ => ?_) ?_
  · obtain ⟨_, hs⟩ := ht
    obtain ⟨_, hs'⟩ := hc
    exact ⟨rfl, rfl, L.upTo hs hs'⟩
  · refine (same_letter h₃).bind fun c c' r₄ r₄' _ _ hc h₄ => ?_
    refine (same_moreLetters h₄).bind fun p p' r₅ r₅' _ _ hp h₅ => .ok ⟨?_, h₅⟩
    exact congrArg (fun l => (⟨l, .emptyText⟩ : Alphabet)) (congrArg₂ List.cons hc hp)
  · rintro _ rfl
    trivial

theorem same_moreSymbols {ts ts' : List Token} (h : L.AllLike ts ts') :
    L.Peeks (EqUpTo (List.map Located.erase)) (moreSymbols ts) (moreSymbols ts') := by
  cases h with
  | nil => rw [moreSymbols]; exact .ok ⟨rfl, .nil⟩
  | ended hm ts' => rw [moreSymbols]; exact .ended hm rfl
  | @cons _ _ ts ts' ht hts =>
    obtain ⟨text, hs⟩ := ht
    rw [moreSymbols, moreSymbols]
    refine .ite Iff.rfl (fun _ => ?_) fun _ => .ok ⟨rfl, .cons ⟨text, hs⟩ hts⟩
    refine (same_symbol hts).bind fun c c' r r' hlt _ hc hr => ?_
    refine (same_moreSymbols hr).bind (fun l l' q q' _ _ hl hq => .ok ⟨?_, hq⟩) fun _ _ => rfl
    exact congrArg₂ List.cons hc hl
termination_by ts.length
decreasing_by simp only [List.length_cons]; omega

theorem same_symbols (h : L.AllLike ts ts') :
    L.Peeks (EqUpTo (List.map Located.erase)) (symbols ts) (symbols ts') := by
  refine (same_symbol h).bind fun c c' r r' _ _ hc hr => ?_
  refine (same_moreSymbols hr).bind (fun l l' q q' _ _ hl hq => .ok ⟨?_, hq⟩) fun _ _ => rfl
  exact congrArg₂ List.cons hc hl

/-! ## Commands -/

def Takes {n m : Nat} (L : Likeness) (view : α → γ) (x : Except Stop (Optional (Located α) n))
    (y : Except Stop (Optional (Located α) m)) : Prop :=
  L.Same (fun a b => EqUpTo (Option.map fun c => view c.value) a.value b.value ∧
    L.AllLike a.rest b.rest) (fun a => a.rest = []) x y

theorem Takes.bind {κ : Type} {n m : Nat} {view : α → κ} {x : Except Stop (Optional (Located α) n)}
    {y : Except Stop (Optional (Located α) m)} {f : Optional (Located α) n → Except Stop γ}
    {g : Optional (Located α) m → Except Stop δ} (h : L.Takes view x y)
    (hf : ∀ a b r r' ha hb, EqUpTo (Option.map fun c => view c.value) a b → L.AllLike r r' →
      L.Same S F (f ⟨a, r, ha⟩) (g ⟨b, r', hb⟩))
    (he : ∀ a ha, Over F (f ⟨a, [], ha⟩)) : L.Same S F (x >>= f) (y >>= g) := by
  refine Same.bind h (fun a b hab => hf a.value b.value a.rest b.rest a.le b.le hab.1 hab.2) ?_
  rintro ⟨a, r, ha⟩ (rfl : r = [])
  exact he a ha

/-- The two readers of an optional part start it at the same tokens and then do the same. -/
inductive Starting (L : Likeness) (R : α → β → Prop) {n m : Nat} :
    Option (Except Stop (Read Token α n)) → Option (Except Stop (Read Token β m)) → Prop
  | none : Starting L R none none
  | some {x y} (h : L.Reads R x y) : Starting L R (some x) (some y)

theorem same_optional {view : α → γ} {read : (t : Token) → (rest : List Token) →
      Option (Except Stop (Read Token (Located α) (rest.length + 1)))}
    (h : L.AllLike ts ts')
    (hr : ∀ {t t' r r'}, L.Like t t' → L.AllLike r r' →
      L.Starting (EqUpTo fun c => view c.value) (read t r) (read t' r')) :
    L.Takes view (optional read ts) (optional read ts') := by
  cases h with
  | nil => exact .ok ⟨rfl, .nil⟩
  | ended hm ts' => exact .ended hm rfl
  | @cons t t' ts ts' ht hts =>
    have hstart := hr ht hts
    unfold optional
    dsimp only
    generalize read t ts = x at hstart
    generalize read t' ts' = y at hstart
    cases hstart with
    | none => exact .ok ⟨rfl, .cons ht hts⟩
    | some hxy => exact hxy.bind fun a b r r' _ _ hab hrest => .ok ⟨congrArg some hab, hrest⟩

theorem same_write (h : L.AllLike ts ts') :
    L.Takes Located.erase (write ts) (write ts') := by
  refine same_optional h fun ht hr => ?_
  obtain ⟨text, hs⟩ := ht
  dsimp only
  split
  · exact .some ((same_symbol hr).bind fun s s' q q' _ _ hss hq => .ok ⟨hss, hq⟩)
  · exact .none

theorem same_move (h : L.AllLike ts ts') : L.Takes id (move ts) (move ts') := by
  refine same_optional h fun ht hr => ?_
  obtain ⟨text, hs⟩ := ht
  dsimp only
  split
  · exact .some ((same_direction hr).bind fun d d' q q' _ _ hd hq => .ok ⟨hd, hq⟩)
  · exact .none

theorem same_flow (h : L.AllLike ts ts') : L.Takes Flow.erase (flow ts) (flow ts') := by
  refine same_optional h fun ht hr => ?_
  obtain ⟨text, hs⟩ := ht
  dsimp only
  split
  · exact .some ((same_identifier hr).bind fun n n' q q' _ _ hn hq =>
      .ok ⟨congrArg Flow.goto hn, hq⟩)
  · split
    · exact .some (.ok ⟨rfl, hr⟩)
    · split
      · exact .some (.ok ⟨rfl, hr⟩)
      · exact .none

theorem same_noCommand {problem : String → Problem} (hp : ∀ s, (problem s).isMisplaced)
    (h : L.AllLike ts ts') :
    L.Same R E (noCommand problem ts) (noCommand problem ts') := by
  cases h with
  | nil => exact .atEnd
  | ended hm ts' => exact .ended hm trivial
  | cons ht hts =>
    obtain ⟨text, hs⟩ := ht
    exact .wrong ⟨rfl, hp text, hs⟩

theorem spans_eq_nil_iff {κ : Type} {view : Located α → κ} {w w' : Option (Located α)}
    (h : EqUpTo (Option.map view) w w') :
    w.toList.map (·.span) = [] ↔ w'.toList.map (·.span) = [] := by
  unfold EqUpTo at h
  cases w <;> cases w' <;> simp_all

theorem same_basicBlock (h : L.AllLike ts ts') :
    L.Peeks (EqUpTo BasicBlock.erase) (basicBlock ts) (basicBlock ts') := by
  -- Each command is followed by the case that the first list ends there: no later command is
  -- found, so the block is over or nothing was read.
  refine (same_write h).bind (fun w w' r₁ r₁' _ _ hw h₁ => ?_) fun w _ => ?_
  · refine (same_move h₁).bind (fun m m' r₂ r₂' _ _ hm h₂ => ?_) fun m _ => ?_
    · refine (same_flow h₂).bind (fun f f' r₃ r₃' _ _ hf h₃ => ?_) fun f _ => ?_
      · have hnil : w.toList.map (·.span) ++ m.toList.map (·.span) ++ f.toList.map (·.span) = [] ↔
            w'.toList.map (·.span) ++ m'.toList.map (·.span) ++ f'.toList.map (·.span) = [] := by
          simp only [List.append_eq_nil_iff, spans_eq_nil_iff hw, spans_eq_nil_iff hm,
            spans_eq_nil_iff hf]
        dsimp only
        split
        · next hs =>
          split
          · exact same_noCommand (fun _ => rfl) h₃
          · next hs' => exact absurd (hnil.mp hs) (by rw [hs']; simp)
        · next hs =>
          split
          · next hs' => exact absurd (hnil.mpr hs') (by rw [hs]; simp)
          · refine .ok ⟨?_, h₃⟩
            simp only [EqUpTo, BasicBlock.erase, BasicBlock.mk.injEq, Option.map_map, and_true]
            exact ⟨hw, hm, hf⟩
      · dsimp only
        split
        · trivial
        · rfl
    · dsimp only [flow, optional, bind, Except.bind]
      split
      · trivial
      · rfl
  · dsimp only [move, flow, optional, bind, Except.bind]
    split
    · trivial
    · rfl

theorem same_coreBlock (h : L.AllLike ts ts') :
    L.Peeks (EqUpTo CoreBlock.erase) (coreBlock ts) (coreBlock ts') := by
  refine (same_write h).bind (fun w w' r₁ r₁' _ _ hw h₁ => ?_) fun w _ => ?_
  · refine (same_move h₁).bind (fun m m' r₂ r₂' _ _ hm h₂ => ?_) fun m _ => ?_
    · have hnil : w.toList.map (·.span) ++ m.toList.map (·.span) = [] ↔
          w'.toList.map (·.span) ++ m'.toList.map (·.span) = [] := by
        simp only [List.append_eq_nil_iff, spans_eq_nil_iff hw, spans_eq_nil_iff hm]
      dsimp only
      split
      · next hs =>
        split
        · exact same_noCommand (fun _ => rfl) h₂
        · next hs' => exact absurd (hnil.mp hs) (by rw [hs']; simp)
      · next hs =>
        split
        · next hs' => exact absurd (hnil.mpr hs') (by rw [hs]; simp)
        · refine .ok ⟨?_, h₂⟩
          simp only [EqUpTo, CoreBlock.erase, CoreBlock.mk.injEq, Option.map_map, and_true]
          exact ⟨hw, hm⟩
    · dsimp only
      split
      · trivial
      · rfl
  · dsimp only [move, optional, bind, Except.bind]
    split
    · trivial
    · rfl

/-! ## Blocks and cases -/

theorem same_loopAt {t t' : Token} (ht : L.Like t t') (h : L.AllLike ts ts') :
    L.Reads (EqUpTo Case.erase) (loopAt t ts) (loopAt t' ts') := by
  obtain ⟨text, hs⟩ := ht
  refine (same_refuse h fun _ => ?_).bind (fun _ _ _ => ?_) ?_
  · exact ⟨rfl, rfl, hs⟩
  · refine (same_symbols h).bind (fun ss ss' r₁ r₁' _ _ hss h₁ => ?_) fun _ _ => trivial
    refine (same_expect openBrace h₁).bind fun _ _ r₂ r₂' _ _ _ h₂ => ?_
    refine (same_refuse h₂ fun _ => ?_).bind (fun _ _ _ => ?_) ?_
    · exact ⟨rfl, rfl, hs⟩
    · refine (same_coreBlock h₂).bind (fun b b' r₃ r₃' _ _ hb h₃ => ?_) fun _ _ => trivial
      refine (same_next h₃).bind fun close close' r₄ r₄' _ _ hclose h₄ => ?_
      obtain ⟨word, hs'⟩ := hclose
      refine .ite Iff.rfl (fun _ => .ok ⟨?_, h₄⟩) fun _ => .wrong ⟨rfl, rfl, hs'⟩
      exact congrArg₂ (Case.loop · · .emptyText) hss hb
    · rintro _ rfl
      trivial
  · rintro _ rfl
    trivial

theorem blocks_nil : blocks [] = .error .atEnd := by rw [blocks]

theorem switchCases_nil : switchCases [] = .error .atEnd := by rw [switchCases]

mutual

theorem same_blocks {ts ts' : List Token} (h : L.AllLike ts ts') :
    L.Reads (EqUpTo fun p => Block.eraseAll p.1) (blocks ts) (blocks ts') := by
  cases h with
  | nil => rw [blocks_nil]; exact .atEnd
  | ended hm ts' => rw [blocks_nil]; exact .ended hm trivial
  | @cons _ _ ts ts' ht hts =>
    rw [blocks, blocks]
    have hb := same_blockAt ht hts
    obtain ⟨text, hs⟩ := ht
    refine .ite Iff.rfl (fun _ => .ok ⟨rfl, hts⟩) fun _ => ?_
    refine hb.bind (fun b b' r r' hlt _ hbb hr => ?_) fun _ _ => over_bind_atEnd blocks_nil
    refine (same_blocks hr).bind fun p p' q q' _ _ hp hq => .ok ⟨?_, hq⟩
    exact congrArg₂ List.cons hbb hp
termination_by 3 * ts.length + 2

theorem same_blockAt {t t' : Token} {ts ts' : List Token} (ht : L.Like t t')
    (h : L.AllLike ts ts') :
    L.Peeks (EqUpTo Block.erase) (blockAt t ts) (blockAt t' ts') := by
  rw [blockAt, blockAt]
  have hcase := same_caseAt ht h
  obtain ⟨text, hs⟩ := ht
  refine .ite Iff.rfl (fun _ => ?_) fun _ => .ite Iff.rfl (fun _ => ?_) fun _ => ?_
  · refine (same_expect "tapehead" h).bind fun _ _ r₁ r₁' _ _ _ h₁ => ?_
    refine (same_expect openBrace h₁).bind fun _ _ r₂ r₂' _ _ _ h₂ => ?_
    refine (same_refuse h₂ fun hc => ?_).bind (fun _ _ _ => ?_) ?_
    · obtain ⟨_, hs'⟩ := hc
      exact ⟨rfl, rfl, L.upTo hs hs'⟩
    · refine (same_switchCases h₂).bind fun p p' r₃ r₃' _ _ hp h₃ => .ok ⟨?_, h₃⟩
      exact congrArg (Block.switch · .emptyText) hp
    · rintro _ rfl
      exact over_bind_atEnd switchCases_nil
  · refine hcase.bind fun c c' r₁ r₁' _ _ hc h₁ => ?_
    refine (same_caseRun h₁).bind (fun cs cs' r₂ r₂' _ _ hcs h₂ => .ok ⟨?_, h₂⟩) fun _ _ => rfl
    exact congrArg₂ (fun c cs => Block.switch (c :: cs) .emptyText) hc hcs
  · refine (same_basicBlock (.cons ⟨text, hs⟩ h)).bind (fun b b' r₁ r₁' _ _ hb h₁ => .ok ⟨?_, h₁⟩)
      fun _ _ => rfl
    exact congrArg Block.basic hb
termination_by 3 * (ts.length + 1) + 1

theorem same_caseAt {t t' : Token} {ts ts' : List Token} (ht : L.Like t t')
    (h : L.AllLike ts ts') :
    L.Reads (EqUpTo Case.erase) (caseAt t ts) (caseAt t' ts') := by
  rw [caseAt, caseAt]
  have hloop := same_loopAt ht h
  obtain ⟨text, hs⟩ := ht
  refine .ite Iff.rfl (fun _ => ?_) fun _ => ?_
  · exact hloop.bind fun c c' r r' _ _ hc hr => .ok ⟨hc, hr⟩
  · refine (same_refuse h fun _ => ?_).bind (fun _ _ _ => ?_) ?_
    · exact ⟨rfl, rfl, hs⟩
    · refine (same_symbols h).bind (fun ss ss' r₁ r₁' _ _ hss h₁ => ?_) fun _ _ => trivial
      refine (same_expect openBrace h₁).bind fun _ _ r₂ r₂' _ _ _ h₂ => ?_
      refine (same_refuse h₂ fun hc => ?_).bind (fun _ _ _ => ?_) ?_
      · obtain ⟨_, hs'⟩ := hc
        exact ⟨rfl, rfl, L.upTo hs hs'⟩
      · refine (same_basicBlock h₂).bind (fun b b' r₃ r₃' _ _ hb h₃ => ?_)
          fun _ _ => over_bind_atEnd blocks_nil
        refine (same_blocks h₃).bind fun p p' r₄ r₄' _ _ hp h₄ => .ok ⟨?_, h₄⟩
        simp only [EqUpTo, Case.erase, Case.branch.injEq, and_true]
        exact ⟨hss, hb, hp⟩
      · rintro _ rfl
        trivial
    · rintro _ rfl
      trivial
termination_by 3 * (ts.length + 1)

theorem same_switchCases {ts ts' : List Token} (h : L.AllLike ts ts') :
    L.Reads (EqUpTo fun p => Case.eraseAll p.1) (switchCases ts) (switchCases ts') := by
  cases h with
  | nil => rw [switchCases_nil]; exact .atEnd
  | ended hm ts' => rw [switchCases_nil]; exact .ended hm trivial
  | @cons _ _ ts ts' ht hts =>
    rw [switchCases, switchCases]
    have hcase := same_caseAt ht hts
    obtain ⟨text, hs⟩ := ht
    refine .ite Iff.rfl (fun _ => .ok ⟨rfl, hts⟩) fun _ => .ite Iff.rfl (fun _ => ?_) fun _ =>
      .wrong ⟨rfl, rfl, hs⟩
    refine hcase.bind fun c c' r r' hlt _ hc hr => ?_
    refine (same_switchCases hr).bind fun p p' q q' _ _ hp hq => .ok ⟨?_, hq⟩
    exact congrArg₂ List.cons hc hp
termination_by 3 * ts.length + 1

theorem same_caseRun {ts ts' : List Token} (h : L.AllLike ts ts') :
    L.Peeks (EqUpTo Case.eraseAll) (caseRun ts) (caseRun ts') := by
  cases h with
  | nil => rw [caseRun]; exact .ok ⟨rfl, .nil⟩
  | ended hm ts' => rw [caseRun]; exact .ended hm rfl
  | @cons _ _ ts ts' ht hts =>
    rw [caseRun, caseRun]
    have hcase := same_caseAt ht hts
    obtain ⟨text, hs⟩ := ht
    refine .ite Iff.rfl (fun _ => ?_) fun _ => .ok ⟨rfl, .cons ⟨text, hs⟩ hts⟩
    refine hcase.bind fun c c' r r' hlt _ hc hr => ?_
    refine (same_caseRun hr).bind (fun cs cs' q q' _ _ hcs hq => .ok ⟨?_, hq⟩) fun _ _ => rfl
    exact congrArg₂ List.cons hc hcs
termination_by 3 * ts.length + 1

end

theorem same_module (h : L.AllLike ts ts') :
    L.Reads (EqUpTo Module.erase) (module ts) (module ts') := by
  refine (same_expect "module" h).bind fun t t' r₁ r₁' _ _ ht h₁ => ?_
  refine (same_identifier h₁).bind fun n n' r₂ r₂' _ _ hn h₂ => ?_
  refine (same_expect openBrace h₂).bind fun _ _ r₃ r₃' _ _ _ h₃ => ?_
  refine (same_refuse h₃ fun hc => ?_).bind (fun _ _ _ => ?_) ?_
  · obtain ⟨_, hs⟩ := ht
    obtain ⟨_, hs'⟩ := hc
    exact ⟨rfl, rfl, L.upTo hs hs'⟩
  · refine (same_blocks h₃).bind fun p p' r₄ r₄' _ _ hp h₄ => .ok ⟨?_, h₄⟩
    exact congrArg₂ (Module.mk · · .emptyText) hn hp
  · rintro _ rfl
    exact over_bind_atEnd blocks_nil

/-- After the last token of the first list nothing is final. -/
theorem same_modules {ts ts' : List Token} (h : L.AllLike ts ts') :
    L.Same (EqUpTo (List.map Module.erase)) (fun _ => True) (modules ts) (modules ts') := by
  cases h with
  | nil => rw [modules]; exact .ok rfl
  | ended hm ts' => rw [modules]; exact .ended hm trivial
  | @cons _ _ ts ts' ht hts =>
    rw [modules, modules]
    refine (same_module (.cons ht hts)).bind fun m m' r r' hlt _ hm hr => ?_
    refine (same_modules hr).bind (fun ms ms' hms => .ok ?_) fun _ _ => trivial
    exact congrArg₂ List.cons hm hms
termination_by ts.length
decreasing_by exact hlt

end Likeness
end Parser
end TapeLang
