import TapeLang.Proofs.Parsing
import TapeLang.Proofs.Rules

/-!
Tokens that end too early can be completed.

Every reader is sound for the rule of its part (`Sound`): what it reads is an instance of the
rule, and where it runs out of tokens, further tokens make the tokens it was given an instance.
-/

namespace TapeLang
namespace Parser

open Grammar

/-- A result of reading `ts`: what was taken up to `rest` is an instance of the rule, and if the
tokens came to an end, they can be completed to one. -/
def Sound {α : Type} (R : Rule) (rest : α → List Token) (ts : List Token) : Except Stop α → Prop
  | .ok a => R.Holds ts (rest a)
  | .error .atEnd => R.Viable ts
  | .error (.wrong _) => True

section Sound

variable {α β : Type} {R S : Rule} {ts r : List Token} {rest : α → List Token}
  {rest' : β → List Token} {x : Except Stop α} {f : α → Except Stop β}

theorem Sound.mono (h : Sound R rest ts x) (hRS : R.Implies S) : Sound S rest ts x := by
  match x, h with
  | .ok a, h => exact hRS h
  | .error .atEnd, h => exact Rule.Viable.mono h hRS
  | .error (.wrong _), _ => trivial

theorem Sound.bind (h : Sound R rest ts x) (hf : ∀ a, Sound S rest' (rest a) (f a)) :
    Sound (R.seq S) rest' ts (x >>= f) := by
  match x, h with
  | .ok a, h =>
    have ha := hf a
    show Sound (R.seq S) rest' ts (f a)
    match f a, ha with
    | .ok b, hb => exact ⟨rest a, h, hb⟩
    | .error .atEnd, hb => exact hb.seq_right h
    | .error (.wrong _), _ => trivial
  | .error .atEnd, h => exact h.seq_left
  | .error (.wrong _), _ => trivial

/-- Nothing more is read. -/
theorem Sound.map (h : Sound R rest ts x) (hf : ∀ a, ∃ b, f a = .ok b ∧ rest' b = rest a) :
    Sound R rest' ts (x >>= f) := by
  match x, h with
  | .ok a, h =>
    obtain ⟨b, hb, hrest⟩ := hf a
    show Sound R rest' ts (f a)
    rw [hb]
    show R.Holds ts (rest' b)
    rwa [hrest]
  | .error .atEnd, h => exact h
  | .error (.wrong _), _ => trivial

/-- A word was seen before the reader started. -/
theorem Sound.after_word {t : Token} {w : String} (h : Sound S rest r x) (ht : t.text = w) :
    Sound ((Rule.word w).seq S) rest (t :: r) x := by
  have hw : (Rule.word w).Holds (t :: r) r := ⟨t, rfl, ht⟩
  match x, h with
  | .ok a, h => exact ⟨r, hw, h⟩
  | .error .atEnd, h => exact Rule.Viable.seq_right h hw
  | .error (.wrong _), _ => trivial

theorem sound_refuse {text : String} {report : Token → Report} {f : Unit → Except Stop β}
    (h : ¬ Starts [text] ts → Sound R rest' ts (f ())) :
    Sound R rest' ts (refuse text report ts >>= f) := by
  cases hr : refuse text report ts with
  | ok u => exact h (refuse_eq_ok.mp hr)
  | error e =>
    cases ts with
    | nil => cases hr
    | cons t ts =>
      rw [refuse] at hr
      split at hr
      · cases hr
        trivial
      · cases hr

/-- A reader that always takes a token, for a rule that holds wherever `R` takes one. -/
theorem Sound.strict {x : Except Stop (Read Token α ts.length)}
    (h : ∀ {ts r}, R.Holds ts r → ts = r ∨ S.Holds ts r) (hx : Sound R Read.rest ts x) :
    Sound S Read.rest ts x := by
  match x, hx with
  | .ok a, hx =>
    refine (h hx).resolve_left fun he => ?_
    exact absurd a.lt (by rw [← he]; exact Nat.lt_irrefl _)
  | .error .atEnd, hx =>
    obtain ⟨k, hk⟩ := hx
    rcases h hk with he | hS
    · obtain ⟨rfl, -⟩ := List.append_eq_nil_iff.mp he
      exact S.viable_nil
    · exact ⟨k, hS⟩
  | .error (.wrong _), _ => trivial

/-- The next token decides. -/
theorem sound_next {f : Read Token Token ts.length → Except Stop β}
    (h : ∀ t r hl, ts = t :: r → Sound R rest' ts (f ⟨t, r, hl⟩)) :
    Sound R rest' ts (next ts >>= f) := by
  cases ts with
  | nil => exact R.viable_nil
  | cons t r => exact h t r _ rfl

end Sound

theorem sound_expect (w : String) (ts : List Token) :
    Sound (Rule.word w) Read.rest ts (expect w ts) := by
  refine sound_next fun t r hl hts => ?_
  subst hts
  dsimp only
  split
  · next ht => exact ⟨t, rfl, ht⟩
  · trivial

theorem letterOf_ne_atEnd (t : Token) : letterOf t ≠ .error .atEnd := by
  unfold letterOf
  split
  · split
    · intro h
      cases h
    · intro h
      cases h
  · intro h
    cases h

theorem symbolOf_ne_atEnd (t : Token) : symbolOf t ≠ .error .atEnd := by
  unfold symbolOf
  split
  · intro h
    cases h
  · intro h
    cases hc : letterOf t with
    | ok c => rw [hc] at h; cases h
    | error e =>
      rw [hc] at h
      cases h
      exact letterOf_ne_atEnd t hc

theorem sound_letter (ts : List Token) : Sound Rule.letter Read.rest ts (letter ts) := by
  refine sound_next fun t r hl hts => ?_
  subst hts
  dsimp only
  cases hc : letterOf t with
  | ok c =>
    obtain ⟨ht, hlet⟩ := letterOf_eq_ok.mp hc
    exact ⟨List.suffix_cons t r, fun k => ⟨⟨c, t.span⟩, ⟨t, rfl, ht⟩, hlet, Covers.token t _⟩⟩
  | error e =>
    cases e with
    | atEnd => exact absurd hc (letterOf_ne_atEnd t)
    | wrong report => trivial

theorem sound_symbol (ts : List Token) : Sound Rule.symbol Read.rest ts (symbol ts) := by
  refine sound_next fun t r hl hts => ?_
  subst hts
  dsimp only
  cases hs : symbolOf t with
  | ok s =>
    refine ⟨List.suffix_cons t r, fun k => ?_⟩
    rcases symbolOf_eq_ok.mp hs with ⟨ht, -⟩ | ⟨c, ht, hc, -⟩
    · exact ⟨_, .blank ⟨t, rfl, ht⟩ (Covers.token t _)⟩
    · exact ⟨_, .letter (c := ⟨c, t.span⟩) ⟨⟨t, rfl, ht⟩, hc, Covers.token t _⟩⟩
  | error e =>
    cases e with
    | atEnd => exact absurd hs (symbolOf_ne_atEnd t)
    | wrong report => trivial

theorem sound_identifier (ts : List Token) : Sound Rule.name Read.rest ts (identifier ts) := by
  refine sound_next fun t r hl hts => ?_
  subst hts
  dsimp only
  split
  · next hn =>
    refine ⟨List.suffix_cons t r, fun k => ?_⟩
    exact ⟨⟨t.text, t.span⟩, ⟨t, rfl, rfl⟩, isName_iff.mp hn, Covers.token t _⟩
  · trivial

theorem sound_direction (ts : List Token) : Sound Rule.direction Read.rest ts (direction ts) := by
  refine sound_next fun t r hl hts => ?_
  subst hts
  dsimp only
  split
  · next ht => exact ⟨List.suffix_cons t r, fun k => ⟨.left, t, rfl, ht⟩⟩
  · split
    · next ht => exact ⟨List.suffix_cons t r, fun k => ⟨.right, t, rfl, ht⟩⟩
    · trivial

theorem sound_moreLetters (ts : List Token) :
    Sound (Rule.all [.moreLetters, .word closeBrace]) Read.rest ts (moreLetters ts) := by
  cases ts with
  | nil =>
    rw [moreLetters]
    exact Rule.viable_nil _
  | cons t ts =>
    rw [moreLetters]
    split
    · next ht =>
      have hitem := (sound_letter ts).after_word ht
      refine (hitem.bind fun a => ?_).mono Rule.seq_many_implies
      obtain ⟨c, r, hlt⟩ := a
      exact (sound_moreLetters r).map fun _ => ⟨_, rfl, rfl⟩
    · split
      · next ht => exact ⟨_, .refl, _, ⟨t, rfl, ht⟩, rfl⟩
      · trivial
termination_by ts.length
decreasing_by simp only [List.length_cons]; omega

theorem sound_alphabet (ts : List Token) : Sound Rule.alphabet Read.rest ts (alphabet ts) := by
  refine Sound.mono ?_ Rule.shape_implies
  refine (sound_expect _ ts).bind fun a₁ => ?_
  refine (sound_expect _ a₁.rest).bind fun a₂ => ?_
  refine (sound_expect _ a₂.rest).bind fun a₃ => ?_
  refine sound_refuse fun _ => ?_
  refine (sound_letter a₃.rest).bind fun a₄ => ?_
  exact (sound_moreLetters a₄.rest).map fun _ => ⟨_, rfl, rfl⟩

theorem sound_moreSymbols (ts : List Token) :
    Sound Rule.moreSymbols Read.rest ts (moreSymbols ts) := by
  cases ts with
  | nil =>
    rw [moreSymbols]
    exact .refl
  | cons t ts =>
    rw [moreSymbols]
    split
    · next ht =>
      have hitem := (sound_symbol ts).after_word ht
      refine (hitem.bind fun a => ?_).mono Rule.many_implies
      obtain ⟨s, r, hlt⟩ := a
      exact (sound_moreSymbols r).map fun _ => ⟨_, rfl, rfl⟩
    · exact .refl
termination_by ts.length
decreasing_by simp only [List.length_cons]; omega

theorem sound_symbols (ts : List Token) : Sound Rule.symbols Read.rest ts (symbols ts) := by
  refine Sound.mono ?_ Rule.shape_implies
  refine (sound_symbol ts).bind fun a => ?_
  exact (sound_moreSymbols a.rest).map fun _ => ⟨_, rfl, rfl⟩

/-! ## Commands -/

theorem sound_optional {α : Type} {R : Rule} {read : (t : Token) → (rest : List Token) →
      Option (Except Stop (Read Token (Located α) (rest.length + 1)))}
    (h : ∀ t r x, read t r = some x → Sound R Read.rest (t :: r) x) (ts : List Token) :
    Sound (Rule.opt R) Optional.rest ts (optional read ts) := by
  cases ts with
  | nil => exact .refl
  | cons t ts =>
    unfold optional
    dsimp only
    split
    · exact .refl
    · next x hx =>
      exact ((h t ts x hx).mono Rule.opt_implies).map fun _ => ⟨_, rfl, rfl⟩

theorem sound_write (ts : List Token) : Sound (Rule.opt .write) Optional.rest ts (write ts) := by
  refine sound_optional (fun t r x hx => ?_) ts
  split at hx
  · next ht =>
    cases hx
    refine Sound.mono ?_ Rule.shape_implies
    refine Sound.after_word ?_ ht
    exact (sound_symbol r).map fun _ => ⟨_, rfl, rfl⟩
  · cases hx

theorem sound_move (ts : List Token) : Sound (Rule.opt .move) Optional.rest ts (move ts) := by
  refine sound_optional (fun t r x hx => ?_) ts
  split at hx
  · next ht =>
    cases hx
    refine Sound.mono ?_ Rule.shape_implies
    refine Sound.after_word ?_ ht
    exact (sound_direction r).map fun _ => ⟨_, rfl, rfl⟩
  · cases hx

theorem sound_flow (ts : List Token) : Sound (Rule.opt .flow) Optional.rest ts (flow ts) := by
  refine sound_optional (fun t r x hx => ?_) ts
  split at hx
  · next ht =>
    cases hx
    refine Sound.mono ?_ Rule.goto_implies
    refine Sound.after_word ?_ ht
    exact (sound_identifier r).map fun _ => ⟨_, rfl, rfl⟩
  · split at hx
    · next ht =>
      cases hx
      exact Rule.shape_implies ⟨t, rfl, ht⟩
    · split at hx
      · next ht =>
        cases hx
        exact Rule.reject_implies ⟨t, rfl, ht⟩
      · cases hx

theorem sound_noCommand {α : Type} {problem : String → Problem} {rest : α → List Token}
    (ts : List Token) : Sound Rule.done rest ts (noCommand problem ts) := by
  cases ts with
  | nil => exact Rule.viable_nil _
  | cons t ts => trivial

theorem sound_basicBlock (ts : List Token) :
    Sound Rule.basic Read.rest ts (basicBlock ts) := by
  refine Sound.strict (Rule.eq_or_fits Rule.eq_or_isBasic) ?_
  refine (sound_write ts).bind fun w => ?_
  refine (sound_move w.rest).bind fun m => ?_
  refine (sound_flow m.rest).bind fun f => ?_
  dsimp only
  split
  · exact sound_noCommand f.rest
  · rfl

theorem sound_coreBlock (ts : List Token) : Sound Rule.core Read.rest ts (coreBlock ts) := by
  refine Sound.strict (Rule.eq_or_fits Rule.eq_or_isCore) ?_
  refine (sound_write ts).bind fun w => ?_
  refine (sound_move w.rest).bind fun m => ?_
  dsimp only
  split
  · exact sound_noCommand m.rest
  · rfl

/-! ## Blocks and cases -/

theorem sound_loopAt {t : Token} (ht : t.text = "while") (ts : List Token) :
    Sound Rule.case Read.rest (t :: ts) (loopAt t ts) := by
  refine Sound.mono (Sound.after_word ?_ ht) Rule.loop_implies
  refine sound_refuse fun _ => ?_
  refine (sound_symbols ts).bind fun a₁ => ?_
  refine (sound_expect _ a₁.rest).bind fun a₂ => ?_
  refine sound_refuse fun _ => ?_
  refine (sound_coreBlock a₂.rest).bind fun a₃ => ?_
  refine sound_next fun close r _ hr => ?_
  dsimp only
  split
  · next hc => exact ⟨_, ⟨close, hr, hc⟩, rfl⟩
  · trivial

/-- Instances of a rule up to a closing brace, from what the reader does if there is one at
least. -/
theorem sound_upTo {α : Type} {R : Rule} {ts : List Token}
    {x : Except Stop (Read Token α ts.length)}
    (hclose : ∀ t r, ts = t :: r → t.text = closeBrace → ∃ a, Reads x a r)
    (h : ¬ Starts [closeBrace] ts →
      Sound (Rule.all [R, .many R, .word closeBrace]) Read.rest ts x) :
    Sound (Rule.all [.many R, .word closeBrace]) Read.rest ts x := by
  by_cases hs : Starts [closeBrace] ts
  · obtain ⟨t, r, rfl, ht⟩ := hs
    have hw := List.mem_singleton.mp ht
    obtain ⟨a, hl, rfl⟩ := hclose t r rfl hw
    exact ⟨_, .refl, r, ⟨t, rfl, hw⟩, rfl⟩
  · exact (h hs).mono Rule.seq_many_implies

theorem sound_body {ts : List Token} (h : ¬ Starts [closeBrace] ts →
      Sound (Rule.all [.block, .many .block, .word closeBrace]) Read.rest ts (blocks ts)) :
    Sound (Rule.all [.many .block, .word closeBrace]) Read.rest ts (blocks ts) := by
  refine sound_upTo (fun t r hts ht => ?_) h
  exact ⟨([], t.span), reads_blocks.mpr (.inl ⟨t, hts, ht, rfl, rfl⟩)⟩

theorem sound_cases {ts : List Token} (h : ¬ Starts [closeBrace] ts →
      Sound (Rule.all [.case, .many .case, .word closeBrace]) Read.rest ts (switchCases ts)) :
    Sound (Rule.all [.many .case, .word closeBrace]) Read.rest ts (switchCases ts) := by
  refine sound_upTo (fun t r hts ht => ?_) h
  exact ⟨([], t.span), reads_switchCases.mpr (.inl ⟨t, hts, ht, rfl, rfl⟩)⟩

mutual

theorem sound_blocks (ts : List Token) (hn : ¬ Starts [closeBrace] ts) :
    Sound (Rule.all [.block, .many .block, .word closeBrace]) Read.rest ts (blocks ts) := by
  cases ts with
  | nil =>
    rw [blocks]
    exact Rule.viable_nil _
  | cons t ts =>
    rw [blocks, if_neg fun ht => hn (starts_cons.mpr (by simp [ht]))]
    refine (sound_blockAt t ts).bind fun a => ?_
    obtain ⟨b, r, hlt⟩ := a
    exact (sound_body (sound_blocks r)).map fun _ => ⟨_, rfl, rfl⟩
termination_by 3 * ts.length + 2

theorem sound_blockAt (t : Token) (ts : List Token) :
    Sound Rule.block Read.rest (t :: ts) (blockAt t ts) := by
  rw [blockAt]
  split
  · next ht =>
    refine Sound.mono (Sound.after_word ?_ ht) Rule.switch_implies
    refine (sound_expect _ ts).bind fun a₁ => ?_
    obtain ⟨_, r₁, _⟩ := a₁
    refine (sound_expect _ r₁).bind fun a₂ => ?_
    obtain ⟨_, r₂, _⟩ := a₂
    refine sound_refuse fun hn => ?_
    exact (sound_switchCases r₂ hn).map fun _ => ⟨_, rfl, rfl⟩
  · split
    · next ht =>
      refine Sound.mono ?_ Rule.run_implies
      refine (sound_caseAt t ht ts).bind fun a => ?_
      obtain ⟨c, r, _⟩ := a
      exact (sound_caseRun r).map fun _ => ⟨_, rfl, rfl⟩
    · refine Sound.mono ?_ Rule.shape_implies
      exact (sound_basicBlock (t :: ts)).map fun _ => ⟨_, rfl, rfl⟩
termination_by 3 * (ts.length + 1) + 1

theorem sound_caseAt (t : Token) (ht : startsCase t) (ts : List Token) :
    Sound Rule.case Read.rest (t :: ts) (caseAt t ts) := by
  rw [caseAt]
  split
  · next hw => exact (sound_loopAt hw ts).map fun _ => ⟨_, rfl, rfl⟩
  · next hw =>
    have hif : t.text = "if" := (text_of_startsCase ht).resolve_right hw
    refine Sound.mono (Sound.after_word ?_ hif) Rule.shape_implies
    refine sound_refuse fun _ => ?_
    refine (sound_symbols ts).bind fun a₁ => ?_
    obtain ⟨_, r₁, _⟩ := a₁
    refine (sound_expect _ r₁).bind fun a₂ => ?_
    obtain ⟨_, r₂, _⟩ := a₂
    refine sound_refuse fun _ => ?_
    refine (sound_basicBlock r₂).bind fun a₃ => ?_
    obtain ⟨_, r₃, _⟩ := a₃
    exact (sound_body (sound_blocks r₃)).map fun _ => ⟨_, rfl, rfl⟩
termination_by 3 * (ts.length + 1)

theorem sound_switchCases (ts : List Token) (hn : ¬ Starts [closeBrace] ts) :
    Sound (Rule.all [.case, .many .case, .word closeBrace]) Read.rest ts (switchCases ts) := by
  cases ts with
  | nil =>
    rw [switchCases]
    exact Rule.viable_nil _
  | cons t ts =>
    rw [switchCases, if_neg fun ht => hn (starts_cons.mpr (by simp [ht]))]
    split
    · next ht =>
      refine (sound_caseAt t ht ts).bind fun a => ?_
      obtain ⟨c, r, hlt⟩ := a
      exact (sound_cases (sound_switchCases r)).map fun _ => ⟨_, rfl, rfl⟩
    · trivial
termination_by 3 * ts.length + 1

theorem sound_caseRun (ts : List Token) :
    Sound (Rule.many .case) Read.rest ts (caseRun ts) := by
  cases ts with
  | nil =>
    rw [caseRun]
    exact .refl
  | cons t ts =>
    rw [caseRun]
    split
    · next ht =>
      refine Sound.mono ?_ Rule.many_implies
      refine (sound_caseAt t ht ts).bind fun a => ?_
      obtain ⟨c, r, hlt⟩ := a
      exact (sound_caseRun r).map fun _ => ⟨_, rfl, rfl⟩
    · exact .refl
termination_by 3 * ts.length + 1

end

theorem sound_module (ts : List Token) : Sound Rule.module Read.rest ts (module ts) := by
  refine Sound.mono ?_ Rule.shape_implies
  refine (sound_expect _ ts).bind fun a₁ => ?_
  refine (sound_identifier a₁.rest).bind fun a₂ => ?_
  refine (sound_expect _ a₂.rest).bind fun a₃ => ?_
  refine sound_refuse fun hn => ?_
  exact (sound_blocks a₃.rest hn).map fun _ => ⟨_, rfl, rfl⟩

theorem sound_modules (ts : List Token) :
    Sound (Rule.many .module) (fun _ => []) ts (modules ts) := by
  cases ts with
  | nil =>
    rw [modules]
    exact .refl
  | cons t ts =>
    rw [modules]
    refine Sound.mono ?_ Rule.many_implies
    refine (sound_module (t :: ts)).bind fun a => ?_
    obtain ⟨m, r, hlt⟩ := a
    exact (sound_modules r).map fun _ => ⟨_, rfl, rfl⟩
termination_by ts.length
decreasing_by exact hlt

end Parser
end TapeLang
