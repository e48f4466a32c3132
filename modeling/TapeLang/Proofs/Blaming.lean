import TapeLang.Proofs.Parsing

/-!
Where a refusal points.

A stretch of a list of tokens is the region from one of them to the same or a later one.  Every
reader leaves the end of the tokens it was given, and whatever it refuses it reports at a stretch
of them (`Within`).  A report that names two tokens names the one its part starts with and one
that is found on the way from there, so the two are never the wrong way round.
-/

namespace TapeLang
namespace Parser

open Grammar

/-- The region from a token of the list to the same or a later one. -/
def Stretch (ts : List Token) (span : Span) : Prop :=
  ∃ (i j : Nat) (first last : Token), i ≤ j ∧ ts[i]? = some first ∧ ts[j]? = some last ∧
    span = first.span.upTo last.span

theorem Stretch.mono {ts ts' : List Token} {span : Span} (h : Stretch ts' span)
    (hs : ts' <:+ ts) : Stretch ts span := by
  obtain ⟨i, j, first, last, hij, hi, hj, rfl⟩ := h
  obtain ⟨before, rfl⟩ := hs
  have hshift (k : Nat) : (before ++ ts')[before.length + k]? = ts'[k]? := by
    rw [List.getElem?_append_right (Nat.le_add_right _ _), Nat.add_sub_cancel_left]
  exact ⟨before.length + i, before.length + j, first, last, Nat.add_le_add_left hij _,
    (hshift i).trans hi, (hshift j).trans hj, rfl⟩

theorem Stretch.of_covers {ts rest : List Token} {span : Span} (h : Covers ts span rest) :
    Stretch ts span := by
  obtain ⟨first, last, more, hts, ⟨before, hbefore⟩, rfl⟩ := h
  have hlast : ts[before.length]? = some last := by
    rw [← hbefore, List.getElem?_append_right (Nat.le_refl _), Nat.sub_self,
      List.getElem?_cons_zero]
  exact ⟨0, before.length, first, last, Nat.zero_le _, by rw [hts, List.getElem?_cons_zero],
    hlast, rfl⟩

theorem Stretch.token (t : Token) (rest : List Token) : Stretch (t :: rest) t.span :=
  .of_covers (.token t rest)

structure Blames (ts : List Token) (r : Report) : Prop where
  kind : r.problem.kind = .syntactic
  stretch : Stretch ts r.span

theorem Blames.mono {ts ts' : List Token} {r : Report} (h : Blames ts' r) (hs : ts' <:+ ts) :
    Blames ts r :=
  ⟨h.kind, h.stretch.mono hs⟩

/-- A result of reading among `ts`: what is left of them is their end, and what is refused is a
stretch of them. -/
def Within {α : Type} (rest : α → List Token) (ts : List Token) : Except Stop α → Prop
  | .ok a => rest a <:+ ts
  | .error .atEnd => True
  | .error (.wrong r) => Blames ts r

section Within

variable {α β : Type} {rest : α → List Token} {rest' : β → List Token} {ts r : List Token}

theorem Within.mono {x : Except Stop α} (h : Within rest r x) (hs : r <:+ ts) :
    Within rest ts x := by
  match x, h with
  | .ok a, h => exact List.IsSuffix.trans h hs
  | .error .atEnd, _ => trivial
  | .error (.wrong _), h => exact Blames.mono h hs

theorem Within.bind {x : Except Stop α} {f : α → Except Stop β} (h : Within rest r x)
    (hs : r <:+ ts) (hf : ∀ a, rest a <:+ ts → Within rest' ts (f a)) :
    Within rest' ts (x >>= f) := by
  match x, h with
  | .ok a, h => exact hf a (List.IsSuffix.trans h hs)
  | .error .atEnd, _ => trivial
  | .error (.wrong _), h => exact Blames.mono h hs

theorem within_wrong {problem : Problem} {t : Token} (hp : problem.kind = .syntactic)
    (hs : t :: r <:+ ts) : Within rest ts (wrong problem t.span) :=
  ⟨hp, (Stretch.token t r).mono hs⟩

theorem within_next {f : Read Token Token r.length → Except Stop β} (hs : r <:+ ts)
    (hf : ∀ t r' h, r = t :: r' → t :: r' <:+ ts → Within rest' ts (f ⟨t, r', h⟩)) :
    Within rest' ts (next r >>= f) := by
  cases r with
  | nil => trivial
  | cons t r' => exact hf t r' _ rfl hs

theorem within_expect {wanted : String} {f : Read Token Token r.length → Except Stop β}
    (hs : r <:+ ts)
    (hf : ∀ t r' h, r = t :: r' → r' <:+ ts → Within rest' ts (f ⟨t, r', h⟩)) :
    Within rest' ts (expect wanted r >>= f) := by
  cases r with
  | nil => trivial
  | cons t r' =>
    by_cases ht : t.text = wanted
    · have he : expect wanted (t :: r') = .ok ⟨t, r', Nat.lt_succ_self _⟩ := if_pos ht
      rw [he]
      exact hf t r' _ rfl ((List.suffix_cons t r').trans hs)
    · have he : expect wanted (t :: r') = wrong (.expected t.text wanted) t.span := if_neg ht
      rw [he]
      exact within_wrong rfl hs

theorem within_refuse {text : String} {report : Token → Report} {f : Unit → Except Stop β}
    (hr : ∀ t r', r = t :: r' → Blames ts (report t)) (hf : Within rest' ts (f ())) :
    Within rest' ts (refuse text report r >>= f) := by
  cases r with
  | nil => exact hf
  | cons t r' =>
    by_cases ht : t.text = text
    · have he : refuse text report (t :: r') = .error (.wrong (report t)) := if_pos ht
      rw [he]
      exact hr t r' rfl
    · have he : refuse text report (t :: r') = .ok () := if_neg ht
      rw [he]
      exact hf

theorem within_ite {c : Prop} [Decidable c] {x y : Except Stop α} (h : c → Within rest ts x)
    (h' : ¬ c → Within rest ts y) : Within rest ts (if c then x else y) := by
  by_cases hc : c
  · rw [if_pos hc]
    exact h hc
  · rw [if_neg hc]
    exact h' hc

/-- The part that starts with `t` is refused at `close`, which is found on the way. -/
theorem blames_upTo {problem : Problem} {t close : Token} {more r' : List Token}
    (hp : problem.kind = .syntactic) (h : r <:+ t :: more) (hr : r = close :: r') :
    Blames (t :: more) ⟨problem, t.span.upTo close.span⟩ := by
  subst hr
  exact ⟨hp, .of_covers (.of_suffix h)⟩

theorem blames_start {problem : Problem} (t : Token) (more : List Token)
    (hp : problem.kind = .syntactic) : Blames (t :: more) ⟨problem, t.span⟩ :=
  ⟨hp, .token t more⟩

end Within

variable {ts : List Token}

theorem within_letterOf {t : Token} {r : List Token} (hs : t :: r <:+ ts) :
    Within (fun _ => r) ts (letterOf t) := by
  have hr : r <:+ ts := (List.suffix_cons t r).trans hs
  unfold letterOf
  split
  · exact within_ite (fun _ => hr) fun _ => within_wrong rfl hs
  · exact within_wrong rfl hs

theorem within_symbolOf {t : Token} {r : List Token} (hs : t :: r <:+ ts) :
    Within (fun _ => r) ts (symbolOf t) := by
  have hr : r <:+ ts := (List.suffix_cons t r).trans hs
  exact within_ite (fun _ => hr) fun _ =>
    (within_letterOf hs).bind List.suffix_rfl fun _ _ => hr

theorem within_letter (ts : List Token) : Within Read.rest ts (letter ts) :=
  within_next List.suffix_rfl fun _ _ _ _ hs =>
    (within_letterOf hs).bind List.suffix_rfl fun _ hr => hr

theorem within_symbol (ts : List Token) : Within Read.rest ts (symbol ts) :=
  within_next List.suffix_rfl fun _ _ _ _ hs =>
    (within_symbolOf hs).bind List.suffix_rfl fun _ hr => hr

theorem within_identifier (ts : List Token) : Within Read.rest ts (identifier ts) :=
  within_next List.suffix_rfl fun t r _ _ hs =>
    within_ite (fun _ => (List.suffix_cons t r).trans hs) fun _ => within_wrong rfl hs

theorem within_direction (ts : List Token) : Within Read.rest ts (direction ts) :=
  within_next List.suffix_rfl fun t r _ _ hs =>
    have hr : r <:+ ts := (List.suffix_cons t r).trans hs
    within_ite (fun _ => hr) fun _ => within_ite (fun _ => hr) fun _ => within_wrong rfl hs

theorem within_moreLetters (ts : List Token) : Within Read.rest ts (moreLetters ts) := by
  cases ts with
  | nil => rw [moreLetters]; trivial
  | cons t rest =>
    have hrest : rest <:+ t :: rest := List.suffix_cons t rest
    rw [moreLetters]
    refine within_ite (fun _ => ?_) fun _ =>
      within_ite (fun _ => hrest) fun _ => within_wrong rfl List.suffix_rfl
    refine (within_letter rest).bind hrest fun a hr => ?_
    obtain ⟨c, r, hlt⟩ := a
    exact (within_moreLetters r).bind hr fun _ hr' => hr'
termination_by ts.length
decreasing_by simp only [List.length_cons]; omega

theorem within_alphabet (ts : List Token) : Within Read.rest ts (alphabet ts) := by
  refine within_expect List.suffix_rfl fun start r₁ _ hts h₁ => ?_
  subst hts
  refine within_expect h₁ fun _ r₂ _ _ h₂ => within_expect h₂ fun _ r₃ _ _ h₃ => ?_
  refine within_refuse (fun _ _ hr => blames_upTo rfl h₃ hr) ?_
  refine (within_letter r₃).bind h₃ fun ⟨c, r₄, _⟩ h₄ => ?_
  exact (within_moreLetters r₄).bind h₄ fun _ h₅ => h₅

theorem within_moreSymbols (ts : List Token) : Within Read.rest ts (moreSymbols ts) := by
  cases ts with
  | nil => rw [moreSymbols]; exact List.suffix_rfl
  | cons t rest =>
    have hrest : rest <:+ t :: rest := List.suffix_cons t rest
    rw [moreSymbols]
    refine within_ite (fun _ => ?_) fun _ => List.suffix_rfl
    refine (within_symbol rest).bind hrest fun a hr => ?_
    obtain ⟨s, r, hlt⟩ := a
    exact (within_moreSymbols r).bind hr fun _ hr' => hr'
termination_by ts.length
decreasing_by simp only [List.length_cons]; omega

theorem within_symbols (ts : List Token) : Within Read.rest ts (symbols ts) := by
  refine (within_symbol ts).bind List.suffix_rfl fun ⟨s, r, _⟩ hr => ?_
  exact (within_moreSymbols r).bind hr fun _ hr' => hr'

/-! ## Commands -/

theorem within_optional {α : Type} {read : (t : Token) → (rest : List Token) →
      Option (Except Stop (Read Token (Located α) (rest.length + 1)))}
    (h : ∀ t rest x, read t rest = some x → Within Read.rest (t :: rest) x) (ts : List Token) :
    Within Optional.rest ts (optional read ts) := by
  cases ts with
  | nil => exact List.suffix_rfl
  | cons t rest =>
    unfold optional
    dsimp only
    split
    · exact List.suffix_rfl
    · next x hx => exact (h t rest x hx).bind List.suffix_rfl fun _ hr => hr

theorem within_write (ts : List Token) : Within Optional.rest ts (write ts) := by
  refine within_optional (fun t rest x hx => ?_) ts
  dsimp only at hx
  split at hx
  · cases hx
    exact (within_symbol rest).bind (List.suffix_cons t rest) fun _ hr => hr
  · cases hx

theorem within_move (ts : List Token) : Within Optional.rest ts (move ts) := by
  refine within_optional (fun t rest x hx => ?_) ts
  dsimp only at hx
  split at hx
  · cases hx
    exact (within_direction rest).bind (List.suffix_cons t rest) fun _ hr => hr
  · cases hx

theorem within_flow (ts : List Token) : Within Optional.rest ts (flow ts) := by
  refine within_optional (fun t rest x hx => ?_) ts
  have hrest : rest <:+ t :: rest := List.suffix_cons t rest
  dsimp only at hx
  split_ifs at hx
  · cases hx
    exact (within_identifier rest).bind hrest fun _ hr => hr
  · cases hx
    exact hrest
  · cases hx
    exact hrest

theorem within_noCommand {α : Type} {rest : α → List Token} {problem : String → Problem}
    (hp : ∀ s, (problem s).kind = .syntactic) (ts : List Token) :
    Within rest ts (noCommand problem ts) := by
  cases ts with
  | nil => trivial
  | cons t r => exact within_wrong (hp t.text) List.suffix_rfl

theorem within_basicBlock (ts : List Token) : Within Read.rest ts (basicBlock ts) := by
  refine (within_write ts).bind List.suffix_rfl fun ⟨w, r₁, _⟩ h₁ => ?_
  refine (within_move r₁).bind h₁ fun ⟨m, r₂, _⟩ h₂ => ?_
  refine (within_flow r₂).bind h₂ fun ⟨f, r₃, _⟩ h₃ => ?_
  dsimp only
  split
  · exact (within_noCommand (fun _ => rfl) r₃).mono h₃
  · exact h₃

theorem within_coreBlock (ts : List Token) : Within Read.rest ts (coreBlock ts) := by
  refine (within_write ts).bind List.suffix_rfl fun ⟨w, r₁, _⟩ h₁ => ?_
  refine (within_move r₁).bind h₁ fun ⟨m, r₂, _⟩ h₂ => ?_
  dsimp only
  split
  · exact (within_noCommand (fun _ => rfl) r₂).mono h₂
  · exact h₂

/-! ## Blocks and cases -/

theorem within_loopAt (t : Token) (ts : List Token) :
    Within Read.rest (t :: ts) (loopAt t ts) := by
  have hts : ts <:+ t :: ts := List.suffix_cons t ts
  refine within_refuse (fun _ _ _ => blames_start t ts rfl) ?_
  refine (within_symbols ts).bind hts fun ⟨ss, r₁, _⟩ h₁ => ?_
  refine within_expect h₁ fun _ r₂ _ _ h₂ => ?_
  refine within_refuse (fun _ _ _ => blames_start t ts rfl) ?_
  refine (within_coreBlock r₂).bind h₂ fun ⟨body, r₃, _⟩ h₃ => ?_
  refine within_next h₃ fun close r₄ _ _ h₄ => ?_
  exact within_ite (fun _ => (List.suffix_cons close r₄).trans h₄) fun _ => within_wrong rfl h₄

mutual

theorem within_blocks (ts : List Token) : Within Read.rest ts (blocks ts) := by
  cases ts with
  | nil => rw [blocks]; trivial
  | cons t rest =>
    rw [blocks]
    refine within_ite (fun _ => List.suffix_cons t rest) fun _ => ?_
    refine (within_blockAt t rest).bind List.suffix_rfl fun ⟨b, r, hlt⟩ hr => ?_
    exact (within_blocks r).bind hr fun _ hr' => hr'
termination_by 3 * ts.length + 2

theorem within_blockAt (t : Token) (rest : List Token) :
    Within Read.rest (t :: rest) (blockAt t rest) := by
  rw [blockAt]
  refine within_ite (fun _ => ?_) fun _ => within_ite (fun _ => ?_) fun _ => ?_
  · refine within_expect (List.suffix_cons t rest) fun _ r₁ _ _ h₁ => ?_
    refine within_expect h₁ fun _ r₂ _ _ h₂ => ?_
    refine within_refuse (fun _ _ hr => blames_upTo rfl h₂ hr) ?_
    exact (within_switchCases r₂).bind h₂ fun _ h₃ => h₃
  · refine (within_caseAt t rest).bind List.suffix_rfl fun ⟨c, r₁, _⟩ h₁ => ?_
    exact (within_caseRun r₁).bind h₁ fun _ h₂ => h₂
  · exact (within_basicBlock (t :: rest)).bind List.suffix_rfl fun _ h₁ => h₁
termination_by 3 * (rest.length + 1) + 1

theorem within_caseAt (t : Token) (rest : List Token) :
    Within Read.rest (t :: rest) (caseAt t rest) := by
  rw [caseAt]
  refine within_ite (fun _ => ?_) fun _ => ?_
  · exact (within_loopAt t rest).bind List.suffix_rfl fun _ hr => hr
  · refine within_refuse (fun _ _ _ => blames_start t rest rfl) ?_
    refine (within_symbols rest).bind (List.suffix_cons t rest) fun ⟨ss, r₁, _⟩ h₁ => ?_
    refine within_expect h₁ fun _ r₂ _ _ h₂ => ?_
    refine within_refuse (fun _ _ hr => blames_upTo rfl h₂ hr) ?_
    refine (within_basicBlock r₂).bind h₂ fun ⟨first, r₃, _⟩ h₃ => ?_
    exact (within_blocks r₃).bind h₃ fun _ h₄ => h₄
termination_by 3 * (rest.length + 1)

theorem within_switchCases (ts : List Token) : Within Read.rest ts (switchCases ts) := by
  cases ts with
  | nil => rw [switchCases]; trivial
  | cons t rest =>
    rw [switchCases]
    refine within_ite (fun _ => List.suffix_cons t rest) fun _ => within_ite (fun _ => ?_) fun _ =>
      within_wrong rfl List.suffix_rfl
    refine (within_caseAt t rest).bind List.suffix_rfl fun ⟨c, r, hlt⟩ hr => ?_
    exact (within_switchCases r).bind hr fun _ hr' => hr'
termination_by 3 * ts.length + 1

theorem within_caseRun (ts : List Token) : Within Read.rest ts (caseRun ts) := by
  cases ts with
  | nil => rw [caseRun]; exact List.suffix_rfl
  | cons t rest =>
    rw [caseRun]
    refine within_ite (fun _ => ?_) fun _ => List.suffix_rfl
    refine (within_caseAt t rest).bind List.suffix_rfl fun ⟨c, r, hlt⟩ hr => ?_
    exact (within_caseRun r).bind hr fun _ hr' => hr'
termination_by 3 * ts.length + 1

end

theorem within_module (ts : List Token) : Within Read.rest ts (module ts) := by
  refine within_expect List.suffix_rfl fun start r₁ _ hts h₁ => ?_
  subst hts
  refine (within_identifier r₁).bind h₁ fun ⟨name, r₂, _⟩ h₂ => ?_
  refine within_expect h₂ fun _ r₃ _ _ h₃ => ?_
  refine within_refuse (fun _ _ hr => blames_upTo rfl h₃ hr) ?_
  exact (within_blocks r₃).bind h₃ fun _ h₄ => h₄

theorem within_modules (ts : List Token) : Within (fun _ => []) ts (modules ts) := by
  cases ts with
  | nil => rw [modules]; exact List.suffix_rfl
  | cons t rest =>
    rw [modules]
    refine (within_module (t :: rest)).bind List.suffix_rfl fun a hr => ?_
    obtain ⟨m, r, hlt⟩ := a
    exact (within_modules r).bind hr fun _ _ => List.nil_suffix
termination_by ts.length
decreasing_by exact hlt

/-- What is missing after an alphabet is reported at the alphabet. -/
theorem within_program (ts : List Token) : Within (fun _ => []) ts (program ts) := by
  rw [program]
  cases ha : alphabet ts with
  | error e =>
    have h := within_alphabet ts
    rw [ha] at h
    cases e with
    | atEnd => trivial
    | wrong r => exact h
  | ok a =>
    obtain ⟨a, rest, hlt⟩ := a
    have hcovers : Covers ts a.span rest := by
      obtain ⟨_, _, _, _, _, hc⟩ := reads_alphabet.mp ⟨hlt, ha⟩
      exact hc
    refine within_ite (fun _ => ⟨rfl, .of_covers hcovers⟩) fun _ => ?_
    exact (within_modules rest).bind hcovers.suffix fun _ _ => List.nil_suffix

end Parser

namespace Program

/-- Tokens are refused at a stretch of them, unless there is none. -/
theorem blames_of_ofTokens {ts : List Token} {r : Report} (h : ofTokens ts = .error r) :
    ts = [] ∧ r = ⟨.emptyFile, .emptyText⟩ ∨ Parser.Blames ts r := by
  rcases List.eq_nil_or_concat ts with rfl | ⟨init, last, rfl⟩
  · cases h
    exact .inl ⟨rfl, rfl⟩
  · right
    rw [List.concat_eq_append] at h ⊢
    have hwithin := Parser.within_program (init ++ [last])
    rw [ofTokens, List.getLast?_concat] at h
    dsimp only at h
    split at h
    · cases h
    · cases h
      exact ⟨rfl, (Parser.Stretch.token last []).mono (List.suffix_append init [last])⟩
    · next hp =>
      cases h
      rw [hp] at hwithin
      exact hwithin

end Program
end TapeLang
