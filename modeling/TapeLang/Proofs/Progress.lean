import TapeLang.Proofs.Cursor
import TapeLang.Proofs.Parsing

/-!
Readers make progress.

A reader with a cursor, started at any place of any list of tokens, comes to an end, and to the one
that the reader of `Parser` comes to on the tokens from that place on (`Follows`).  So no loop and
no nest of readers goes deeper than the number of tokens allows, no token is looked up that is not
there, and the region of a part is asked for only once the cursor has passed a token of it.  A
reader that succeeds has moved the cursor on and has not moved it past the last token
(`Progresses`).

The proofs go through the readers step by step, and `Follows.bind` joins the steps.
-/

namespace TapeLang
namespace Cursor

open TapeLang.Parser (Optional Reads Takes openBrace closeBrace wrong startsCase)
open Grammar (Covers Chain)

/-- What a reader of tokens returns that leaves fewer than `n` of them. -/
abbrev Reading (α : Type) (n : Nat) := Except Parser.Stop (Read Token α n)

variable {α β ρ σ : Type} {n m : Nat} {ts rest : List Token} {p q : Nat}

/-- A cursor that stood at `p` now stands where `rest` begins, and has not run off the list in
between. -/
structure Reaches (ts : List Token) (p q : Nat) (rest : List Token) : Prop where
  drop : ts.drop q = rest
  ge : p ≤ q
  le : q ≤ max p ts.length

theorem Reaches.refl (h : ts.drop p = rest) : Reaches ts p p rest :=
  ⟨h, Nat.le_refl p, by omega⟩

theorem Reaches.trans {q' : Nat} {r : List Token} (h : Reaches ts p q r)
    (h' : Reaches ts q q' rest) : Reaches ts p q' rest := by
  have hq := h.le
  have hq' := h'.le
  exact ⟨h'.drop, Nat.le_trans h.ge h'.ge, by omega⟩

theorem Reaches.next {t : Token} (h : ts.drop p = t :: rest) : Reaches ts p (p + 1) rest := by
  have hlen := congrArg List.length h
  rw [List.length_drop, List.length_cons] at hlen
  refine ⟨?_, Nat.le_succ p, by omega⟩
  rw [← List.drop_drop, h, List.drop_one, List.tail_cons]

/-- A cursor with fewer tokens before it than at `p` has moved on, and stands on the list or at its
end. -/
theorem Reaches.lt (h : Reaches ts p q rest) (hl : rest.length < (ts.drop p).length) :
    p < q ∧ q ≤ ts.length := by
  have hle := h.le
  rw [← h.drop, List.length_drop, List.length_drop] at hl
  omega

theorem getElem?_of_drop {t : Token} (h : ts.drop p = t :: rest) : ts[p]? = some t := by
  rw [← List.head?_drop, h, List.head?_cons]

theorem getElem?_of_drop_nil (h : ts.drop p = []) : ts[p]? = none := by
  rw [← List.head?_drop, h, List.head?_nil]

theorem Walk.result_bind_value {x : Walk α} {f : α → Walk β} {a : α}
    (h : x.result ts p = .ok (a, q)) : (x >>= f).result ts p = (f a).result ts q := by
  change Except.bind (x ts p) _ = _
  rw [show x ts p = _ from h]
  rfl

theorem Walk.result_bind_halt {x : Walk α} {f : α → Walk β} {e : Halt}
    (h : x.result ts p = .error e) : (x >>= f).result ts p = .error e := by
  change Except.bind (x ts p) _ = _
  rw [show x ts p = _ from h]
  rfl

theorem Walk.result_peek_bind {f : Option Token → Walk β} :
    (peek >>= f).result ts p = (f ts[p]?).result ts p := rfl

theorem Walk.result_read_bind {f : List Token → Walk β} :
    (read >>= f).result ts p = (f ts).result ts p := rfl

section PeekIs

variable {text : String} {x x' : Walk β}

theorem result_peekIs (f : Bool → Walk β) :
    (peekIs text >>= f).result ts p = (f (ts[p]?.any (·.text = text))).result ts p := rfl

theorem result_peekIs_end (h : ts.drop p = []) :
    (peekIs text >>= fun b => if b then x else x').result ts p = x'.result ts p := by
  rw [result_peekIs, getElem?_of_drop_nil h]
  rfl

theorem result_peekIs_pos {t : Token} (h : ts.drop p = t :: rest) (ht : t.text = text) :
    (peekIs text >>= fun b => if b then x else x').result ts p = x.result ts p := by
  rw [result_peekIs, getElem?_of_drop h, Option.any_some, decide_eq_true ht, if_pos rfl]

theorem result_peekIs_neg {t : Token} (h : ts.drop p = t :: rest) (ht : ¬ t.text = text) :
    (peekIs text >>= fun b => if b then x else x').result ts p = x'.result ts p := by
  rw [result_peekIs, getElem?_of_drop h, Option.any_some, decide_eq_false ht,
    if_neg Bool.false_ne_true]

end PeekIs

theorem result_advance {t : Token} (h : ts[p]? = some t) :
    advance.result ts p = .ok (t, p + 1) := by
  rw [advance, Walk.result_peek_bind, h]
  rfl

theorem result_tokenAt {i : Nat} {t : Token} (h : ts[i]? = some t) :
    (tokenAt i).result ts p = .ok (t, p) := by
  rw [tokenAt, Walk.result_read_bind, h]
  rfl

/-- Once the cursor has passed some tokens, their region is found and is the one they cover. -/
theorem result_spanSince {span : Span} (hr : Reaches ts p q rest)
    (hc : Covers (ts.drop p) span rest) : (spanSince p).result ts q = .ok (span, q) := by
  obtain ⟨hlt, hle⟩ := hr.lt hc.length_lt
  obtain ⟨first, last, more, hp, hs, rfl⟩ := hc
  -- the last token that was passed stands right before the cursor
  have hlast : ts.drop (q - 1) = last :: rest := by
    refine Grammar.eq_of_suffix (List.drop_suffix _ _) (hs.trans (List.drop_suffix _ _)) ?_
    rw [List.length_cons, ← hr.drop, List.length_drop, List.length_drop]
    omega
  change (if p < q ∧ q ≤ ts.length then _ else _ : Walk Span).result ts q = _
  rw [if_pos ⟨hlt, hle⟩, Walk.result_bind_value (result_tokenAt (getElem?_of_drop hp)),
    show max q (p + 1) - 1 = q - 1 by omega,
    Walk.result_bind_value (result_tokenAt (getElem?_of_drop hlast))]
  rfl

/-! ## Two readings -/

/-- How a walk ends next to a reading of the tokens that were left: with a value and a place in
the relation `R`, or by stopping for the same reason.  To look up a token that is not there, to
ask for the region of no tokens and to come too deep are not among these ends. -/
inductive Ends (R : ρ → α → Nat → Prop) :
    Except Halt (α × Nat) → Except Parser.Stop ρ → Prop
  | value {r a q} (h : R r a q) : Ends R (.ok (a, q)) (.ok r)
  | stop (why : Parser.Stop) : Ends R (.error (.stop why)) (.error why)

theorem Ends.mono {R S : ρ → α → Nat → Prop} {x : Except Halt (α × Nat)}
    {y : Except Parser.Stop ρ} (h : Ends R x y) (hRS : ∀ r a q, R r a q → S r a q) :
    Ends S x y := by
  cases h with
  | value h => exact .value (hRS _ _ _ h)
  | stop why => exact .stop why

theorem Ends.bind {R : ρ → α → Nat → Prop} {S : σ → β → Nat → Prop} {x : Walk α}
    {y : Except Parser.Stop ρ} {f : α → Walk β} {g : ρ → Except Parser.Stop σ}
    (h : Ends R (x.result ts p) y)
    (hf : ∀ r a q, y = .ok r → R r a q → Ends S ((f a).result ts q) (g r)) :
    Ends S ((x >>= f).result ts p) (y >>= g) := by
  generalize hx : x.result ts p = o at h
  cases h with
  | value h =>
    rw [Walk.result_bind_value hx]
    exact hf _ _ _ rfl h
  | stop why =>
    rw [Walk.result_bind_halt hx]
    exact .stop why

/-- The walk that starts at `p` ends as the reading `y` does: with the same value where the tokens
begin that `y` leaves, or by stopping for the same reason. -/
def Follows (ts : List Token) (p : Nat) (x : Walk α) (y : Reading α n) : Prop :=
  Ends (fun r a q => r.value = a ∧ Reaches ts p q r.rest) (x.result ts p) y

def FollowsPart (ts : List Token) (p : Nat) (x : Walk (Option α))
    (y : Except Parser.Stop (Optional (Located α) n)) : Prop :=
  Ends (fun r a q => r.value.map (·.value) = a ∧ Reaches ts p q r.rest) (x.result ts p) y

section Follows

variable {x : Walk α} {f : α → Walk β} {y : Reading β n}

theorem Follows.pure {a : α} {h : rest.length < n} (hr : ts.drop p = rest) :
    Follows ts p (pure a) (.ok ⟨a, rest, h⟩) :=
  .value ⟨rfl, .refl hr⟩

/-- What holds of the place where a walk started holds of every place before it that the cursor
came from. -/
theorem Follows.since {x : Walk β} {r : List Token} (h : Follows ts q x y)
    (hr : Reaches ts p q r) :
    Ends (fun r a q' => r.value = a ∧ Reaches ts p q' r.rest) (x.result ts q) y :=
  Ends.mono h fun _ _ _ h => ⟨h.1, hr.trans h.2⟩

theorem Follows.of_value {a : α} {r : List Token} (hx : x.result ts p = .ok (a, q))
    (hr : Reaches ts p q r) (hf : Follows ts q (f a) y) : Follows ts p (x >>= f) y := by
  rw [Follows, Walk.result_bind_value hx]
  exact hf.since hr

theorem Follows.bind {y : Reading α n} {g : Read Token α n → Reading β m} (h : Follows ts p x y)
    (hf : ∀ a r q (hy : Reads y a r), Reaches ts p q r →
      Follows ts q (f a) (g ⟨a, r, hy.lt⟩)) : Follows ts p (x >>= f) (y >>= g) := by
  refine Ends.bind h fun r a q hy h => ?_
  obtain ⟨rfl, hr⟩ := h
  exact (hf r.value r.rest q ⟨r.lt, hy⟩ hr).since hr

theorem Follows.bind_error {why : Parser.Stop} (h : Follows ts p x (.error why : Reading α n)) :
    Follows ts p (x >>= f) (.error why : Reading β m) :=
  Ends.bind (g := fun _ => .error why) h fun _ _ _ hy => nomatch hy

theorem FollowsPart.bind {x : Walk (Option α)} {y : Except Parser.Stop (Optional (Located α) n)}
    {f : Option α → Walk β} {g : Optional (Located α) n → Reading β m}
    (h : FollowsPart ts p x y)
    (hf : ∀ v r q (hy : Takes y v r), Reaches ts p q r →
      Follows ts q (f (v.map (·.value))) (g ⟨v, r, hy.le⟩)) : Follows ts p (x >>= f) (y >>= g) := by
  refine Ends.bind h fun r a q hy h => ?_
  obtain ⟨rfl, hr⟩ := h
  exact (hf r.value r.rest q ⟨r.le, hy⟩ hr).since hr

theorem Follows.ite {c : Prop} [Decidable c] {x x' : Walk α} {y y' : Reading α n}
    (h : c → Follows ts p x y) (h' : ¬ c → Follows ts p x' y') :
    Follows ts p (if c then x else x') (if c then y else y') := by
  by_cases hc : c
  · rw [if_pos hc, if_pos hc]
    exact h hc
  · rw [if_neg hc, if_neg hc]
    exact h' hc

end Follows

theorem Follows.advance {t : Token} {f : Token → Walk β} {y : Reading β n}
    (h : ts.drop p = t :: rest) (hf : Follows ts (p + 1) (f t) y) :
    Follows ts p (advance >>= f) y :=
  .of_value (result_advance (getElem?_of_drop h)) (.next h) hf

theorem follows_advance (h : ts.drop p = rest) : Follows ts p advance (Parser.next rest) := by
  cases rest with
  | nil =>
    rw [Follows, Cursor.advance, Walk.result_peek_bind, getElem?_of_drop_nil h]
    exact .stop _
  | cons t rest =>
    rw [Follows, result_advance (getElem?_of_drop h)]
    exact .value ⟨rfl, .next h⟩

theorem follows_wrong {problem : Problem} {span : Span} :
    Follows ts p (ofExcept (wrong problem span) : Walk α) (wrong problem span : Reading α n) :=
  .stop _

theorem follows_expect (wanted : String) (h : ts.drop p = rest) :
    Follows ts p (expect wanted) (Parser.expect wanted rest) := by
  refine (follows_advance h).bind fun t r q _ hr => ?_
  exact .ite (fun _ => .pure hr.drop) fun _ => follows_wrong

theorem Follows.refuse {text : String} {report : Token → Report} {f : Unit → Walk β}
    {g : Unit → Reading β n} (h : ts.drop p = rest) (hf : Follows ts p (f ()) (g ())) :
    Follows ts p (refuse text report >>= f) (Parser.refuse text report rest >>= g) := by
  cases rest with
  | nil => exact .of_value (result_peekIs_end h) (.refl h) hf
  | cons t rest =>
    by_cases ht : t.text = text
    · have hx : (Cursor.refuse text report).result ts p =
          .error (.stop (.wrong (report t))) := by
        rw [Cursor.refuse, result_peekIs_pos h ht,
          Walk.result_bind_value (result_advance (getElem?_of_drop h))]
        rfl
      rw [Follows, Walk.result_bind_halt hx, Parser.refuse, if_pos ht]
      exact .stop _
    · rw [Parser.refuse, if_neg ht]
      exact .of_value (result_peekIs_neg h ht) (.refl h) hf

theorem Follows.ofExcept {γ : Type} {v : Except Parser.Stop γ} {f : γ → Walk β}
    {g : γ → Reading β n} (hf : ∀ c, Follows ts p (f c) (g c)) :
    Follows ts p (ofExcept v >>= f) (v >>= g) := by
  cases v with
  | ok c => exact hf c
  | error why => exact .stop why

theorem follows_letter (h : ts.drop p = rest) : Follows ts p letter (Parser.letter rest) := by
  refine (follows_advance h).bind fun t r q _ hr => ?_
  exact .ofExcept fun c => .pure hr.drop

theorem follows_symbol (h : ts.drop p = rest) : Follows ts p symbol (Parser.symbol rest) := by
  refine (follows_advance h).bind fun t r q _ hr => ?_
  exact .ofExcept fun s => .pure hr.drop

theorem follows_identifier (h : ts.drop p = rest) :
    Follows ts p identifier (Parser.identifier rest) := by
  refine (follows_advance h).bind fun t r q _ hr => ?_
  exact .ite (fun _ => .pure hr.drop) fun _ => follows_wrong

theorem follows_moreLetters {p n : Nat} {rest : List Token} (h : ts.drop p = rest)
    (hn : rest.length < n) : Follows ts p (moreLetters n) (Parser.moreLetters rest) := by
  match n, rest, h with
  | n + 1, [], h =>
    rw [moreLetters, Parser.moreLetters]
    exact (follows_advance h).bind_error
  | n + 1, t :: rest, h =>
    rw [moreLetters, Parser.moreLetters]
    refine .advance h (.ite (fun _ => ?_) fun _ => .ite (fun _ => ?_) fun _ => follows_wrong)
    · refine (follows_letter (Reaches.next h).drop).bind fun c r q hc hr => ?_
      have hlt := hc.lt
      rw [List.length_cons] at hn
      refine (follows_moreLetters hr.drop (by omega)).bind fun cs r' q' _ hr' => ?_
      exact .pure hr'.drop
    · exact .pure (Reaches.next h).drop

theorem follows_alphabet {k : Nat} (h : ts.drop p = rest) (hk : rest.length < k) :
    Follows ts p (alphabet k) (Parser.alphabet rest) := by
  refine (follows_expect "alphabet" h).bind fun start r₁ q₁ e₁ h₁ => ?_
  refine (follows_expect "=" h₁.drop).bind fun _ r₂ q₂ e₂ h₂ => ?_
  refine (follows_expect openBrace h₂.drop).bind fun _ r₃ q₃ e₃ h₃ => ?_
  refine .refuse h₃.drop ?_
  refine (follows_letter h₃.drop).bind fun c r₄ q₄ e₄ h₄ => ?_
  have hlt₂ := Nat.lt_trans e₂.lt e₁.lt
  have hlt₄ := Nat.lt_trans e₄.lt e₃.lt
  refine (follows_moreLetters h₄.drop (by omega)).bind fun cs r₅ q₅ _ h₅ => ?_
  exact .pure h₅.drop

theorem follows_moreSymbols {p n : Nat} {rest : List Token} (h : ts.drop p = rest)
    (hn : rest.length < n) : Follows ts p (moreSymbols n) (Parser.moreSymbols rest) := by
  match n, rest, h with
  | n + 1, [], h =>
    rw [Follows, moreSymbols, result_peekIs_end h, Parser.moreSymbols]
    exact Follows.pure h
  | n + 1, t :: rest, h =>
    rw [Follows, moreSymbols, Parser.moreSymbols]
    by_cases ht : t.text = ","
    · rw [result_peekIs_pos h ht, if_pos ht]
      refine Follows.advance h ?_
      refine (follows_symbol (Reaches.next h).drop).bind fun s r q hs hr => ?_
      have hlt := hs.lt
      rw [List.length_cons] at hn
      refine (follows_moreSymbols hr.drop (by omega)).bind fun ss r' q' _ hr' => ?_
      exact .pure hr'.drop
    · rw [result_peekIs_neg h ht, if_neg ht]
      exact Follows.pure h

theorem follows_symbols {k : Nat} (h : ts.drop p = rest) (hk : rest.length < k) :
    Follows ts p (symbols k) (Parser.symbols rest) := by
  refine (follows_symbol h).bind fun s r q hs hr => ?_
  refine (follows_moreSymbols hr.drop (Nat.lt_trans hs.lt hk)).bind fun ss r' q' _ hr' => ?_
  exact .pure hr'.drop

/-- A command whose first word stands next: that word, then the part that `z` reads. -/
theorem FollowsPart.given {γ : Type} {t : Token} {z : Walk γ} {f : γ → α}
    {y : Reading γ m} {k : Read Token γ m → Except Parser.Stop (Optional (Located α) n)}
    (h : ts.drop p = t :: rest) (hz : Follows ts (p + 1) z y)
    (hk : ∀ r, ∃ span hle, k r = .ok ⟨some ⟨f r.value, span⟩, r.rest, hle⟩) :
    FollowsPart ts p (advance >>= fun _ => z >>= fun a => pure (some (f a))) (y >>= k) := by
  rw [FollowsPart, Walk.result_bind_value (result_advance (getElem?_of_drop h))]
  refine Ends.bind hz fun r a q _ hr => ?_
  obtain ⟨rfl, hr⟩ := hr
  obtain ⟨span, hle, hk⟩ := hk r
  rw [hk]
  exact .value ⟨rfl, (Reaches.next h).trans hr⟩

/-- A command of one word, which stands next. -/
theorem FollowsPart.word {t : Token} {a : α} {span : Span}
    {hle : rest.length + (some (⟨a, span⟩ : Located α)).toList.length ≤ n}
    (h : ts.drop p = t :: rest) :
    FollowsPart ts p (advance >>= fun _ => pure (some a)) (.ok ⟨some ⟨a, span⟩, rest, hle⟩) := by
  rw [FollowsPart, Walk.result_bind_value (result_advance (getElem?_of_drop h))]
  exact .value ⟨rfl, .next h⟩

theorem FollowsPart.missing {hle : rest.length + (none : Option (Located α)).toList.length ≤ n}
    (h : ts.drop p = rest) : FollowsPart ts p (pure none) (.ok ⟨none, rest, hle⟩) :=
  .value ⟨rfl, .refl h⟩

theorem follows_direction (h : ts.drop p = rest) :
    Follows ts p direction (Parser.direction rest) := by
  refine (follows_advance h).bind fun t r q _ hr => ?_
  exact .ite (fun _ => .pure hr.drop) fun _ => .ite (fun _ => .pure hr.drop) fun _ => follows_wrong

/-- A command that is there if `word` stands next. -/
theorem followsPart_optional {word : String} {x : Walk (Option α)} {part : (t : Token) →
    (rest : List Token) → Reading (Located α) (rest.length + 1)}
    (h : ts.drop p = rest)
    (hx : ∀ t r, ts.drop p = t :: r → FollowsPart (n := r.length + 1) ts p x
      (part t r >>= fun a => pure ⟨some a.value, a.rest, a.lt⟩)) :
    FollowsPart ts p (peekIs word >>= fun b => if b then x else pure none)
      (Parser.optional (fun t rest => if t.text = word then some (part t rest) else none)
        rest) := by
  cases rest with
  | nil =>
    rw [FollowsPart, result_peekIs_end h]
    exact FollowsPart.missing h
  | cons t rest =>
    rw [FollowsPart, Parser.optional]
    by_cases ht : t.text = word
    · rw [result_peekIs_pos h ht, if_pos ht]
      exact hx t rest h
    · rw [result_peekIs_neg h ht, if_neg ht]
      exact FollowsPart.missing h

theorem followsPart_write (h : ts.drop p = rest) :
    FollowsPart ts p write (Parser.write rest) := by
  refine followsPart_optional h fun t r hr => ?_
  rw [bind_assoc]
  exact .given (f := id) hr (follows_symbol (Reaches.next hr).drop) fun r => ⟨_, _, rfl⟩

theorem followsPart_move (h : ts.drop p = rest) :
    FollowsPart ts p move (Parser.move rest) := by
  refine followsPart_optional h fun t r hr => ?_
  rw [bind_assoc]
  exact .given hr (follows_direction (Reaches.next hr).drop) fun r => ⟨_, _, rfl⟩

theorem followsPart_flow (h : ts.drop p = rest) :
    FollowsPart ts p flow (Parser.flow rest) := by
  rw [FollowsPart, flow, Parser.flow]
  cases rest with
  | nil =>
    rw [result_peekIs_end h, result_peekIs_end h, result_peekIs_end h]
    exact FollowsPart.missing h
  | cons t rest =>
    rw [Parser.optional]
    by_cases hg : t.text = "goto"
    · rw [result_peekIs_pos h hg, if_pos hg]
      simp only [bind_assoc]
      exact FollowsPart.given h (follows_identifier (Reaches.next h).drop) fun r => ⟨_, _, rfl⟩
    rw [result_peekIs_neg h hg, if_neg hg]
    by_cases ha : t.text = "accept"
    · rw [result_peekIs_pos h ha, if_pos ha]
      exact FollowsPart.word h
    rw [result_peekIs_neg h ha, if_neg ha]
    by_cases hr : t.text = "reject"
    · rw [result_peekIs_pos h hr, if_pos hr]
      exact FollowsPart.word h
    · rw [result_peekIs_neg h hr, if_neg hr]
      exact FollowsPart.missing h

theorem follows_noCommand {problem : String → Problem} (h : ts.drop p = rest) :
    Follows ts p (noCommand problem : Walk α) (Parser.noCommand problem rest : Reading α n) := by
  cases rest with
  | nil =>
    rw [Follows, noCommand, Walk.result_peek_bind, getElem?_of_drop_nil h]
    exact .stop _
  | cons t rest =>
    rw [Follows, noCommand, Walk.result_peek_bind, getElem?_of_drop h]
    exact .stop _

/-- The region of what was read since the cursor stood at `p`. -/
theorem Follows.spanSince {span : Span} {f : Span → Walk β} {y : Reading β n}
    (hr : Reaches ts p q rest) (hc : Covers (ts.drop p) span rest) (hf : Follows ts q (f span) y) :
    Follows ts q (spanSince p >>= f) y :=
  .of_value (result_spanSince hr hc) (.refl hr.drop) hf

/-- The end of a block of commands: the commands that are there cover the tokens since `p`, and
if none is there the block is refused. -/
theorem Follows.commands {c : Prop} [Decidable c] {spans : List Span} {x : Walk β}
    {f : Span → Walk β} {y : spans = [] → Reading β n}
    {z : (span : Span) → (more : List Span) → spans = span :: more → Reading β n}
    (hr : Reaches ts p q rest) (hchain : Chain (ts.drop p) spans rest) (hc : c ↔ spans = [])
    (hx : ∀ hs, Follows ts q x (y hs))
    (hf : ∀ (span : Span) (more : List Span) (hs : spans = span :: more),
      Follows ts q (f (span.upTo (more.getLastD span))) (z span more hs)) :
    Follows ts q (if c then x else Cursor.spanSince p >>= f)
      (match hs : spans with
        | [] => y hs
        | span :: more => z span more hs) := by
  cases spans with
  | nil =>
    rw [if_pos (hc.mpr rfl)]
    exact hx rfl
  | cons span more =>
    rw [if_neg fun h => List.cons_ne_nil span more (hc.mp h)]
    exact .spanSince hr hchain.covers (hf span more rfl)

theorem follows_basicBlock (h : ts.drop p = rest) :
    Follows ts p basicBlock (Parser.basicBlock rest) := by
  refine .of_value (q := p) rfl (.refl h) ?_
  refine (followsPart_write h).bind fun w r₁ q₁ hw h₁ => ?_
  refine (followsPart_move h₁.drop).bind fun m r₂ q₂ hm h₂ => ?_
  refine (followsPart_flow h₂.drop).bind fun f r₃ q₃ hf h₃ => ?_
  have hchain := ((Parser.takes_write.mp hw).chain.append (Parser.takes_move.mp hm).chain).append
    (Parser.takes_flow.mp hf).chain
  refine .commands ((h₁.trans h₂).trans h₃) (h ▸ hchain) ?_ (fun _ => follows_noCommand h₃.drop)
    fun _ _ _ => .pure h₃.drop
  cases w <;> cases m <;> cases f <;> simp

theorem follows_coreBlock (h : ts.drop p = rest) :
    Follows ts p coreBlock (Parser.coreBlock rest) := by
  refine .of_value (q := p) rfl (.refl h) ?_
  refine (followsPart_write h).bind fun w r₁ q₁ hw h₁ => ?_
  refine (followsPart_move h₁.drop).bind fun m r₂ q₂ hm h₂ => ?_
  have hchain := (Parser.takes_write.mp hw).chain.append (Parser.takes_move.mp hm).chain
  refine .commands (h₁.trans h₂) (h ▸ hchain) ?_ (fun _ => follows_noCommand h₂.drop)
    fun _ _ _ => .pure h₂.drop
  cases w <;> cases m <;> simp

/-! ## Blocks and cases -/

def headed (part : (t : Token) → (rest : List Token) → Reading α (rest.length + 1)) :
    (ts : List Token) → Reading α ts.length
  | [] => .error .atEnd
  | t :: rest => part t rest

def led (word : String) (part : (t : Token) → (rest : List Token) → Reading α (rest.length + 1)) :
    (ts : List Token) → Reading α ts.length :=
  headed fun t rest =>
    if t.text = word then part t rest else wrong (.expected t.text word) t.span

section Led

variable {word : String} {part : (t : Token) → (rest : List Token) → Reading α (rest.length + 1)}

theorem led_cons {t : Token} (ht : t.text = word) : led word part (t :: rest) = part t rest :=
  if_pos ht

theorem follows_led {f : Token → Walk α} (h : ts.drop p = rest)
    (hf : ∀ t r, r.length < rest.length → t.text = word → ts.drop (p + 1) = r →
      Follows ts (p + 1) (f t) (part t r)) :
    Follows ts p (expect word >>= f) (led word part rest) := by
  rw [expect, bind_assoc]
  cases rest with
  | nil => exact (follows_advance h).bind_error
  | cons t rest =>
    refine .advance h ?_
    by_cases ht : t.text = word
    · rw [led, headed, if_pos ht, if_pos ht, pure_bind]
      exact hf t rest (Nat.lt_succ_self _) ht (Reaches.next h).drop
    · rw [led, headed, if_neg ht, if_neg ht]
      exact .stop _

end Led

theorem follows_loop {k : Nat} (h : ts.drop p = rest) (hk : rest.length ≤ k) :
    Follows ts p (loop k) (led "while" Parser.caseAt rest) := by
  refine follows_led h fun start r hlt ht hr => ?_
  rw [Parser.caseAt, if_pos ht, Parser.loopAt]
  simp only [bind_assoc]
  refine .refuse hr ?_
  refine (follows_symbols hr (Nat.lt_of_lt_of_le hlt hk)).bind fun ss r₁ q₁ _ h₁ => ?_
  refine (follows_expect openBrace h₁.drop).bind fun _ r₂ q₂ _ h₂ => ?_
  refine .refuse h₂.drop ?_
  refine (follows_coreBlock h₂.drop).bind fun body r₃ q₃ _ h₃ => ?_
  refine (follows_advance h₃.drop).bind fun close r₄ q₄ _ h₄ => ?_
  by_cases hc : close.text = closeBrace
  · simp only [if_pos hc]
    exact .pure h₄.drop
  · simp only [if_neg hc]
    exact .stop _

/-! How deep the readers nest is bounded by five times the tokens that are left: readers that are
entered at one place are entered in the order blocks, block, switch, run, case and branch, and the
constants in the bounds are this order. -/

mutual

theorem follows_blocks {p n : Nat} {rest : List Token} (h : ts.drop p = rest)
    (hn : 5 * rest.length + 5 < n) : Follows ts p (blocks n) (Parser.blocks rest) := by
  match n, rest, h with
  | n + 1, [], h =>
    rw [Follows, blocks, Walk.result_peek_bind, getElem?_of_drop_nil h, Parser.blocks]
    exact .stop _
  | n + 1, t :: rest, h =>
    rw [Follows, blocks, Walk.result_peek_bind, getElem?_of_drop h, Parser.blocks]
    refine Follows.ite (fun _ => .advance h (.pure (Reaches.next h).drop)) fun _ => ?_
    refine (follows_block h (by omega)).bind fun b r q hb hr => ?_
    have hlt := hb.lt
    refine (follows_blocks hr.drop (by omega)).bind fun bs r' q' _ hr' => ?_
    exact .pure hr'.drop

theorem follows_block {p n : Nat} {rest : List Token} (h : ts.drop p = rest)
    (hn : 5 * rest.length + 4 < n) :
    Follows ts p (block n) (headed Parser.blockAt rest) := by
  match n, rest, h with
  | n + 1, [], h =>
    rw [Follows, block, result_peekIs_end h, Walk.result_peek_bind, getElem?_of_drop_nil h]
    exact (follows_basicBlock h).bind_error
  | n + 1, t :: rest, h =>
    rw [Follows, block]
    by_cases hw : t.text = "switch"
    · have hswitch := follows_switch h (show 5 * (t :: rest).length + 3 < n by omega)
      rw [led_cons hw] at hswitch
      rw [result_peekIs_pos h hw]
      exact hswitch
    rw [result_peekIs_neg h hw, Walk.result_peek_bind, getElem?_of_drop h, Option.any_some, headed]
    by_cases hs : startsCase t
    · rw [if_pos hs]
      exact follows_implicitSwitch h hs (by omega)
    · rw [if_neg hs, Parser.blockAt, if_neg hw, if_neg hs]
      exact (follows_basicBlock h).bind fun b r q _ hr => .pure hr.drop

theorem follows_switch {p n : Nat} {rest : List Token} (h : ts.drop p = rest)
    (hn : 5 * rest.length + 3 < n) :
    Follows ts p (switch n) (led "switch" Parser.blockAt rest) := by
  match n with
  | n + 1 =>
    rw [switch]
    refine follows_led h fun start r hlt ht hr => ?_
    rw [Parser.blockAt, if_pos ht]
    refine (follows_expect "tapehead" hr).bind fun _ r₁ q₁ e₁ h₁ => ?_
    refine (follows_expect openBrace h₁.drop).bind fun _ r₂ q₂ e₂ h₂ => ?_
    refine .refuse h₂.drop ?_
    have hlt₂ := Nat.lt_trans e₂.lt e₁.lt
    refine (follows_switchCases h₂.drop (by omega)).bind fun cs r₃ q₃ _ h₃ => ?_
    exact .pure h₃.drop

theorem follows_switchCases {p n : Nat} {rest : List Token} (h : ts.drop p = rest)
    (hn : 5 * rest.length + 2 < n) :
    Follows ts p (switchCases n) (Parser.switchCases rest) := by
  match n, rest, h with
  | n + 1, [], h =>
    rw [Follows, switchCases, Walk.result_peek_bind, getElem?_of_drop_nil h, Parser.switchCases]
    exact .stop _
  | n + 1, t :: rest, h =>
    rw [Follows, switchCases, Walk.result_peek_bind, getElem?_of_drop h, Parser.switchCases]
    refine Follows.ite (fun _ => .advance h (.pure (Reaches.next h).drop)) fun _ =>
      .ite (fun hs => ?_) fun _ => follows_wrong
    refine (follows_caseOf h hs (by omega)).bind fun c r q hc hr => ?_
    have hlt := hc.lt
    rw [List.length_cons] at hn
    refine (follows_switchCases hr.drop (by omega)).bind fun cs r' q' _ hr' => ?_
    exact .pure hr'.drop

theorem follows_implicitSwitch {p n : Nat} {t : Token} {rest : List Token}
    (h : ts.drop p = t :: rest) (hs : startsCase t) (hn : 5 * (t :: rest).length + 3 < n) :
    Follows ts p (implicitSwitch n) (Parser.blockAt t rest) := by
  have hw : ¬ t.text = "switch" := by
    rcases Parser.text_of_startsCase hs with h | h <;> rw [h] <;> decide
  match n with
  | n + 2 =>
    rw [implicitSwitch, Parser.blockAt, if_neg hw, if_pos hs, caseRun]
    refine .of_value (q := p) rfl (.refl h) ?_
    -- the first round of the loop is certain, so the region is not that of no tokens
    rw [Follows, bind_assoc, Walk.result_peek_bind, getElem?_of_drop h]
    simp only [if_pos hs, bind_assoc, pure_bind]
    refine Follows.bind (follows_caseOf h hs (by omega)) fun c r q hc hr => ?_
    have hlt := hc.lt
    rw [List.length_cons] at hn
    refine (follows_caseRun hr.drop (by omega)).bind fun cs r' q' hcs hr' => ?_
    have hcases :=
      (Parser.isCases_of_reads_run r hcs).1.cons (Parser.isCase_of_reads t rest hs hc)
    exact .spanSince (hr.trans hr') (h ▸ hcases.chain.covers) (.pure hr'.drop)

theorem follows_caseRun {p n : Nat} {rest : List Token} (h : ts.drop p = rest)
    (hn : 5 * rest.length + 2 < n) : Follows ts p (caseRun n) (Parser.caseRun rest) := by
  match n, rest, h with
  | n + 1, [], h =>
    rw [Follows, caseRun, Walk.result_peek_bind, getElem?_of_drop_nil h, Parser.caseRun]
    exact Follows.pure h
  | n + 1, t :: rest, h =>
    rw [Follows, caseRun, Walk.result_peek_bind, getElem?_of_drop h, Parser.caseRun]
    refine Follows.ite (fun hs => ?_) fun _ => .pure h
    refine (follows_caseOf h hs (by omega)).bind fun c r q hc hr => ?_
    have hlt := hc.lt
    rw [List.length_cons] at hn
    refine (follows_caseRun hr.drop (by omega)).bind fun cs r' q' _ hr' => ?_
    exact .pure hr'.drop

theorem follows_caseOf {p n : Nat} {t : Token} {rest : List Token} (h : ts.drop p = t :: rest)
    (hs : startsCase t) (hn : 5 * (t :: rest).length + 1 < n) :
    Follows ts p (caseOf n t) (Parser.caseAt t rest) := by
  match n with
  | n + 1 =>
    rw [caseOf]
    rcases Parser.text_of_startsCase hs with ht | ht
    · have hbranch := follows_branch h (show 5 * (t :: rest).length < n by omega)
      rw [led_cons ht] at hbranch
      rw [if_neg (by rw [ht]; decide)]
      exact hbranch
    · have hloop := follows_loop h (show (t :: rest).length ≤ n by omega)
      rw [led_cons ht] at hloop
      rw [if_pos ht]
      exact hloop

theorem follows_branch {p n : Nat} {rest : List Token} (h : ts.drop p = rest)
    (hn : 5 * rest.length < n) : Follows ts p (branch n) (led "if" Parser.caseAt rest) := by
  match n with
  | n + 1 =>
    rw [branch]
    refine follows_led h fun start r hlt ht hr => ?_
    rw [Parser.caseAt, if_neg (by rw [ht]; decide)]
    refine .refuse hr ?_
    refine (follows_symbols hr (by omega)).bind fun ss r₁ q₁ e₁ h₁ => ?_
    refine (follows_expect openBrace h₁.drop).bind fun _ r₂ q₂ e₂ h₂ => ?_
    refine .refuse h₂.drop ?_
    refine (follows_basicBlock h₂.drop).bind fun first r₃ q₃ e₃ h₃ => ?_
    have hlt₁ := e₁.lt
    have hlt₃ := Nat.lt_trans e₃.lt e₂.lt
    refine (follows_blocks h₃.drop (by omega)).bind fun bs r₄ q₄ _ h₄ => ?_
    exact .pure h₄.drop

end

/-- A run of cases stands where a case starts. -/
theorem follows_run {k : Nat} (h : ts.drop p = rest) (hs : ts[p]?.any startsCase)
    (hk : 5 * rest.length + 3 < k) :
    Follows ts p (implicitSwitch k) (headed Parser.blockAt rest) := by
  cases rest with
  | nil =>
    rw [getElem?_of_drop_nil h] at hs
    cases hs
  | cons t rest =>
    rw [getElem?_of_drop h] at hs
    exact follows_implicitSwitch h hs hk

theorem follows_module {k : Nat} (h : ts.drop p = rest) (hk : 5 * rest.length < k) :
    Follows ts p (module k) (Parser.module rest) := by
  refine (follows_expect "module" h).bind fun start r₁ q₁ e₁ h₁ => ?_
  refine (follows_identifier h₁.drop).bind fun name r₂ q₂ e₂ h₂ => ?_
  refine (follows_expect openBrace h₂.drop).bind fun _ r₃ q₃ e₃ h₃ => ?_
  refine .refuse h₃.drop ?_
  have hlt₁ := e₁.lt
  have hlt₃ := Nat.lt_trans e₃.lt e₂.lt
  refine (follows_blocks h₃.drop (by omega)).bind fun bs r₄ q₄ _ h₄ => ?_
  exact .pure h₄.drop

theorem ends_modules {p n : Nat} {rest : List Token} (h : ts.drop p = rest)
    (hn : 5 * rest.length + 1 < n) :
    Ends (fun ms ms' q => ms = ms' ∧ Reaches ts p q []) ((modules n).result ts p)
      (Parser.modules rest) := by
  match n, rest, h with
  | n + 1, [], h =>
    rw [modules, Walk.result_peek_bind, getElem?_of_drop_nil h, Parser.modules]
    exact .value ⟨rfl, .refl h⟩
  | n + 1, t :: rest, h =>
    rw [modules, Walk.result_peek_bind, getElem?_of_drop h, Parser.modules]
    refine Ends.bind (follows_module h (by omega)) fun r m q _ hr => ?_
    obtain ⟨rfl, hr⟩ := hr
    have hlt := r.lt
    refine Ends.bind (ends_modules hr.drop (by omega)) fun ms ms' q' _ hr' => ?_
    obtain ⟨rfl, hr'⟩ := hr'
    exact .value ⟨rfl, hr.trans hr'⟩

theorem ends_program {k : Nat} (hk : 5 * ts.length + 1 < k) :
    Ends (fun x x' q => x = x' ∧ Reaches ts 0 q []) ((program k).result ts 0)
      (Parser.program ts) := by
  refine Ends.bind (follows_alphabet List.drop_zero (by omega)) fun r a q _ hr => ?_
  obtain ⟨rfl, hr⟩ := hr
  rw [Walk.result_peek_bind]
  have hpeek : ts[q]?.isNone ↔ r.rest.isEmpty := by
    rw [← hr.drop, Option.isNone_iff_eq_none, List.getElem?_eq_none_iff, List.isEmpty_iff,
      List.drop_eq_nil_iff]
  by_cases hend : r.rest.isEmpty
  · simp only [hpeek.mpr hend, hend]
    exact .stop _
  · simp only [hpeek, hend]
    have hlt := r.lt
    refine Ends.bind (ends_modules hr.drop (by omega)) fun ms ms' q' _ hr' => ?_
    obtain ⟨rfl, hr'⟩ := hr'
    exact .value ⟨rfl, hr.trans hr'⟩

/-! ## Progress -/

/-- The walk ends as the reading `y` does: it stops, or it comes to a value with the cursor further
on and not past the last token. -/
structure Progresses (ts : List Token) (p : Nat) (x : Walk α) (y : Reading α n) : Prop where
  follows : Follows ts p x y
  advances : (∃ why, x.result ts p = .error (.stop why)) ∨
    ∃ a q, x.result ts p = .ok (a, q) ∧ p < q ∧ q ≤ ts.length

/-- A reader that leaves fewer tokens than it was given makes progress. -/
theorem Follows.progresses {x : Walk α} {y : Reading α (ts.drop p).length}
    (h : Follows ts p x y) : Progresses ts p x y := by
  refine ⟨h, ?_⟩
  generalize hx : x.result ts p = o
  rw [Follows, hx] at h
  cases h with
  | value h => exact .inr ⟨_, _, rfl, h.2.lt (Read.lt _)⟩
  | stop why => exact .inl ⟨why, rfl⟩

/-- On every list of tokens and from every place of it, each reader of a part that is never empty
makes progress, a run of cases if a case starts there; each loop comes to an end, with or without
a token taken; and the reading of the whole list ends as `Parser.program` does.  How deep rounds
and readers nest is bounded by the number of tokens. -/
theorem readers_progress (ts : List Token) (p n : Nat) (hn : 5 * ts.length + 5 < n) :
    Progresses ts p letter (Parser.letter (ts.drop p)) ∧
    Progresses ts p symbol (Parser.symbol (ts.drop p)) ∧
    Progresses ts p identifier (Parser.identifier (ts.drop p)) ∧
    Progresses ts p (module n) (Parser.module (ts.drop p)) ∧
    Progresses ts p (block n) (headed Parser.blockAt (ts.drop p)) ∧
    Progresses ts p basicBlock (Parser.basicBlock (ts.drop p)) ∧
    Progresses ts p coreBlock (Parser.coreBlock (ts.drop p)) ∧
    Progresses ts p (switch n) (led "switch" Parser.blockAt (ts.drop p)) ∧
    (ts[p]?.any startsCase →
      Progresses ts p (implicitSwitch n) (headed Parser.blockAt (ts.drop p))) ∧
    Progresses ts p (branch n) (led "if" Parser.caseAt (ts.drop p)) ∧
    Progresses ts p (loop n) (led "while" Parser.caseAt (ts.drop p)) ∧
    Follows ts p (moreLetters n) (Parser.moreLetters (ts.drop p)) ∧
    Follows ts p (moreSymbols n) (Parser.moreSymbols (ts.drop p)) ∧
    Follows ts p (blocks n) (Parser.blocks (ts.drop p)) ∧
    Follows ts p (switchCases n) (Parser.switchCases (ts.drop p)) ∧
    Follows ts p (caseRun n) (Parser.caseRun (ts.drop p)) ∧
    Ends (fun ms ms' q => ms = ms' ∧ Reaches ts p q []) ((modules n).result ts p)
      (Parser.modules (ts.drop p)) ∧
    Ends (fun x x' q => x = x' ∧ Reaches ts 0 q []) ((program n).result ts 0)
      (Parser.program ts) := by
  have hlen : (ts.drop p).length ≤ ts.length := (List.drop_sublist p ts).length_le
  exact ⟨(follows_letter rfl).progresses, (follows_symbol rfl).progresses,
    (follows_identifier rfl).progresses, (follows_module rfl (by omega)).progresses,
    (follows_block rfl (by omega)).progresses, (follows_basicBlock rfl).progresses,
    (follows_coreBlock rfl).progresses, (follows_switch rfl (by omega)).progresses,
    fun hs => (follows_run rfl hs (by omega)).progresses,
    (follows_branch rfl (by omega)).progresses, (follows_loop rfl (by omega)).progresses,
    follows_moreLetters rfl (by omega), follows_moreSymbols rfl (by omega),
    follows_blocks rfl (by omega), follows_switchCases rfl (by omega),
    follows_caseRun rfl (by omega), ends_modules rfl (by omega), ends_program (by omega)⟩

/-- The tokens end where the first command of a branch should stand. -/
def openBranch : List Token :=
  [⟨"if", ⟨1, 2, 1, 3⟩⟩, ⟨"a", ⟨1, 2, 4, 5⟩⟩, ⟨openBrace, ⟨1, 2, 6, 7⟩⟩]

def openCommand : List Token := openBranch ++ [⟨"changeto", ⟨1, 2, 8, 16⟩⟩]

theorem readers_progress_openBranch :
    5 * openBranch.length + 5 < 21 ∧ openBranch[0]?.any startsCase ∧
      Progresses openBranch 0 (implicitSwitch 21) (headed Parser.blockAt openBranch) ∧
      (implicitSwitch 21).result openBranch 0 = .error (.stop .atEnd) ∧
      5 * openCommand.length + 5 < 26 ∧
      Progresses openCommand 3 basicBlock (Parser.basicBlock (openCommand.drop 3)) ∧
      basicBlock.result openCommand 3 = .error (.stop .atEnd) := by
  have hs : openBranch[0]?.any startsCase := by decide
  obtain ⟨-, -, -, -, -, -, -, -, hrun, -⟩ := readers_progress openBranch 0 21 (by decide)
  obtain ⟨-, -, -, -, -, hbasic, -⟩ := readers_progress openCommand 3 26 (by decide)
  exact ⟨by decide, hs, hrun hs, rfl, by decide, hbasic, rfl⟩

end Cursor
end TapeLang
