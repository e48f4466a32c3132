import Mathlib.Data.List.Infix
import TapeLang.Proofs.Scanning

/-!
Program text as gaps and tokens.

A `Layout` cuts a text into a first gap and tokens, each with the gap after it.  The rules for
gaps and tokens look at the characters around them and not at how a scanner finds them: a comment
ends where its closing mark stands for the first time, a word cannot be made longer on either
side, and no token starts where a comment does.  What a layout leaves of a text is nothing or a
comment that is never closed.

A text has exactly one layout (`exists_arranges`, `Arranges.eq`): the one that its pieces come to,
neighbouring gaps put together (`arrange`).
-/

namespace TapeLang

/-- A gap, and tokens with the gap after each of them. -/
structure Layout where
  gap : List Char
  words : List (List Char × List Char)

namespace Layout

/-- Two slashes and all that follows up to a line feed or the end of the text. -/
def IsLineComment (comment after : List Char) : Prop :=
  ∃ body, comment = '/' :: '/' :: body ∧ '\n' ∉ body ∧ ∀ c ∈ after.head?, c = '\n'

/-- An opening mark and all that follows up to the first closing mark.  The two marks do not
share a character. -/
def IsBlockComment (comment : List Char) : Prop :=
  ∃ body, comment = '/' :: '*' :: (body ++ ['*', '/']) ∧ ¬ ['*', '/'] <:+: body ++ ['*']

def IsUnclosed (cs : List Char) : Prop :=
  ∃ body, cs = '/' :: '*' :: body ∧ ¬ ['*', '/'] <:+: body

def StartsComment (cs : List Char) : Prop := ['/', '/'] <+: cs ∨ ['/', '*'] <+: cs

/-- White space and comments in front of `after`. -/
inductive IsGap : List Char → List Char → Prop
  | nil {after} : IsGap [] after
  | space {c g after} (hc : Piece.isSpace c) (h : IsGap g after) : IsGap (c :: g) after
  | line {comment g after} (hc : IsLineComment comment (g ++ after)) (h : IsGap g after) :
    IsGap (comment ++ g) after
  | block {comment g after} (hc : IsBlockComment comment) (h : IsGap g after) :
    IsGap (comment ++ g) after

/-- A token between `before` and `after`: a word with no word character on either side, or one
character that is neither white space nor part of a word. -/
inductive IsToken (before : List Char) : List Char → List Char → Prop
  | word {w after} (hne : w ≠ []) (hw : ∀ c ∈ w, Token.isWordChar c)
    (hl : ∀ c ∈ before.getLast?, Token.isWordChar c = false)
    (hr : ∀ c ∈ after.head?, Token.isWordChar c = false) : IsToken before w after
  | single {c after} (hs : Piece.isSpace c = false) (hw : Token.isWordChar c = false)
    (hc : ¬ StartsComment (c :: after)) : IsToken before [c] after

def spell (words : List (List Char × List Char)) : List Char := words.flatMap fun w => w.1 ++ w.2

/-- Tokens and gaps that stand between `before` and `after`. -/
inductive Follows : List Char → List (List Char × List Char) → List Char → Prop
  | nil {before after} : Follows before [] after
  | cons {before t g words after} (ht : IsToken before t (g ++ spell words ++ after))
    (hg : IsGap g (spell words ++ after)) (h : Follows (before ++ t ++ g) words after) :
    Follows before ((t, g) :: words) after

def text (l : Layout) : List Char := l.gap ++ spell l.words

/-- A layout of the text between `before` and `after`. -/
structure Fits (l : Layout) (before after : List Char) : Prop where
  gap : IsGap l.gap (spell l.words ++ after)
  words : Follows (before ++ l.gap) l.words after

end Layout

/-! ## Cutting -/

namespace Piece

theorem closing_append {seen : Nat} {body : List Char} (after : List Char)
    (h : ¬ ['*', '/'] <:+: body ++ ['*']) :
    closing seen (body ++ '*' :: '/' :: after) = some (seen + body.length + 2) := by
  induction body generalizing seen with
  | nil => rfl
  | cons c body ih =>
    rw [List.cons_append, List.infix_cons_iff, not_or] at h
    have hrest : ¬ ∃ rest, c = '*' ∧ body ++ '*' :: '/' :: after = '/' :: rest := by
      rintro ⟨rest, rfl, hbody⟩
      cases body with
      | nil => cases hbody
      | cons d body =>
        obtain ⟨rfl, -⟩ := List.cons.inj hbody
        exact h.1 ⟨body ++ ['*'], rfl⟩
    rw [List.cons_append, closing]
    · rw [ih h.2, List.length_cons]
      congr 1
      omega
    · intro rest hc hbody
      exact hrest ⟨rest, hc, hbody⟩

/-- Where the first closing mark stands, if there is one. -/
theorem closing_cases (seen : Nat) (cs : List Char) :
    (∃ body after, cs = body ++ '*' :: '/' :: after ∧ ¬ ['*', '/'] <:+: body ++ ['*'] ∧
      closing seen cs = some (seen + body.length + 2)) ∨
    (¬ ['*', '/'] <:+: cs ∧ closing seen cs = none) := by
  induction cs generalizing seen with
  | nil => exact .inr ⟨by simp, rfl⟩
  | cons c cs ih =>
    by_cases hmark : ['*', '/'] <+: c :: cs
    · obtain ⟨after, hafter⟩ := hmark
      rw [← hafter]
      exact .inl ⟨[], after, rfl, by decide, rfl⟩
    · have hclosing : closing seen (c :: cs) = closing (seen + 1) cs := by
        rw [closing]
        rintro rest rfl rfl
        exact hmark ⟨rest, rfl⟩
      rw [hclosing]
      rcases ih (seen + 1) with ⟨body, after, rfl, hbody, hn⟩ | ⟨hcs, hn⟩
      · refine .inl ⟨c :: body, after, rfl, ?_, ?_⟩
        · rw [List.cons_append, List.infix_cons_iff, not_or]
          refine ⟨fun hprefix => hmark ?_, hbody⟩
          exact hprefix.trans ⟨'/' :: after, by simp⟩
        · rw [hn, List.length_cons]
          congr 1
          omega
      · exact .inr ⟨List.infix_cons_iff.not.mpr (not_or.mpr ⟨hmark, hcs⟩), hn⟩

/-- Everything that the first piece of a text can be, and what is left of the text. -/
inductive Cut : List Char → Piece × List Char → Prop
  | space {g after} (hne : g ≠ []) (hg : ∀ c ∈ g, isSpace c)
    (hr : ∀ c ∈ after.head?, isSpace c = false) : Cut (g ++ after) (⟨.gap, g⟩, after)
  | line {comment after} (h : Layout.IsLineComment comment after) :
    Cut (comment ++ after) (⟨.gap, comment⟩, after)
  | block {comment after} (h : Layout.IsBlockComment comment) :
    Cut (comment ++ after) (⟨.gap, comment⟩, after)
  | unclosed {cs} (h : Layout.IsUnclosed cs) : Cut cs (⟨.unclosed, cs⟩, [])
  | word {w after} (hne : w ≠ []) (hw : ∀ c ∈ w, Token.isWordChar c)
    (hr : ∀ c ∈ after.head?, Token.isWordChar c = false) :
    Cut (w ++ after) (⟨.lexeme, w⟩, after)
  | single {c after} (hs : isSpace c = false) (hw : Token.isWordChar c = false)
    (hc : ¬ Layout.StartsComment (c :: after)) : Cut (c :: after) (⟨.lexeme, [c]⟩, after)

section Run

variable {p : Char → Bool} {run after : List Char}

theorem takeWhile_run (h : ∀ c ∈ run, p c) (hr : ∀ c ∈ after.head?, p c = false) :
    (run ++ after).takeWhile p = run := by
  rw [List.takeWhile_append_of_pos h]
  cases after with
  | nil => exact List.append_nil run
  | cons c after =>
    have hc : ¬ p c = true := by simp [hr c rfl]
    rw [List.takeWhile_cons_of_neg hc, List.append_nil]

theorem dropWhile_run (h : ∀ c ∈ run, p c) (hr : ∀ c ∈ after.head?, p c = false) :
    (run ++ after).dropWhile p = after := by
  rw [List.dropWhile_append_of_pos h]
  cases after with
  | nil => rfl
  | cons c after =>
    have hc : ¬ p c = true := by simp [hr c rfl]
    exact List.dropWhile_cons_of_neg hc

theorem of_mem_takeWhile (cs : List Char) : ∀ c ∈ cs.takeWhile p, p c :=
  List.all_eq_true.mp List.all_takeWhile

theorem of_mem_head?_dropWhile (cs : List Char) : ∀ c ∈ (cs.dropWhile p).head?, p c = false := by
  intro c hc
  have h := List.head?_dropWhile_not p cs
  rwa [Option.mem_def.mp hc] at h

end Run

theorem startsComment_cons {c : Char} {cs : List Char} :
    Layout.StartsComment (c :: cs) ↔ c = '/' ∧ (cs.head? = some '/' ∨ cs.head? = some '*') := by
  have hslash : ∀ d : Char, ['/', d] <+: c :: cs ↔ c = '/' ∧ cs.head? = some d := by
    intro d
    cases cs with
    | nil => simp
    | cons e cs => simp [List.cons_prefix_cons, eq_comm]
  rw [Layout.StartsComment, hslash, hslash, and_or_left]

/-- The first piece that is cut off is one of these. -/
theorem cut_spec (c : Char) (rest : List Char) : Cut (c :: rest) (cut c rest) := by
  unfold cut
  by_cases hspace : isSpace c
  · rw [if_pos hspace]
    have h : Cut ((c :: rest.takeWhile isSpace) ++ rest.dropWhile isSpace) _ :=
      .space (List.cons_ne_nil _ _)
        (List.forall_mem_cons.mpr ⟨hspace, of_mem_takeWhile rest⟩) (of_mem_head?_dropWhile rest)
    rwa [List.cons_append, List.takeWhile_append_dropWhile] at h
  rw [if_neg hspace]
  by_cases hline : c = '/' ∧ rest.head? = some '/'
  · rw [if_pos hline]
    obtain ⟨rfl, hrest⟩ := hline
    obtain ⟨body, rfl⟩ : ∃ body, rest = '/' :: body := List.head?_eq_some_iff.mp hrest
    have htake : ('/' :: body).takeWhile (· ≠ '\n') = '/' :: body.takeWhile (· ≠ '\n') := rfl
    have hdrop : ('/' :: body).dropWhile (· ≠ '\n') = body.dropWhile (· ≠ '\n') := rfl
    have h : Cut (('/' :: '/' :: body.takeWhile (· ≠ '\n')) ++ body.dropWhile (· ≠ '\n')) _ :=
      .line ⟨_, rfl, fun hmem => by simpa using of_mem_takeWhile _ _ hmem,
        fun d hd => by simpa using of_mem_head?_dropWhile _ d hd⟩
    rwa [List.cons_append, List.cons_append, List.takeWhile_append_dropWhile] at h
  rw [if_neg hline]
  by_cases hblock : c = '/' ∧ rest.head? = some '*'
  · rw [if_pos hblock]
    obtain ⟨rfl, hrest⟩ := hblock
    obtain ⟨body, rfl⟩ : ∃ body, rest = '*' :: body := List.head?_eq_some_iff.mp hrest
    rw [List.tail_cons]
    rcases closing_cases 1 body with ⟨inner, after, rfl, hinner, hn⟩ | ⟨hbody, hn⟩
    · rw [hn]
      have hsplit : '*' :: (inner ++ '*' :: '/' :: after) =
          ('*' :: inner ++ ['*', '/']) ++ after := by
        simp
      have hlength : ('*' :: inner ++ ['*', '/']).length = 1 + inner.length + 2 := by
        simp
        omega
      dsimp only
      rw [hsplit, List.take_left' hlength, List.drop_left' hlength]
      exact .block ⟨inner, rfl, hinner⟩
    · rw [hn]
      exact .unclosed ⟨body, rfl, hbody⟩
  rw [if_neg hblock]
  by_cases hword : Token.isWordChar c
  · rw [if_pos hword]
    have h : Cut ((c :: rest.takeWhile Token.isWordChar) ++ rest.dropWhile Token.isWordChar) _ :=
      .word (List.cons_ne_nil _ _)
        (List.forall_mem_cons.mpr ⟨hword, of_mem_takeWhile rest⟩) (of_mem_head?_dropWhile rest)
    rwa [List.cons_append, List.takeWhile_append_dropWhile] at h
  · rw [if_neg hword]
    refine .single (Bool.eq_false_iff.mpr hspace) (Bool.eq_false_iff.mpr hword) ?_
    rw [startsComment_cons, and_or_left, not_or]
    exact ⟨hline, hblock⟩

theorem pieces_nil : pieces [] = [] := by rw [pieces]

/-- What can be cut off a text is what is cut off. -/
theorem Cut.pieces_eq {cs after : List Char} {piece : Piece} (h : Cut cs (piece, after)) :
    pieces cs = piece :: pieces after := by
  cases h with
  | @space g _ hne hg hr =>
    obtain ⟨c, g, rfl⟩ := List.exists_cons_of_ne_nil hne
    obtain ⟨hc, hg⟩ := List.forall_mem_cons.mp hg
    rw [List.cons_append, pieces, cut, if_pos hc, takeWhile_run hg hr, dropWhile_run hg hr]
  | line h =>
    obtain ⟨body, rfl, hbody, hr⟩ := h
    have hrun : ∀ c ∈ '/' :: body, (decide (c ≠ '\n')) = true := by
      intro c hc
      refine decide_eq_true ?_
      rintro rfl
      rcases List.mem_cons.mp hc with h | h
      · cases h
      · exact hbody h
    have hend : ∀ c ∈ after.head?, (decide (c ≠ '\n')) = false := by
      intro c hc
      rw [hr c hc]
      rfl
    rw [List.cons_append, pieces, cut, if_neg (by decide), if_pos ⟨rfl, rfl⟩,
      takeWhile_run hrun hend, dropWhile_run hrun hend]
  | block h =>
    obtain ⟨body, rfl, hbody⟩ := h
    have hsplit : '*' :: (body ++ ['*', '/']) ++ after = '*' :: (body ++ '*' :: '/' :: after) := by
      simp
    have hlength : ('*' :: (body ++ ['*', '/'])).length = 1 + body.length + 2 := by
      simp
      omega
    rw [List.cons_append, pieces, cut, if_neg (by decide), if_neg (by simp),
      if_pos ⟨rfl, rfl⟩, hsplit, List.tail_cons, closing_append after hbody, ← hsplit]
    dsimp only
    rw [List.take_left' hlength, List.drop_left' hlength]
  | unclosed h =>
    obtain ⟨body, rfl, hbody⟩ := h
    have hclosing : closing 1 body = none := by
      rcases closing_cases 1 body with ⟨inner, after, rfl, -⟩ | ⟨-, hn⟩
      · exact absurd ⟨inner, after, by simp⟩ hbody
      · exact hn
    rw [pieces_nil, pieces, cut, if_neg (by decide), if_neg (by simp), if_pos ⟨rfl, rfl⟩,
      List.tail_cons, hclosing]
    dsimp only
    rw [pieces_nil]
  | @word w _ hne hw hr =>
    obtain ⟨c, w, rfl⟩ := List.exists_cons_of_ne_nil hne
    obtain ⟨hc, hw⟩ := List.forall_mem_cons.mp hw
    have hslash := ne_slash_of_isWordChar hc
    rw [List.cons_append, pieces, cut, if_neg (by simp [isSpace_eq_false_of_isWordChar hc]),
      if_neg (by simp [hslash]), if_neg (by simp [hslash]), if_pos hc, takeWhile_run hw hr,
      dropWhile_run hw hr]
  | single hs hw hc =>
    rw [startsComment_cons, and_or_left, not_or] at hc
    rw [pieces, cut, if_neg (by simp [hs]), if_neg hc.1, if_neg hc.2, if_neg (by simp [hw])]

end Piece

/-! ## One layout for each text -/

namespace Layout

def addGap (g : List Char) (x : Layout × List Char) : Layout × List Char :=
  (⟨g ++ x.1.gap, x.1.words⟩, x.2)

def addToken (t : List Char) (x : Layout × List Char) : Layout × List Char :=
  (⟨[], (t, x.1.gap) :: x.1.words⟩, x.2)

/-- The layout that pieces come to, and the comment that is not closed or nothing. -/
def arrange : List Piece → Layout × List Char
  | [] => (⟨[], []⟩, [])
  | piece :: rest =>
    match piece.role with
    | .gap => addGap piece.text (arrange rest)
    | .lexeme => addToken piece.text (arrange rest)
    | .unclosed => (⟨[], []⟩, piece.text)

/-- A layout of `text` up to what it leaves, which is nothing or a comment that is not closed. -/
structure Arranges (before text : List Char) (x : Layout × List Char) : Prop where
  fits : x.1.Fits before x.2
  ends : x.2 = [] ∨ IsUnclosed x.2
  text_eq : x.1.text ++ x.2 = text

def Apart (before after : List Char) : Prop :=
  ∀ c ∈ before.getLast?, ∀ d ∈ after.head?, Token.isWordChar c → Token.isWordChar d = false

theorem IsGap.spaces {g g' after : List Char} (hg : ∀ c ∈ g, Piece.isSpace c)
    (h : IsGap g' after) : IsGap (g ++ g') after := by
  induction g with
  | nil => exact h
  | cons c g ih =>
    obtain ⟨hc, hg⟩ := List.forall_mem_cons.mp hg
    exact .space hc (ih hg)

theorem arranges_addGap {before g text : List Char} {x : Layout × List Char}
    (hg : IsGap x.1.gap (spell x.1.words ++ x.2) → IsGap (g ++ x.1.gap) (spell x.1.words ++ x.2))
    (h : Arranges (before ++ g) text x) : Arranges before (g ++ text) (addGap g x) := by
  refine ⟨⟨hg h.fits.gap, ?_⟩, h.ends, ?_⟩
  · have hwords := h.fits.words
    rwa [List.append_assoc] at hwords
  · rw [← h.text_eq]
    simp [addGap, Layout.text]

theorem arranges_addToken {before t text : List Char} {x : Layout × List Char}
    (ht : IsToken before t text) (h : Arranges (before ++ t) text x) :
    Arranges before (t ++ text) (addToken t x) := by
  refine ⟨⟨.nil, ?_⟩, h.ends, ?_⟩
  · have htext : x.1.gap ++ spell x.1.words ++ x.2 = text := h.text_eq
    refine .cons ?_ h.fits.gap ?_
    · show IsToken (before ++ []) t (x.1.gap ++ spell x.1.words ++ x.2)
      rwa [htext, List.append_nil]
    · show Follows (before ++ [] ++ t ++ x.1.gap) x.1.words x.2
      rw [List.append_nil]
      exact h.fits.words
  · rw [← h.text_eq]
    simp [addToken, Layout.text, spell]

theorem apart_of_head {before after : List Char}
    (h : ∀ d ∈ after.head?, Token.isWordChar d = false) : Apart before after :=
  fun _ _ d hd _ => h d hd

theorem apart_of_last {before g after : List Char} (hne : g ≠ [])
    (h : ∀ c ∈ g.getLast?, Token.isWordChar c = false) : Apart (before ++ g) after := by
  intro c hc d _ hword
  rw [List.getLast?_append_of_ne_nil _ hne] at hc
  rw [h c hc] at hword
  cases hword

theorem isWordChar_eq_false_of_isSpace {c : Char} (h : Piece.isSpace c) :
    Token.isWordChar c = false := by
  rw [Bool.eq_false_iff]
  intro hw
  rw [isSpace_eq_false_of_isWordChar hw] at h
  cases h

theorem isToken_word {before w after : List Char} (hne : w ≠ [])
    (hw : ∀ c ∈ w, Token.isWordChar c) (hr : ∀ c ∈ after.head?, Token.isWordChar c = false)
    (h : Apart before (w ++ after)) : IsToken before w after := by
  refine .word hne hw (fun c hc => ?_) hr
  obtain ⟨d, w, rfl⟩ := List.exists_cons_of_ne_nil hne
  rw [Bool.eq_false_iff]
  intro hword
  have hd := h c hc d rfl hword
  rw [hw d List.mem_cons_self] at hd
  cases hd

/-- The pieces of a text come to a layout of it. -/
theorem arranges_arrange {before cs : List Char} (h : Apart before cs) :
    Arranges before cs (arrange (Piece.pieces cs)) := by
  fun_induction Piece.pieces cs generalizing before with
  | case1 => exact ⟨⟨.nil, .nil⟩, .inl rfl, rfl⟩
  | case2 c rest ih =>
    have hcut := Piece.cut_spec c rest
    generalize c :: rest = cs, Piece.cut c rest = cut at hcut h ih
    cases hcut with
    | @space g after hne hg hr =>
      refine arranges_addGap (IsGap.spaces hg) (ih (apart_of_last hne fun c hc => ?_))
      exact isWordChar_eq_false_of_isSpace (hg c (List.mem_of_getLast? hc))
    | @line comment after hc =>
      have happart : Apart (before ++ comment) after := by
        refine apart_of_head fun d hd => ?_
        obtain ⟨_, -, -, hr⟩ := hc
        rw [hr d hd]
        rfl
      have hrest := ih happart
      refine arranges_addGap (fun hg => .line ?_ hg) hrest
      rw [← List.append_assoc]
      exact hrest.text_eq.symm ▸ hc
    | @block comment after hc =>
      refine arranges_addGap (.block hc) (ih ?_)
      obtain ⟨body, rfl, -⟩ := hc
      refine apart_of_last (List.cons_ne_nil _ _) fun c hc => ?_
      rw [show '/' :: '*' :: (body ++ ['*', '/']) = '/' :: '*' :: (body ++ ['*']) ++ ['/'] by simp,
        List.getLast?_concat] at hc
      obtain rfl := Option.some.inj hc
      rfl
    | unclosed hc => exact ⟨⟨.nil, .nil⟩, .inr hc, rfl⟩
    | @word w after hne hw hr =>
      exact arranges_addToken (isToken_word hne hw hr h) (ih (apart_of_head hr))
    | @single c after hs hw hc =>
      refine arranges_addToken (.single hs hw hc) (ih ?_)
      refine apart_of_last (List.cons_ne_nil _ _) fun d hd => ?_
      obtain rfl : c = d := Option.some.inj hd
      exact hw

/-- Every text has a layout. -/
theorem exists_arranges (text : List Char) : ∃ l rest, Arranges [] text (l, rest) := by
  have h : Apart [] text := nofun
  exact ⟨_, _, arranges_arrange h⟩

theorem addGap_addGap (g g' : List Char) (x : Layout × List Char) :
    addGap g (addGap g' x) = addGap (g ++ g') x := by
  simp [addGap]

/-- White space goes into the gap that follows it. -/
theorem arrange_space {c : Char} (hc : Piece.isSpace c) (cs : List Char) :
    arrange (Piece.pieces (c :: cs)) = addGap [c] (arrange (Piece.pieces cs)) := by
  -- The first piece is all of the white space, so two cuts are compared if there is more of it.
  by_cases hr : ∀ d ∈ cs.head?, Piece.isSpace d = false
  · have hone : ∀ d ∈ [c], Piece.isSpace d := fun d hd => List.mem_singleton.mp hd ▸ hc
    rw [← List.singleton_append, (Piece.Cut.space (List.cons_ne_nil c []) hone hr).pieces_eq,
      arrange]
  · obtain ⟨d, hd, hspace⟩ : ∃ d ∈ cs.head?, Piece.isSpace d := by simpa using hr
    obtain ⟨cs, rfl⟩ := List.head?_eq_some_iff.mp hd
    have hall : ∀ e ∈ d :: cs.takeWhile Piece.isSpace, Piece.isSpace e :=
      List.forall_mem_cons.mpr ⟨hspace, Piece.of_mem_takeWhile cs⟩
    have hend := Piece.of_mem_head?_dropWhile (p := Piece.isSpace) cs
    have hcs : d :: cs = (d :: cs.takeWhile Piece.isSpace) ++ cs.dropWhile Piece.isSpace := by
      rw [List.cons_append, List.takeWhile_append_dropWhile]
    have hshort := (Piece.Cut.space (List.cons_ne_nil _ _) hall hend).pieces_eq
    have hlong := (Piece.Cut.space (List.cons_ne_nil c _)
      (List.forall_mem_cons.mpr ⟨hc, hall⟩) hend).pieces_eq
    rw [hcs, hshort, ← List.cons_append, hlong, arrange, arrange, addGap_addGap]
    rfl

theorem IsGap.arrange_eq {g after : List Char} (h : IsGap g after) :
    arrange (Piece.pieces (g ++ after)) = addGap g (arrange (Piece.pieces after)) := by
  induction h with
  | nil => rfl
  | @space c g after hc _ ih => rw [List.cons_append, arrange_space hc, ih, addGap_addGap]; rfl
  | @line comment g after hc _ ih =>
    rw [List.append_assoc, (Piece.Cut.line hc).pieces_eq, arrange, ih, addGap_addGap]
  | @block comment g after hc _ ih =>
    rw [List.append_assoc, (Piece.Cut.block hc).pieces_eq, arrange, ih, addGap_addGap]

theorem IsToken.arrange_eq {before t after : List Char} (h : IsToken before t after) :
    arrange (Piece.pieces (t ++ after)) = addToken t (arrange (Piece.pieces after)) := by
  cases h with
  | word hne hw _ hr => rw [(Piece.Cut.word hne hw hr).pieces_eq, arrange]
  | single hs hw hc => rw [List.singleton_append, (Piece.Cut.single hs hw hc).pieces_eq, arrange]

theorem Follows.arrange_eq {before after : List Char} {words : List (List Char × List Char)}
    (h : Follows before words after) (hafter : after = [] ∨ IsUnclosed after) :
    arrange (Piece.pieces (spell words ++ after)) = (⟨[], words⟩, after) := by
  induction h with
  | nil =>
    rcases hafter with rfl | hc
    · rw [spell, List.flatMap_nil, List.append_nil, Piece.pieces_nil, arrange]
    · rw [spell, List.flatMap_nil, List.nil_append, (Piece.Cut.unclosed hc).pieces_eq, arrange]
  | @cons before t g words after ht hg _ ih =>
    have hspell : spell ((t, g) :: words) ++ after = t ++ (g ++ spell words ++ after) := by
      simp [spell]
    rw [hspell, ht.arrange_eq, List.append_assoc, hg.arrange_eq, ih hafter]
    simp [addGap, addToken]

/-- There is no other layout. -/
theorem Arranges.eq {before text : List Char} {x : Layout × List Char}
    (h : Arranges before text x) : x = arrange (Piece.pieces text) := by
  have hgap := h.fits.gap.arrange_eq
  rw [h.fits.words.arrange_eq h.ends, ← List.append_assoc] at hgap
  have htext : x.1.gap ++ spell x.1.words ++ x.2 = text := h.text_eq
  rw [← htext, hgap]
  simp [addGap]

end Layout
end TapeLang
