import Mathlib.Data.Prod.Lex
import TapeLang.Proofs.Layout

/-!
Lines and columns of a text.

The place after some text is found by counting: one line for every line break, and one column for
every character after the last one.  A position that is moved over further text gets to the place
after all of it (`Position.ofText_append`), so the region of a token says where the token stands
in the text, and scanning a text gives the tokens of its layout at their regions.  No token starts
before the one in front of it has ended (`Token.InOrder`).
-/

namespace TapeLang

namespace Position

/-- Line breaks are line feeds.  A carriage return in front of one belongs to it, and any other is
a character of its line. -/
def lineBreaks : List Char → Nat
  | '\r' :: '\n' :: cs => lineBreaks cs + 1
  | '\n' :: cs => lineBreaks cs + 1
  | _ :: cs => lineBreaks cs
  | [] => 0

/-- The characters after the last line break. -/
def lastLine (cs : List Char) : List Char := (cs.reverse.takeWhile (· ≠ '\n')).reverse

/-- The place after a text. -/
def ofText (cs : List Char) : Position := ⟨lineBreaks cs + 1, (lastLine cs).length + 1⟩

theorem lineBreaks_eq_count (cs : List Char) : lineBreaks cs = cs.count '\n' := by
  fun_induction lineBreaks cs with
  | case1 cs ih => rw [ih, List.count_cons_of_ne (by decide), List.count_cons_self]
  | case2 cs ih => rw [ih, List.count_cons_self]
  | case3 c cs _ hc ih => rw [ih, List.count_cons_of_ne hc]
  | case4 => rfl

/-- One more character moves the place after a text as it moves any place. -/
theorem ofText_concat (cs : List Char) (c : Char) : ofText (cs ++ [c]) = (ofText cs).advance c := by
  rw [ofText, ofText, advance, lineBreaks_eq_count, lineBreaks_eq_count, List.count_append,
    lastLine, lastLine, List.reverse_append, List.reverse_singleton, List.singleton_append]
  by_cases hc : c = '\n'
  · subst hc
    rfl
  · have hcount : [c].count '\n' = 0 := List.count_cons_of_ne hc
    rw [if_neg hc, List.takeWhile_cons_of_pos (by simpa using hc), hcount]
    simp

theorem ofText_append (cs ds : List Char) : ofText (cs ++ ds) = (ofText cs).after ds := by
  induction ds generalizing cs with
  | nil => rw [List.append_nil, after_nil]
  | cons d ds ih => rw [List.append_cons, ih, ofText_concat, after_cons]

example : ofText "a\r\nb\rc".toList = ⟨2, 4⟩ := by decide

/-- A text without line breaks takes one column for each of its characters. -/
theorem after_of_notMem (p : Position) {cs : List Char} (h : '\n' ∉ cs) :
    p.after cs = ⟨p.line, p.column + cs.length⟩ := by
  induction cs generalizing p with
  | nil => rfl
  | cons c cs ih =>
    rw [List.mem_cons, not_or] at h
    rw [after_cons, ih _ h.2, advance, if_neg (Ne.symm h.1), List.length_cons]
    congr 1
    dsimp only
    omega

end Position

namespace Position

/-- The line decides first. -/
instance : PartialOrder Position :=
  .lift (fun p => toLex (p.line, p.column)) fun p q h => by
    cases p
    cases q
    simpa using h

theorem lt_iff {p q : Position} :
    p < q ↔ p.line < q.line ∨ p.line = q.line ∧ p.column < q.column :=
  Prod.Lex.toLex_lt_toLex

theorem lt_advance (p : Position) (c : Char) : p < p.advance c := by
  rw [lt_iff, advance]
  split
  · exact .inl (Nat.lt_succ_self _)
  · exact .inr ⟨rfl, Nat.lt_succ_self _⟩

theorem le_after (p : Position) (cs : List Char) : p ≤ p.after cs := by
  induction cs generalizing p with
  | nil => exact le_rfl
  | cons c cs ih => exact (p.lt_advance c).le.trans (ih (p.advance c))

theorem lt_after (p : Position) {cs : List Char} (h : cs ≠ []) : p < p.after cs := by
  obtain ⟨c, cs, rfl⟩ := List.exists_cons_of_ne_nil h
  exact (p.lt_advance c).trans_le ((p.advance c).le_after cs)

end Position

namespace Span

def start (s : Span) : Position := ⟨s.startLine, s.startColumn⟩

/-- The end of a region, whose end line is one too far. -/
def finish (s : Span) : Position := ⟨s.endLine - 1, s.endColumn⟩

end Span

/-! ## The tokens of a layout -/

namespace Layout

/-- The region of a token that stands after `before`: one line, and a column for each of its
characters. -/
def region (before t : List Char) : Span :=
  ⟨(Position.ofText before).line, (Position.ofText before).line + 1,
    (Position.ofText before).column, (Position.ofText before).column + t.length⟩

/-- Tokens with their regions, the first one standing after `before`. -/
def place (before : List Char) : List (List Char × List Char) → List Token
  | [] => []
  | (t, g) :: words => ⟨String.ofList t, region before t⟩ :: place (before ++ t ++ g) words

def tokens (l : Layout) : List Token := place l.gap l.words

theorem region_eq {before t : List Char} (h : '\n' ∉ t) :
    region before t = .between (.ofText before) (.ofText (before ++ t)) := by
  rw [Position.ofText_append, Position.after_of_notMem _ h]
  rfl

/-- What scanning comes to if the text after `before` has the layout `x.1` and `x.2` is left. -/
def scanned (before : List Char) (x : Layout × List Char) : Except Report (List Token) :=
  if x.2 = [] then .ok (place (before ++ x.1.gap) x.1.words)
  else .error ⟨.unclosedComment,
    .between (.ofText (before ++ x.1.text)) (.ofText (before ++ x.1.text ++ x.2))⟩

theorem scanned_addGap (before g : List Char) (x : Layout × List Char) :
    scanned before (addGap g x) = scanned (before ++ g) x := by
  simp [scanned, addGap, Layout.text]

theorem scanned_addToken (before t : List Char) (x : Layout × List Char) :
    scanned before (addToken t x) =
      (scanned (before ++ t) x).map (⟨String.ofList t, region before t⟩ :: ·) := by
  by_cases h : x.2 = []
  · simp [scanned, h, addToken, place, Except.map]
  · simp [scanned, h, addToken, Layout.text, spell, Except.map]

end Layout

namespace Piece

/-- No piece is empty, and no token goes over the end of a line. -/
theorem text_of_mem_pieces {cs : List Char} {piece : Piece} (h : piece ∈ pieces cs) :
    piece.text ≠ [] ∧ (piece.role = .lexeme → '\n' ∉ piece.text) := by
  fun_induction pieces cs with
  | case1 => cases h
  | case2 c rest ih =>
    rcases List.mem_cons.mp h with rfl | h
    · have hcut := cut_spec c rest
      generalize c :: rest = cs, cut c rest = x at hcut
      cases hcut with
      | space hne _ _ => exact ⟨hne, fun hrole => by cases hrole⟩
      | line hc =>
        obtain ⟨_, rfl, -⟩ := hc
        exact ⟨List.cons_ne_nil _ _, fun hrole => by cases hrole⟩
      | block hc =>
        obtain ⟨_, rfl, -⟩ := hc
        exact ⟨List.cons_ne_nil _ _, fun hrole => by cases hrole⟩
      | unclosed hc =>
        obtain ⟨_, rfl, -⟩ := hc
        exact ⟨List.cons_ne_nil _ _, fun hrole => by cases hrole⟩
      | word hne hw _ => exact ⟨hne, fun _ hmem => absurd (hw _ hmem) (by decide)⟩
      | single hs _ _ =>
        refine ⟨List.cons_ne_nil _ _, fun _ hmem => ?_⟩
        rw [← List.mem_singleton.mp hmem] at hs
        exact absurd hs (by decide)
    · exact ih h

end Piece

namespace Token

open Layout

/-- Scanning pieces gives the tokens of the layout they come to. -/
theorem ofPieces_eq {ps : List Piece}
    (h : ∀ piece ∈ ps, piece.text ≠ [] ∧ (piece.role = .lexeme → '\n' ∉ piece.text))
    (before : List Char) :
    ofPieces (.ofText before) ps = scanned before (arrange ps) := by
  induction ps generalizing before with
  | nil => rfl
  | cons piece ps ih =>
    obtain ⟨role, text⟩ := piece
    obtain ⟨⟨hne, hline⟩, hps⟩ := List.forall_mem_cons.mp h
    have hrest := ih hps (before ++ text)
    rw [Position.ofText_append] at hrest
    cases role with
    | gap => rw [ofPieces_gap, hrest, arrange, scanned_addGap]
    | lexeme =>
      rw [ofPieces, hrest, arrange, scanned_addToken, region_eq (hline rfl),
        Position.ofText_append]
      cases scanned (before ++ text) (arrange ps) <;> rfl
    | unclosed =>
      rw [ofPieces, arrange, scanned, if_neg hne, Layout.text, spell, List.flatMap_nil,
        List.append_nil, List.append_nil, Position.ofText_append]

theorem scan_eq (text : String) :
    scan text = scanned [] (arrange (Piece.pieces text.toList)) :=
  ofPieces_eq (fun _ => Piece.text_of_mem_pieces) []

theorem scan_of_arranges {text : String} {x : Layout × List Char}
    (h : Arranges [] text.toList x) : scan text = scanned [] x := by
  rw [scan_eq, ← h.eq]

theorem scanned_unclosed {l : Layout} {comment : List Char} (h : IsUnclosed comment) :
    scanned [] (l, comment) =
      .error ⟨.unclosedComment, .between (.ofText l.text) (.ofText (l.text ++ comment))⟩ := by
  obtain ⟨body, rfl, -⟩ := h
  rfl

/-- Scanning succeeds if the layout of the text leaves nothing, and otherwise reports the comment
that is left. -/
theorem scan_cases (text : String) :
    (∃ l : Layout, Arranges [] text.toList (l, []) ∧ scan text = .ok l.tokens) ∨
    ∃ (l : Layout) (comment : List Char), Arranges [] text.toList (l, comment) ∧
      IsUnclosed comment ∧
      scan text = .error ⟨.unclosedComment, .between (.ofText l.text) (.ofText text.toList)⟩ := by
  obtain ⟨l, rest, h⟩ := exists_arranges text.toList
  rcases h.ends with hrest | hrest
  · obtain rfl : rest = [] := hrest
    exact .inl ⟨l, h, scan_of_arranges h⟩
  · refine .inr ⟨l, rest, h, hrest, ?_⟩
    rw [scan_of_arranges h, scanned_unclosed hrest, h.text_eq]

theorem kind_eq_keyword_iff {t : Token} : t.kind = .keyword ↔ t.text ∈ keywords := by
  unfold kind Kind.ofText
  by_cases hk : t.text ∈ keywords
  · simp [hk]
  · rw [if_neg hk]
    split_ifs <;> simp [hk]

theorem kind_eq_word_iff {t : Token} :
    t.kind = .word ↔ t.text ∉ keywords ∧ ∀ c ∈ t.text.toList, isWordChar c := by
  rw [← List.all_eq_true]
  unfold kind Kind.ofText
  by_cases hk : t.text ∈ keywords
  · simp [hk]
  · by_cases hw : t.text.toList.all isWordChar
    · simp [hk, hw]
    · rw [if_neg hk, if_neg hw]
      split_ifs <;> simp [hw]

theorem kind_eq_punctuation_iff {t : Token} : t.kind = .punctuation ↔ t.text ∈ marks := by
  have hmarks : ∀ m ∈ marks, m ∉ keywords ∧ ¬ m.toList.all isWordChar := by decide
  unfold kind Kind.ofText
  by_cases hm : t.text ∈ marks
  · obtain ⟨hk, hw⟩ := hmarks _ hm
    rw [if_neg hk, if_neg hw, if_pos hm]
    exact iff_of_true rfl hm
  · rw [if_neg hm]
    split_ifs <;> simp [hm]

/-- A text is scanned exactly if it can be laid out as gaps and tokens, in one way only, and its
tokens are those of the layout in their order, a keyword being one of the reserved words.
Otherwise such a layout stands in front of a comment without an end, which is reported from its
opening mark to the end of the text. -/
theorem scan_iff_layout (text : String) :
    (∀ ts, scan text = .ok ts ↔
      ∃ l : Layout, l.Fits [] [] ∧ l.text = text.toList ∧ l.tokens = ts) ∧
    (∀ l l' : Layout, l.Fits [] [] → l.text = text.toList → l'.Fits [] [] →
      l'.text = text.toList → l = l') ∧
    (∀ ts, scan text = .ok ts → ∀ t ∈ ts,
      (t.kind = .keyword ↔ t.text ∈ keywords) ∧
      (t.kind = .word ↔ t.text ∉ keywords ∧ ∀ c ∈ t.text.toList, isWordChar c) ∧
      (t.kind = .punctuation ↔ t.text ∈ marks)) ∧
    ∀ r, scan text = .error r ↔
      ∃ (l : Layout) (comment : List Char), l.Fits [] comment ∧ IsUnclosed comment ∧
        l.text ++ comment = text.toList ∧
        r = ⟨.unclosedComment, .between (.ofText l.text) (.ofText text.toList)⟩ ∧
        r.diagnostic = ⟨.lexical, "Unterminated comment", r.span⟩ := by
  have hclosed {l : Layout} (hfits : l.Fits [] []) (htext : l.text = text.toList) :
      Arranges [] text.toList (l, []) := ⟨hfits, .inl rfl, (List.append_nil _).trans htext⟩
  refine ⟨fun ts => ⟨fun hscan => ?_, ?_⟩, ?_, fun ts _ t _ => ?_, fun r => ⟨fun hscan => ?_, ?_⟩⟩
  · rcases scan_cases text with ⟨l, h, hl⟩ | ⟨l, comment, -, -, hl⟩
    · rw [hl] at hscan
      exact ⟨l, h.fits, (List.append_nil _).symm.trans h.text_eq, Except.ok.inj hscan⟩
    · rw [hl] at hscan
      cases hscan
  · rintro ⟨l, hfits, htext, rfl⟩
    exact scan_of_arranges (hclosed hfits htext)
  · intro l l' hfits htext hfits' htext'
    have heq := (hclosed hfits htext).eq.trans (hclosed hfits' htext').eq.symm
    exact (Prod.mk.inj heq).1
  · exact ⟨kind_eq_keyword_iff, kind_eq_word_iff, kind_eq_punctuation_iff⟩
  · rcases scan_cases text with ⟨l, -, hl⟩ | ⟨l, comment, h, hcomment, hl⟩
    · rw [hl] at hscan
      cases hscan
    · rw [hl] at hscan
      cases hscan
      exact ⟨l, comment, h.fits, hcomment, h.text_eq, rfl, rfl⟩
  · rintro ⟨l, comment, hfits, hcomment, htext, rfl, -⟩
    have h : Arranges [] text.toList (l, comment) := ⟨hfits, .inr hcomment, htext⟩
    rw [scan_of_arranges h, scanned_unclosed hcomment, h.text_eq]

/-- Tokens one after the other, none of them before `p`. -/
inductive InOrder : Position → List Token → Prop
  | nil (p : Position) : InOrder p []
  | cons {p t ts} (hp : p ≤ t.span.start) (ht : t.span.start < t.span.finish)
    (hts : InOrder t.span.finish ts) : InOrder p (t :: ts)

theorem InOrder.mono {p q : Position} {ts : List Token} (h : InOrder q ts) (hpq : p ≤ q) :
    InOrder p ts := by
  cases h with
  | nil => exact .nil p
  | cons hq ht hts => exact .cons (hpq.trans hq) ht hts

theorem inOrder_ofPieces {ps : List Piece} (h : ∀ piece ∈ ps, piece.text ≠ []) {p : Position}
    {ts : List Token} (hts : ofPieces p ps = .ok ts) : InOrder p ts := by
  induction ps generalizing p ts with
  | nil =>
    cases hts
    exact .nil p
  | cons piece ps ih =>
    obtain ⟨role, text⟩ := piece
    obtain ⟨hne, hps⟩ := List.forall_mem_cons.mp h
    cases role with
    | gap =>
      rw [ofPieces_gap] at hts
      exact (ih hps hts).mono (p.le_after text)
    | lexeme =>
      rw [ofPieces] at hts
      cases hrest : ofPieces (p.after text) ps with
      | error r =>
        rw [hrest] at hts
        cases hts
      | ok rest =>
        rw [hrest] at hts
        cases hts
        exact .cons le_rfl (p.lt_after hne) (ih hps hrest)
    | unclosed => cases hts

theorem inOrder_scan {text : String} {ts : List Token} (h : scan text = .ok ts) :
    InOrder .start ts :=
  inOrder_ofPieces (fun _ hp => (Piece.text_of_mem_pieces hp).1) h

theorem InOrder.lt_finish {p : Position} {ts : List Token} (h : InOrder p ts) {t : Token}
    (ht : t ∈ ts) : p < t.span.finish := by
  induction h with
  | nil => cases ht
  | cons hp hlt _ ih =>
    rcases List.mem_cons.mp ht with rfl | ht
    · exact hp.trans_lt hlt
    · exact (hp.trans_lt hlt).trans (ih ht)

/-- A token starts before the end of every token that is not before it. -/
theorem InOrder.start_lt_finish {p : Position} {ts : List Token} (h : InOrder p ts) {i j : Nat}
    {first last : Token} (hij : i ≤ j) (hi : ts[i]? = some first) (hj : ts[j]? = some last) :
    first.span.start < last.span.finish := by
  induction h generalizing i j with
  | nil => cases hi
  | cons hp ht hts ih =>
    cases i with
    | zero =>
      cases hi
      exact (InOrder.cons le_rfl ht hts).lt_finish (List.mem_of_getElem? hj)
    | succ i =>
      obtain ⟨j, rfl⟩ := Nat.exists_eq_add_of_le' (Nat.zero_lt_of_lt hij)
      exact ih (Nat.le_of_succ_le_succ hij) hi hj

end Token
end TapeLang
