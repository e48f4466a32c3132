import TapeLang.Proofs.Places

/-!
Texts put together line by line.

A line feed ends whatever stands in front of it: a word, a line comment, a slash that another
slash could follow.  So the tokens of a text are not changed by a further line
(`Token.ofPieces_line`), and the tokens of that line are those it has as a text of its own, with
their regions moved down (`Token.ofPieces_down`).  The only lexical state that could pass the line
feed is a comment that is still open, and a text that was scanned has none.
-/

namespace TapeLang

def Position.down (n : Nat) (p : Position) : Position := ⟨p.line + n, p.column⟩

/-- The region `n` lines further down, in the same columns. -/
def Span.down (n : Nat) (s : Span) : Span :=
  ⟨s.startLine + n, s.endLine + n, s.startColumn, s.endColumn⟩

def Token.down (n : Nat) (t : Token) : Token := ⟨t.text, t.span.down n⟩

def Report.down (n : Nat) (r : Report) : Report := ⟨r.problem, r.span.down n⟩

namespace Position

theorem advance_down (n : Nat) (p : Position) (c : Char) :
    (p.down n).advance c = (p.advance c).down n := by
  rw [advance, advance]
  by_cases hc : c = '\n'
  · have hline : p.line + n + 1 = p.line + 1 + n := Nat.add_right_comm ..
    rw [if_pos hc, if_pos hc]
    exact congrArg (Position.mk · 1) hline
  · rw [if_neg hc, if_neg hc]
    rfl

theorem after_down (n : Nat) (p : Position) (cs : List Char) :
    (p.down n).after cs = (p.after cs).down n := by
  induction cs generalizing p with
  | nil => rfl
  | cons c cs ih => rw [after_cons, after_cons, advance_down, ih]

/-- After a line feed the first column is next, as many lines down as there are line breaks. -/
theorem after_line (cs : List Char) :
    start.after (cs ++ ['\n']) = start.down (lineBreaks (cs ++ ['\n'])) := by
  have hlast : lastLine (cs ++ ['\n']) = [] := by simp [lastLine]
  calc start.after (cs ++ ['\n']) = ofText (cs ++ ['\n']) := (ofText_append [] _).symm
    _ = start.down (lineBreaks (cs ++ ['\n'])) := by
      rw [ofText, hlast, Nat.add_comm]
      rfl

end Position

theorem Span.between_down (n : Nat) (p q : Position) :
    between (p.down n) (q.down n) = (between p q).down n := by
  have hline : q.line + n + 1 = q.line + 1 + n := Nat.add_right_comm ..
  exact congrArg (Span.mk _ · _ _) hline

namespace Piece

/-- The first piece of a text is cut off in the same way in front of a further line, unless it is
white space, which goes on in the line, or a comment that is not closed. -/
theorem Cut.before_line {cs after : List Char} {piece : Piece} (h : Cut cs (piece, after))
    (ds : List Char) :
    piece.role = .unclosed ∨ (piece.role = .gap ∧ ∀ c ∈ piece.text, isSpace c) ∨
      Cut (cs ++ '\n' :: ds) (piece, after ++ '\n' :: ds) := by
  have hhead : ∀ q : Char → Prop, q '\n' → (∀ c ∈ after.head?, q c) →
      ∀ c ∈ (after ++ '\n' :: ds).head?, q c := by
    intro q hline hafter
    cases after with
    | nil =>
      intro c hc
      cases hc
      exact hline
    | cons d after => exact hafter
  cases h with
  | space _ hg _ => exact .inr (.inl ⟨rfl, hg⟩)
  | line h =>
    obtain ⟨body, hbody, hnot, hend⟩ := h
    rw [List.append_assoc]
    exact .inr (.inr (.line ⟨body, hbody, hnot, hhead _ rfl hend⟩))
  | block h =>
    rw [List.append_assoc]
    exact .inr (.inr (.block h))
  | unclosed _ => exact .inl rfl
  | word hne hw hr =>
    rw [List.append_assoc]
    exact .inr (.inr (.word hne hw (hhead _ (by decide) hr)))
  | single hs hw hc =>
    refine .inr (.inr (.single hs hw ?_))
    rw [startsComment_cons] at hc ⊢
    cases after with
    | nil => simp
    | cons d after => exact hc

end Piece

namespace Token

theorem ofPieces_lexeme_eq (p : Position) (w : List Char) (ps : List Piece) :
    ofPieces p (⟨.lexeme, w⟩ :: ps) = (ofPieces (p.after w) ps).map
      (⟨String.ofList w, .between p (p.after w)⟩ :: ·) := by
  rw [ofPieces]
  cases ofPieces (p.after w) ps <;> rfl

/-- Pieces that start further down give the same tokens further down, or the same report. -/
theorem ofPieces_down (n : Nat) (p : Position) (ps : List Piece) :
    ofPieces (p.down n) ps = ((ofPieces p ps).map (·.map (down n))).mapError (·.down n) := by
  induction ps generalizing p with
  | nil => rfl
  | cons piece ps ih =>
    obtain ⟨role, text⟩ := piece
    have hrest := ih (p.after text)
    rw [← Position.after_down] at hrest
    cases role with
    | gap => rw [ofPieces_gap, ofPieces_gap, hrest]
    | unclosed =>
      have hspan := Span.between_down n p (p.after text)
      rw [← Position.after_down] at hspan
      exact congrArg (fun s => Except.error (Report.mk .unclosedComment s)) hspan
    | lexeme =>
      rw [ofPieces_lexeme_eq, ofPieces_lexeme_eq, hrest, Position.after_down, Span.between_down]
      cases ofPieces (p.after text) ps <;> rfl

/-! ## A further line -/

/-- White space only moves what follows it. -/
theorem ofPieces_space (p : Position) {c : Char} (hc : Piece.isSpace c) (cs : List Char) :
    ofPieces p (Piece.pieces (c :: cs)) = ofPieces (p.advance c) (Piece.pieces cs) := by
  rw [Piece.pieces, Piece.cut, if_pos hc, ofPieces_gap, Position.after_cons]
  cases cs with
  | nil => rfl
  | cons d cs =>
    by_cases hd : Piece.isSpace d
    · rw [Piece.pieces, Piece.cut, if_pos hd, ofPieces_gap, List.takeWhile_cons_of_pos hd,
        List.dropWhile_cons_of_pos hd]
    · rw [List.takeWhile_cons_of_neg hd, List.dropWhile_cons_of_neg hd, Position.after_nil]

theorem ofPieces_spaces (p : Position) {g : List Char} (hg : ∀ c ∈ g, Piece.isSpace c)
    (cs : List Char) :
    ofPieces p (Piece.pieces (g ++ cs)) = ofPieces (p.after g) (Piece.pieces cs) := by
  induction g generalizing p with
  | nil => rfl
  | cons c g ih =>
    obtain ⟨hc, hg⟩ := List.forall_mem_cons.mp hg
    rw [List.cons_append, ofPieces_space p hc, ih _ hg, Position.after_cons]

/-- A text that was scanned gives the same tokens in front of a further line. -/
theorem ofPieces_line {cs : List Char} {p : Position} {ts : List Token}
    (h : ofPieces p (Piece.pieces cs) = .ok ts) (ds : List Char) :
    ofPieces p (Piece.pieces (cs ++ '\n' :: ds)) =
      (ofPieces (p.after (cs ++ ['\n'])) (Piece.pieces ds)).map (ts ++ ·) := by
  fun_induction Piece.pieces cs generalizing p ts with
  | case1 =>
    cases h
    rw [List.nil_append, List.nil_append, ofPieces_space p (by decide), Position.after_cons,
      Position.after_nil]
    cases ofPieces (p.advance '\n') (Piece.pieces ds) <;> rfl
  | case2 c rest ih =>
    have hcut := Piece.cut_spec c rest
    have htext := Piece.text_cut c rest
    generalize c :: rest = cs, Piece.cut c rest = x at hcut htext h ih ⊢
    obtain ⟨⟨role, text⟩, after⟩ := x
    dsimp only at htext h ih
    have hplace : p.after (cs ++ ['\n']) = (p.after text).after (after ++ ['\n']) := by
      rw [← htext, List.append_assoc, Position.after_append]
    rw [hplace]
    rcases hcut.before_line ds with hrole | ⟨hrole, hspaces⟩ | hline
    · obtain rfl : role = .unclosed := hrole
      cases h
    · -- white space may go on after the line feed, so it is passed one character at a time
      obtain rfl : role = .gap := hrole
      rw [← htext, List.append_assoc, ofPieces_spaces p hspaces]
      exact ih h
    · rw [hline.pieces_eq]
      cases role with
      | gap => exact ih h
      | unclosed => cases h
      | lexeme =>
        rw [ofPieces_lexeme_eq] at h ⊢
        cases hrest : ofPieces (p.after text) (Piece.pieces after) with
        | error r =>
          rw [hrest] at h
          cases h
        | ok ts' =>
          rw [hrest] at h
          cases h
          rw [ih hrest]
          cases ofPieces ((p.after text).after (after ++ ['\n'])) (Piece.pieces ds) <;> rfl

/-- What is scanned of a line after a text that was scanned. -/
theorem scan_line {text : String} {ts : List Token} (h : scan text = .ok ts) (line : String) :
    scan (text ++ "\n" ++ line) =
      (((scan line).map (·.map (down (Position.lineBreaks (text ++ "\n").toList)))).mapError
        (·.down (Position.lineBreaks (text ++ "\n").toList))).map (ts ++ ·) := by
  have htext : (text ++ "\n").toList = text.toList ++ ['\n'] := String.toList_append
  have hall : (text ++ "\n" ++ line).toList = text.toList ++ '\n' :: line.toList := by
    rw [String.toList_append, htext, List.append_assoc]
    rfl
  rw [scan, hall, ofPieces_line h, Position.after_line, ← htext, ofPieces_down]
  rfl

/-- Every kind of report that scanning makes is a lexical one. -/
theorem kind_of_scan {text : String} {r : Report} (h : scan text = .error r) :
    r.diagnostic.kind = .lexical := by
  rcases scan_cases text with ⟨l, -, hl⟩ | ⟨l, comment, -, -, hl⟩
  · rw [hl] at h
    cases h
  · rw [hl] at h
    cases h
    rfl

/-- A text that is scanned keeps its tokens in front of a further line.  The tokens of the line
follow them, as many lines down as there are line breaks in front of it, and a comment that the
line leaves open is reported as it is for the line alone, that many lines down. -/
theorem scan_line_by_line {text : String} {ts : List Token} (h : scan text = .ok ts)
    (line : String) :
    (∀ ts', scan line = .ok ts' → scan (text ++ "\n" ++ line) =
      .ok (ts ++ ts'.map (down (Position.lineBreaks (text ++ "\n").toList)))) ∧
    ∀ r, scan line = .error r → ∃ r', scan (text ++ "\n" ++ line) = .error r' ∧
      r.diagnostic.kind = .lexical ∧ r'.diagnostic.kind = .lexical ∧
      r'.diagnostic.message = r.diagnostic.message ∧
      r'.span = r.span.down (Position.lineBreaks (text ++ "\n").toList) := by
  rw [scan_line h]
  refine ⟨fun ts' hline => ?_, fun r hline => ?_⟩
  · rw [hline]
    rfl
  · rw [hline]
    have hkind := kind_of_scan hline
    exact ⟨_, rfl, hkind, hkind, rfl, rfl⟩

theorem scan_line_by_line_comment :
    scan "a /\r\n// b\r" = .ok [⟨"a", ⟨1, 2, 1, 2⟩⟩, ⟨"/", ⟨1, 2, 3, 4⟩⟩] ∧
    scan "a /\r\n// b\r\n/ b" = .ok [⟨"a", ⟨1, 2, 1, 2⟩⟩, ⟨"/", ⟨1, 2, 3, 4⟩⟩,
      ⟨"/", ⟨3, 4, 1, 2⟩⟩, ⟨"b", ⟨3, 4, 3, 4⟩⟩] ∧
    ∃ r, scan "a /\r\n// b\r\n\n /*" = .error r ∧ r.span = ⟨4, 5, 2, 4⟩ := by
  have htext : scan "a /\r\n// b\r" = .ok [⟨"a", ⟨1, 2, 1, 2⟩⟩, ⟨"/", ⟨1, 2, 3, 4⟩⟩] := by
    decide +kernel
  have hline : scan "/ b" = .ok [⟨"/", ⟨1, 2, 1, 2⟩⟩, ⟨"b", ⟨1, 2, 3, 4⟩⟩] := by decide +kernel
  have hopen : scan "\n /*" = .error ⟨.unclosedComment, ⟨2, 3, 2, 4⟩⟩ := by decide +kernel
  obtain ⟨r, hr, -, -, -, hspan⟩ := (scan_line_by_line htext "\n /*").2 _ hopen
  exact ⟨htext, (scan_line_by_line htext "/ b").1 _ hline, r, hr, hspan⟩

end Token
end TapeLang
