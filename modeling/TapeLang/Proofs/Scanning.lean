import TapeLang.Token

/-!
Scanning tokens that are written with a space between them gives the tokens back.
-/

namespace TapeLang

/-- A text that is cut as one token: a word, or a mark. -/
def Lexeme (s : String) : Prop :=
  (s.toList ≠ [] ∧ ∀ c ∈ s.toList, Token.isWordChar c) ∨ s ∈ Token.marks

theorem isSpace_eq_false_of_isWordChar {c : Char} (h : Token.isWordChar c) :
    Piece.isSpace c = false := by
  rw [Bool.eq_false_iff]
  intro hs
  simp only [Piece.isSpace, Bool.or_eq_true, decide_eq_true_eq] at hs
  rcases hs with ((rfl | rfl) | rfl) | rfl <;> exact absurd h (by decide)

theorem ne_slash_of_isWordChar {c : Char} (h : Token.isWordChar c) : c ≠ '/' := by
  intro h
  subst h
  exact absurd h (by decide)

/-- What a mark is made of. -/
theorem toList_of_mem_marks {s : String} (h : s ∈ Token.marks) :
    ∃ c, s.toList = [c] ∧ Piece.isSpace c = false ∧ c ≠ '/' ∧ Token.isWordChar c = false := by
  have hmarks : ∀ m ∈ Token.marks, m.toList.length = 1 ∧
      m.toList.all (fun c => !Piece.isSpace c && c != '/' && !Token.isWordChar c) := by decide
  obtain ⟨hlength, hall⟩ := hmarks s h
  obtain ⟨c, hc⟩ := List.length_eq_one_iff.mp hlength
  rw [hc, List.all_cons, List.all_nil, Bool.and_true] at hall
  simp only [Bool.and_eq_true, Bool.not_eq_true', bne_iff_ne] at hall
  exact ⟨c, hc, hall.1.1, hall.1.2, hall.2⟩

/-- A lexeme does not start with white space. -/
theorem Lexeme.toList_eq_cons {s : String} (h : Lexeme s) :
    ∃ c cs, s.toList = c :: cs ∧ Piece.isSpace c = false := by
  rcases h with ⟨hne, hw⟩ | hm
  · obtain ⟨c, cs, hc⟩ := List.exists_cons_of_ne_nil hne
    exact ⟨c, cs, hc, isSpace_eq_false_of_isWordChar (hw c (by simp [hc]))⟩
  · obtain ⟨c, hc, hs, -⟩ := toList_of_mem_marks hm
    exact ⟨c, [], hc, hs⟩

namespace Piece

/-- A lexeme at the end of the text or in front of a space is one piece. -/
theorem pieces_lexeme {s : String} {rest : List Char} (h : Lexeme s)
    (hr : rest = [] ∨ ∃ r, rest = ' ' :: r) :
    pieces (s.toList ++ rest) = ⟨.lexeme, s.toList⟩ :: pieces rest := by
  rcases h with ⟨hne, hw⟩ | hm
  · obtain ⟨c, cs, hc⟩ := List.exists_cons_of_ne_nil hne
    rw [hc] at hw ⊢
    have hcw := hw c (List.mem_cons_self ..)
    have hcs : ∀ d ∈ cs, Token.isWordChar d = true := fun d hd => hw d (List.mem_cons_of_mem c hd)
    have htake : rest.takeWhile Token.isWordChar = [] := by
      rcases hr with rfl | ⟨r, rfl⟩ <;> rfl
    have hdrop : rest.dropWhile Token.isWordChar = rest := by
      rcases hr with rfl | ⟨r, rfl⟩ <;> rfl
    rw [List.cons_append, pieces, cut, if_neg (by simp [isSpace_eq_false_of_isWordChar hcw]),
      if_neg (by simp [ne_slash_of_isWordChar hcw]), if_neg (by simp [ne_slash_of_isWordChar hcw]),
      if_pos hcw, List.takeWhile_append_of_pos hcs, List.dropWhile_append_of_pos hcs, htake, hdrop,
      List.append_nil]
  · obtain ⟨c, hc, hs, hslash, hword⟩ := toList_of_mem_marks hm
    rw [hc, List.singleton_append, pieces, cut, if_neg (by simp [hs]), if_neg (by simp [hslash]),
      if_neg (by simp [hslash]), if_neg (by simp [hword])]

/-- The space in front of a lexeme is one piece. -/
theorem pieces_space {s : String} (rest : List Char) (h : Lexeme s) :
    pieces (' ' :: (s.toList ++ rest)) = ⟨.gap, [' ']⟩ :: pieces (s.toList ++ rest) := by
  obtain ⟨c, cs, hc, hs⟩ := h.toList_eq_cons
  rw [hc, List.cons_append, pieces, cut, if_pos (by decide),
    List.takeWhile_cons_of_neg (by simp [hs]), List.dropWhile_cons_of_neg (by simp [hs])]

end Piece

namespace Token

theorem ofPieces_gap (p : Position) (cs : List Char) (ps : List Piece) :
    ofPieces p (⟨.gap, cs⟩ :: ps) = ofPieces (p.after cs) ps := rfl

theorem ofPieces_lexeme {p : Position} {cs : List Char} {ps : List Piece} {ts : List Token}
    (h : ofPieces (p.after cs) ps = .ok ts) :
    ofPieces p (⟨.lexeme, cs⟩ :: ps) =
      .ok (⟨String.ofList cs, .between p (p.after cs)⟩ :: ts) := by
  rw [ofPieces, h]
  rfl

theorem ofPieces_spaced {texts : List String} (h : ∀ s ∈ texts, Lexeme s) (p : Position) :
    ∃ ts, ofPieces p (Piece.pieces ([' '].intercalate (texts.map String.toList))) = .ok ts ∧
      ts.map (·.text) = texts := by
  induction texts generalizing p with
  | nil => exact ⟨[], by simp [Piece.pieces, ofPieces], rfl⟩
  | cons s texts ih =>
    have hs := h s (List.mem_cons_self ..)
    have ih' := ih (fun s' hs' => h s' (List.mem_cons_of_mem s hs'))
    cases texts with
    | nil =>
      obtain ⟨ts, hts, hnil⟩ := ih' (p.after s.toList)
      refine ⟨⟨String.ofList s.toList, .between p (p.after s.toList)⟩ :: ts, ?_, by simp [hnil]⟩
      have hpieces : Piece.pieces (s.toList ++ []) = _ := Piece.pieces_lexeme hs (.inl rfl)
      rw [List.append_nil] at hpieces
      rw [List.map_singleton, List.intercalate_singleton, hpieces]
      exact ofPieces_lexeme hts
    | cons s' texts =>
      have hs' := h s' (List.mem_cons_of_mem s (List.mem_cons_self ..))
      obtain ⟨ts, hts, htexts⟩ := ih' ((p.after s.toList).after [' '])
      refine ⟨⟨String.ofList s.toList, .between p (p.after s.toList)⟩ :: ts, ?_, by simp [htexts]⟩
      -- the text after the space starts with the next token, so the gap ends there
      obtain ⟨more, hmore⟩ : ∃ more, [' '].intercalate ((s' :: texts).map String.toList) =
          s'.toList ++ more := by
        cases texts with
        | nil => exact ⟨[], by simp⟩
        | cons s'' texts =>
          exact ⟨_, by rw [List.map_cons, List.map_cons, List.intercalate_cons_cons,
            List.append_assoc]⟩
      rw [List.map_cons, List.map_cons, List.intercalate_cons_cons, ← List.map_cons,
        List.append_assoc, List.singleton_append, Piece.pieces_lexeme hs (.inr ⟨_, rfl⟩)]
      refine ofPieces_lexeme ?_
      rw [hmore, Piece.pieces_space more hs', ← hmore, ofPieces_gap]
      exact hts

/-- Scanning undoes writing tokens with a space between them. -/
theorem scan_spaced {texts : List String} (h : ∀ s ∈ texts, Lexeme s) :
    ∃ ts, scan (" ".intercalate texts) = .ok ts ∧ ts.map (·.text) = texts := by
  rw [scan, String.toList_intercalate]
  exact ofPieces_spaced h .start

end Token

end TapeLang
