import TapeLang.Json.Record
import TapeLang.Proofs.Json.Scalars

/-!
Values that are written are read back.

A value is written in front of the text after it, in one of two layouts, and reading takes it off
again whatever that text is, as long as it cannot continue a numeral (`Json.gives_value_write`).
The recursion follows the value.  It needs of the layout only that what it puts between items is
blank, and of a written value only that it starts with a character that is neither blank nor a
closing bracket.
-/

namespace TapeLang
namespace Json

mutual

def Writable : Json → Prop
  | .null => True
  | .bool _ => True
  | .num n => n.Writable
  | .str _ => True
  | .arr items => ItemsWritable items
  | .obj members => MembersWritable members

def ItemsWritable : List Json → Prop
  | [] => True
  | v :: vs => v.Writable ∧ ItemsWritable vs

def MembersWritable : List (Option String × Json) → Prop
  | [] => True
  | (_, v) :: ms => v.Writable ∧ MembersWritable ms

end

theorem writable_nat (n : Nat) : (Json.nat n).Writable := nofun

theorem writable_int (i : Int) : (Json.int i).Writable := nofun

namespace Parser

theorem skip_append {blanks : List Char} (h : ∀ c ∈ blanks, isSpace c) (cs : List Char) :
    skip (blanks ++ cs) = skip cs := List.dropWhile_append_of_pos h

theorem skip_cons {c : Char} (h : isSpace c = false) (cs : List Char) : skip (c :: cs) = c :: cs :=
  List.dropWhile_cons_of_neg (by simp [h])

theorem isSpace_lineBreak (layout : Layout) : ∀ c ∈ layout.lineBreak, isSpace c := by
  intro c hc
  cases layout with
  | compact => cases hc
  | indented level =>
    rcases List.mem_cons.mp hc with rfl | hc
    · rfl
    · rw [List.eq_of_mem_replicate hc]
      rfl

/-- Blanks before a mark that cannot continue a numeral. -/
theorem ends_append {blanks : List Char} (h : ∀ c ∈ blanks, isSpace c) {cs : List Char}
    (hcs : Ends cs) : Ends (blanks ++ cs) := by
  cases blanks with
  | nil => exact hcs
  | cons b bs =>
    intro c hc
    cases hc
    have hb : b = ' ' ∨ b = '\t' ∨ b = '\r' ∨ b = '\n' := by
      simpa [isSpace, or_assoc] using h b (List.mem_cons_self ..)
    rcases hb with rfl | rfl | rfl | rfl <;> decide

theorem gives_value_null (rest : List Char) :
    Gives (value ('n' :: 'u' :: 'l' :: 'l' :: rest)) .null rest :=
  ⟨by simp only [List.length_cons]; omega, by rw [value]⟩

theorem gives_value_true (rest : List Char) :
    Gives (value ('t' :: 'r' :: 'u' :: 'e' :: rest)) (.bool true) rest :=
  ⟨by simp only [List.length_cons]; omega, by rw [value]⟩

theorem gives_value_false (rest : List Char) :
    Gives (value ('f' :: 'a' :: 'l' :: 's' :: 'e' :: rest)) (.bool false) rest :=
  ⟨by simp only [List.length_cons]; omega, by rw [value]⟩

theorem gives_value_str {cs rest : List Char} {s : Option String} (h : Gives (string cs) s rest) :
    Gives (value ('"' :: cs)) (.str s) rest := by
  obtain ⟨h, hs⟩ := h
  refine ⟨by simp only [List.length_cons]; omega, ?_⟩
  rw [value, hs]
  rfl

theorem gives_value_num {cs rest : List Char} {n : Numeral} (h : Gives (numeral cs) n rest)
    (hhead : ∀ c ∈ cs.head?, c = '-' ∨ c.isDigit) : Gives (value cs) (.num n) rest := by
  obtain ⟨h, hn⟩ := h
  refine ⟨h, ?_⟩
  have hother : ∀ c tail, c ≠ '-' → c.isDigit = false → cs ≠ c :: tail := by
    intro c tail hc hd heq
    have := hhead c (heq ▸ rfl)
    simp [hc, hd] at this
  rw [value, hn]
  · rfl
  · exact fun _ h => hother 'n' _ (by decide) rfl h
  · exact fun _ h => hother 't' _ (by decide) rfl h
  · exact fun _ h => hother 'f' _ (by decide) rfl h
  · exact fun _ h => hother '"' _ (by decide) rfl h
  · exact fun _ h => hother '[' _ (by decide) rfl h
  · exact fun _ h => hother '\x7b' _ (by decide) rfl h

theorem gives_value_arr_nil {cs rest : List Char} (h : skip cs = ']' :: rest) :
    Gives (value ('[' :: cs)) (.arr []) rest := by
  have hlength := length_skip cs
  rw [h, List.length_cons] at hlength
  refine ⟨by simp only [List.length_cons]; omega, ?_⟩
  rw [value]
  split
  · next h' =>
    rw [h] at h'
    cases h'
    rfl
  · next h' => exact absurd h (h' rest)

theorem gives_value_arr {cs rest : List Char} {vs : List Json} (h : Gives (items cs) vs rest)
    (hne : ∀ r, skip cs ≠ ']' :: r) : Gives (value ('[' :: cs)) (.arr vs) rest := by
  obtain ⟨h, hitems⟩ := h
  refine ⟨by simp only [List.length_cons]; omega, ?_⟩
  rw [value]
  split
  · next h' => exact absurd h' (hne _)
  · rw [hitems]
    rfl

/-- A value, and after it the closing bracket or a comma and more items. -/
theorem gives_items {cs r rest : List Char} {v : Json} {vs : List Json}
    (hv : Gives (value (skip cs)) v r)
    (htail : (skip r = ']' :: rest ∧ vs = []) ∨
      ∃ r', skip r = ',' :: r' ∧ Gives (items r') vs rest) :
    Gives (items cs) (v :: vs) rest := by
  obtain ⟨h, hv⟩ := hv
  have hskip := length_skip cs
  have hlength := length_skip r
  rcases htail with ⟨hr, rfl⟩ | ⟨r', hr, h', hvs⟩
  · rw [hr, List.length_cons] at hlength
    refine ⟨by omega, ?_⟩
    rw [items, hv]
    dsimp only [Option.bind_eq_bind, Option.bind_some]
    split
    · next heq => cases hr.symm.trans heq
    · next heq =>
      cases hr.symm.trans heq
      rfl
    · next hne => exact absurd hr (hne rest)
  · rw [hr, List.length_cons] at hlength
    refine ⟨by omega, ?_⟩
    rw [items, hv]
    dsimp only [Option.bind_eq_bind, Option.bind_some]
    split
    · next heq =>
      cases hr.symm.trans heq
      rw [hvs]
      rfl
    · next heq => cases hr.symm.trans heq
    · next hne _ => exact absurd hr (hne r')

theorem gives_value_obj_nil {cs rest : List Char} (h : skip cs = '\x7d' :: rest) :
    Gives (value ('\x7b' :: cs)) (.obj []) rest := by
  have hlength := length_skip cs
  rw [h, List.length_cons] at hlength
  refine ⟨by simp only [List.length_cons]; omega, ?_⟩
  rw [value]
  split
  · next h' =>
    rw [h] at h'
    cases h'
    rfl
  · next h' => exact absurd h (h' rest)

theorem gives_value_obj {cs rest : List Char} {ms : Members} (h : Gives (members cs) ms rest)
    (hne : ∀ r, skip cs ≠ '\x7d' :: r) : Gives (value ('\x7b' :: cs)) (.obj ms) rest := by
  obtain ⟨h, hmembers⟩ := h
  refine ⟨by simp only [List.length_cons]; omega, ?_⟩
  rw [value]
  split
  · next h' => exact absurd h' (hne _)
  · rw [hmembers]
    rfl

/-- A name, a colon and a value, and after them the closing brace or a comma and more members. -/
theorem gives_members {cs r₁ r₂ r₃ r₄ rest : List Char} {k : Option String} {v : Json}
    {ms : Members} (hcs : skip cs = '"' :: r₁) (hk : Gives (string r₁) k r₂)
    (hr₂ : skip r₂ = ':' :: r₃) (hv : Gives (value (skip r₃)) v r₄)
    (htail : (skip r₄ = '\x7d' :: rest ∧ ms = []) ∨
      ∃ r₅, skip r₄ = ',' :: r₅ ∧ Gives (members r₅) ms rest) :
    Gives (members cs) ((k, v) :: ms) rest := by
  obtain ⟨hlk, hk⟩ := hk
  obtain ⟨hlv, hv⟩ := hv
  have hl := length_skip cs
  have hl₂ := length_skip r₂
  have hl₃ := length_skip r₃
  have hl₄ := length_skip r₄
  rw [hcs, List.length_cons] at hl
  rw [hr₂, List.length_cons] at hl₂
  have hlt : rest.length < cs.length := by
    rcases htail with ⟨hr₄, -⟩ | ⟨r₅, hr₄, h, -⟩
    · rw [hr₄, List.length_cons] at hl₄
      omega
    · rw [hr₄, List.length_cons] at hl₄
      omega
  refine ⟨hlt, ?_⟩
  rw [members]
  split
  case h_2 hne => exact absurd hcs (hne r₁)
  next heq =>
  cases hcs.symm.trans heq
  rw [hk]
  dsimp only [Option.bind_eq_bind, Option.bind_some]
  split
  case h_2 hne => exact absurd hr₂ (hne r₃)
  next heq =>
  cases hr₂.symm.trans heq
  rw [hv]
  dsimp only [Option.bind_some]
  rcases htail with ⟨hr₄, rfl⟩ | ⟨r₅, hr₄, h, hms⟩
  · split
    · next heq => cases hr₄.symm.trans heq
    · next heq =>
      cases hr₄.symm.trans heq
      rfl
    · next hne => exact absurd hr₄ (hne rest)
  · split
    · next heq =>
      cases hr₄.symm.trans heq
      rw [hms]
      rfl
    · next heq => cases hr₄.symm.trans heq
    · next hne _ => exact absurd hr₄ (hne r₅)

/-! ## Written values -/

theorem head_chars (n : Numeral) : ∃ c cs, n.chars = c :: cs ∧ (c = '-' ∨ c.isDigit) := by
  obtain ⟨d, ds, hds⟩ := List.exists_cons_of_ne_nil (Nat.toDigits_ne_nil (b := 10) (n := n.whole))
  have hd := isDigit_toDigits n.whole d (hds ▸ List.mem_cons_self ..)
  rw [Numeral.chars, hds]
  cases n.negative with
  | true => exact ⟨'-', _, rfl, .inl rfl⟩
  | false => exact ⟨d, _, rfl, .inr hd⟩

/-- A written value does not start with a blank or a closing bracket. -/
theorem write_eq_cons (layout : Layout) (after : List Char) (v : Json) :
    ∃ c cs, write layout after v = c :: cs ∧ isSpace c = false ∧ c ≠ ']' := by
  match v with
  | .null => exact ⟨'n', _, rfl, rfl, by decide⟩
  | .bool true => exact ⟨'t', _, rfl, rfl, by decide⟩
  | .bool false => exact ⟨'f', _, rfl, rfl, by decide⟩
  | .str s => exact ⟨'"', _, rfl, rfl, by decide⟩
  | .arr [] => exact ⟨'[', _, rfl, rfl, by decide⟩
  | .arr (v :: vs) => exact ⟨'[', _, rfl, rfl, by decide⟩
  | .obj [] => exact ⟨'\x7b', _, rfl, rfl, by decide⟩
  | .obj ((k, v) :: ms) => exact ⟨'\x7b', _, rfl, rfl, by decide⟩
  | .num n =>
    obtain ⟨c, cs, hcs, hc⟩ := head_chars n
    refine ⟨c, cs ++ after, ?_, ?_⟩
    · rw [write, hcs, List.cons_append]
    · have hne : ∀ d : Char, d ≠ '-' → d.isDigit = false → c ≠ d := by
        intro d hd hdigit heq
        subst heq
        simp [hd, hdigit] at hc
      have hspace : isSpace c = false := by
        simp [isSpace, hne ' ', hne '\t', hne '\r', hne '\n']
      exact ⟨hspace, hne ']' (by decide) rfl⟩

/-- Blanks before a written value are passed over. -/
theorem skip_write (layout : Layout) (after : List Char) (v : Json) {blanks : List Char}
    (h : ∀ c ∈ blanks, isSpace c) :
    skip (blanks ++ write layout after v) = write layout after v := by
  obtain ⟨c, cs, hcs, hc, -⟩ := write_eq_cons layout after v
  rw [skip_append h, hcs, skip_cons hc]

theorem isSpace_tail_colon (layout : Layout) :
    ∃ blanks, layout.colon = ':' :: blanks ∧ ∀ c ∈ blanks, isSpace c := by
  cases layout with
  | compact => exact ⟨[], rfl, nofun⟩
  | indented level => exact ⟨[' '], rfl, List.forall_mem_singleton.mpr rfl⟩

theorem ends_close (layout : Layout) {mark : Char} (h : mark = ']' ∨ mark = '\x7d')
    (after : List Char) : Ends (layout.lineBreak ++ mark :: after) := by
  refine ends_append (isSpace_lineBreak layout) fun c hc => ?_
  cases hc
  rcases h with rfl | rfl <;> decide

theorem ends_writeItems (layout : Layout) {after : List Char} (hafter : Ends after)
    (vs : List Json) : Ends (writeItems layout after vs) := by
  cases vs with
  | nil => exact hafter
  | cons v vs =>
    intro c hc
    cases hc
    decide

theorem ends_writeMembers (layout : Layout) {after : List Char} (hafter : Ends after)
    (ms : Members) : Ends (writeMembers layout after ms) := by
  cases ms with
  | nil => exact hafter
  | cons m ms =>
    intro c hc
    cases hc
    decide

theorem colon_inner (layout : Layout) : layout.inner.colon = layout.colon := by
  cases layout <;> rfl

/-- A written member is read back in front of what follows it. -/
theorem gives_member_write (layout : Layout) (k : Option String) {v : Json} {tail rest : List Char}
    {ms : Members} (hv : Gives (value (write layout tail v)) v tail)
    (htail : (skip tail = '\x7d' :: rest ∧ ms = []) ∨
      ∃ r, skip tail = ',' :: r ∧ Gives (members r) ms rest) :
    Gives (members (layout.lineBreak ++ writeText k (layout.colon ++ write layout tail v)))
      ((k, v) :: ms) rest := by
  obtain ⟨blanks, hcolon, hblanks⟩ := isSpace_tail_colon layout
  obtain ⟨cs, hcs, hk⟩ := gives_string_writeText k (layout.colon ++ write layout tail v)
  have hname : skip (layout.lineBreak ++ writeText k (layout.colon ++ write layout tail v)) =
      '"' :: cs := by
    rw [skip_append (isSpace_lineBreak layout), hcs, skip_cons rfl]
  have hvalue : skip (layout.colon ++ write layout tail v) =
      ':' :: (blanks ++ write layout tail v) := by
    rw [hcolon, List.cons_append, skip_cons rfl]
  rw [← skip_write _ _ _ hblanks] at hv
  exact gives_members hname hk hvalue hv htail

mutual

/-- A written value is read back. -/
theorem gives_value_write (layout : Layout) {after : List Char} (hafter : Ends after) :
    (v : Json) → v.Writable → Gives (value (write layout after v)) v after
  | .null, _ => gives_value_null after
  | .bool true, _ => gives_value_true after
  | .bool false, _ => gives_value_false after
  | .num n, hn => by
    obtain ⟨c, cs, hcs, hc⟩ := head_chars n
    refine gives_value_num (gives_numeral hn hafter) fun d hd => ?_
    rw [write, hcs] at hd
    cases hd
    exact hc
  | .str s, _ => by
    obtain ⟨cs, hcs, hs⟩ := gives_string_writeText s after
    rw [write, hcs]
    exact gives_value_str hs
  | .arr [], _ => gives_value_arr_nil (skip_cons rfl after)
  | .arr (v :: vs), hvs => by
    rw [Writable, ItemsWritable] at hvs
    refine gives_value_arr (gives_items_write layout.inner layout after v
      (fun hends => gives_value_write layout.inner hends v hvs.1) vs hvs.2) fun r hr => ?_
    obtain ⟨c, cs, hcs, -, hne⟩ := write_eq_cons layout.inner
      (writeItems layout.inner (layout.lineBreak ++ ']' :: after) vs) v
    rw [skip_write _ _ _ (isSpace_lineBreak _), hcs] at hr
    cases hr
    exact hne rfl
  | .obj [], _ => gives_value_obj_nil (skip_cons rfl after)
  | .obj ((k, v) :: ms), hms => by
    rw [Writable, MembersWritable] at hms
    have hmembers := gives_members_write layout.inner layout after k v
      (fun hends => gives_value_write layout.inner hends v hms.1) ms hms.2
    rw [colon_inner] at hmembers
    refine gives_value_obj hmembers fun r hr => ?_
    obtain ⟨cs, hcs, -⟩ := gives_string_writeText k (layout.colon ++
      write layout.inner (writeMembers layout.inner (layout.lineBreak ++ '\x7d' :: after) ms) v)
    rw [skip_append (isSpace_lineBreak _), hcs, skip_cons rfl] at hr
    cases hr

/-- The items of a written array are read back, the first of them being one that is. -/
theorem gives_items_write (layout outer : Layout) (after : List Char) (v : Json)
    (hv : ∀ {after}, Ends after → Gives (value (write layout after v)) v after) :
    (vs : List Json) → ItemsWritable vs →
      Gives (items (layout.lineBreak ++
        write layout (writeItems layout (outer.lineBreak ++ ']' :: after) vs) v)) (v :: vs) after
  | [], _ => by
    have hfirst := hv (ends_close outer (.inl rfl) after)
    have hclose : skip (outer.lineBreak ++ ']' :: after) = ']' :: after := by
      rw [skip_append (isSpace_lineBreak outer), skip_cons rfl]
    rw [← skip_write _ _ _ (isSpace_lineBreak layout)] at hfirst
    exact gives_items hfirst (.inl ⟨hclose, rfl⟩)
  | w :: ws, hws => by
    rw [ItemsWritable] at hws
    have hfirst := hv (ends_writeItems layout (ends_close outer (.inl rfl) after) (w :: ws))
    have hmore := gives_items_write layout outer after w
      (fun hends => gives_value_write layout hends w hws.1) ws hws.2
    rw [← skip_write _ _ _ (isSpace_lineBreak layout)] at hfirst
    exact gives_items hfirst (.inr ⟨_, skip_cons rfl _, hmore⟩)

/-- The members of a written object are read back, the value of the first of them being one that
is. -/
theorem gives_members_write (layout outer : Layout) (after : List Char) (k : Option String)
    (v : Json) (hv : ∀ {after}, Ends after → Gives (value (write layout after v)) v after) :
    (ms : Members) → MembersWritable ms →
      Gives (members (layout.lineBreak ++ writeText k (layout.colon ++
        write layout (writeMembers layout (outer.lineBreak ++ '\x7d' :: after) ms) v)))
        ((k, v) :: ms) after
  | [], _ => by
    have hvalue := hv (ends_close outer (.inr rfl) after)
    have hclose : skip (outer.lineBreak ++ '\x7d' :: after) = '\x7d' :: after := by
      rw [skip_append (isSpace_lineBreak outer), skip_cons rfl]
    exact gives_member_write layout k hvalue (.inl ⟨hclose, rfl⟩)
  | (k', w) :: ms, hms => by
    rw [MembersWritable] at hms
    have hvalue := hv (ends_writeMembers layout (ends_close outer (.inr rfl) after) ((k', w) :: ms))
    have hmore := gives_members_write layout outer after k' w
      (fun hends => gives_value_write layout hends w hms.1) ms hms.2
    exact gives_member_write layout k hvalue (.inr ⟨_, skip_cons rfl _, hmore⟩)

end

end Parser

theorem parse_eq_some {text : String} {v : Json} {rest : List Char}
    (h : Parser.Gives (Parser.value (Parser.skip text.toList)) v rest)
    (hrest : Parser.skip rest = []) : parse text = some v := by
  obtain ⟨_, hvalue⟩ := h
  rw [parse, hvalue]
  exact if_pos hrest

/-- A text written in either layout is read back. -/
theorem parse_write (layout : Layout) {v : Json} (hv : v.Writable) :
    parse (String.ofList (v.write layout [])) = some v := by
  have hskip : Parser.skip (v.write layout []) = v.write layout [] :=
    @Parser.skip_write layout [] v [] nofun
  have hvalue := @Parser.gives_value_write layout [] nofun v hv
  apply @parse_eq_some _ v []
  · rw [String.toList_ofList, hskip]
    exact hvalue
  · rfl

theorem parse_pretty {v : Json} (hv : v.Writable) : parse v.pretty = some v := parse_write _ hv

theorem parse_compact {v : Json} (hv : v.Writable) : parse v.compact = some v := parse_write _ hv

end Json
end TapeLang
