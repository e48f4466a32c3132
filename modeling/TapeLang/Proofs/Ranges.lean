import TapeLang.Proofs.Longest

/-!
Which tokens a part of a program was read from.

Everything in a program that has a region is a `Part`, and a list of numbers leads to it through
the parts around it.  The readers go through the tokens from left to right, so the parts inside a
part are read one after the other from its own tokens, with words and marks before, between and
after them (`Grammar.Spread`).  This follows the derivation that the parser finds, rule by rule.
Counting the tokens then gives every part its range (`Part.Ranged`).  Only the parts of the
program itself stand next to each other with nothing between them (`Grammar.Tiles`).
-/

namespace TapeLang

inductive Part where
  | alphabet (a : Alphabet)
  | letter (c : Located Char)
  | module (m : Module)
  | name (n : Located String)
  | basic (b : BasicBlock)
  | core (b : CoreBlock)
  | switch (cases : List Case) (span : Span)
  | case (c : Case)
  | symbol (s : Located Symbol)

namespace Part

def ofBlock : Block → Part
  | .basic b => .basic b
  | .switch cases span => .switch cases span

def ofFlow : Flow → List Part
  | .goto target => [.name target]
  | .accept => []
  | .reject => []

def span : Part → Span
  | .alphabet a => a.span
  | .letter c => c.span
  | .module m => m.span
  | .name n => n.span
  | .basic b => b.span
  | .core b => b.span
  | .switch _ span => span
  | .case c => c.span
  | .symbol s => s.span

def inner : Part → List Part
  | .alphabet a => a.letters.map .letter
  | .module m => .name m.name :: m.blocks.map ofBlock
  | .basic b => b.write.toList.map .symbol ++ b.flow.toList.flatMap ofFlow
  | .core b => b.write.toList.map .symbol
  | .switch cases _ => cases.map .case
  | .case (.branch symbols first rest _) => symbols.map .symbol ++ .basic first :: rest.map ofBlock
  | .case (.loop symbols body _) => symbols.map .symbol ++ [.core body]
  | .letter _ | .name _ | .symbol _ => []

/-- The part that numbers lead to from a part. -/
def at? (part : Part) : List Nat → Option Part
  | [] => some part
  | k :: path => part.inner[k]?.bind (·.at? path)

/-- The part that numbers lead to, the first of them choosing among the given parts. -/
def find? (parts : List Part) : List Nat → Option Part
  | [] => none
  | k :: path => parts[k]?.bind (·.at? path)

/-- The reader for parts of this kind finds the part at the front of `ts` and leaves `rest`. -/
def ReadFrom (ts rest : List Token) : Part → Prop
  | .alphabet a => Parser.Reads (Parser.alphabet ts) a rest
  | .letter c => Parser.Reads (Parser.letter ts) c rest
  | .module m => Parser.Reads (Parser.module ts) m rest
  | .name n => Parser.Reads (Parser.identifier ts) n rest
  | .basic b => Parser.Reads (Parser.basicBlock ts) b rest
  | .core b => Parser.Reads (Parser.coreBlock ts) b rest
  | .switch cases span =>
    ∃ t r, ts = t :: r ∧ Parser.Reads (Parser.blockAt t r) (.switch cases span) rest
  | .case c => ∃ t r, ts = t :: r ∧ Parser.startsCase t ∧ Parser.Reads (Parser.caseAt t r) c rest
  | .symbol s => Parser.Reads (Parser.symbol ts) s rest

/-- The tokens with the numbers from `first` up to `stop` were read as this part, and the region
of the part goes from the first of them to the last. -/
structure Takes (ts : List Token) (part : Part) (first stop : Nat) : Prop where
  lt : first < stop
  span : ∃ f l, ts[first]? = some f ∧ ts[stop - 1]? = some l ∧ part.span = f.span.upTo l.span
  read : part.ReadFrom (ts.drop first) (ts.drop stop)

/-- Every part takes a range of tokens.  It lies inside the range of the part around it, or inside
the range of the empty path if there is none, and before the ranges of the parts that follow. -/
structure Ranged (ts : List Token) (parts : List Part) (first stop : List Nat → Nat) : Prop where
  takes : ∀ path part, find? parts path = some part → part.Takes ts (first path) (stop path)
  inside : ∀ path k part, find? parts (path ++ [k]) = some part →
    first path ≤ first (path ++ [k]) ∧ stop (path ++ [k]) ≤ stop path
  apart : ∀ path k l part part', k < l → find? parts (path ++ [k]) = some part →
    find? parts (path ++ [l]) = some part' → stop (path ++ [k]) ≤ first (path ++ [l])

/-- Numbers for the paths among some parts, from those for the paths inside the first of them and
those for the paths among the others. -/
def graft (own : Nat) (f g : List Nat → Nat) : List Nat → Nat
  | [] => own
  | 0 :: path => f path
  | (k + 1) :: path => g (k :: path)

theorem ranged_nil (ts : List Token) (first stop : List Nat → Nat) : Ranged ts [] first stop := by
  have hnone : ∀ path, find? [] path = none := by
    intro path
    cases path <;> rfl
  constructor
  · intro path part h
    rw [hnone] at h
    cases h
  · intro path k part h
    rw [hnone] at h
    cases h
  · intro path k l part part' _ h
    rw [hnone] at h
    cases h

theorem find?_inner_concat (part : Part) (path : List Nat) (k : Nat) :
    part.at? (path ++ [k]) = find? part.inner (path ++ [k]) := by
  cases path <;> rfl

/-- The ranges inside a part, its own range and the ranges of the parts after it, taken
together. -/
theorem Ranged.cons {ts : List Token} {part : Part} {parts : List Part}
    {f s f' s' : List Nat → Nat} (hin : Ranged ts part.inner f s) (hout : Ranged ts parts f' s')
    (htakes : part.Takes ts (f []) (s [])) (hnext : s [] ≤ f' []) (hle : f' [] ≤ s' []) {lo : Nat}
    (hlo : lo ≤ f []) : Ranged ts (part :: parts) (graft lo f f') (graft (s' []) s s') := by
  constructor
  · intro path found h
    match path, h with
    | [0], h =>
      cases h
      exact htakes
    | 0 :: k :: path, h => exact hin.takes (k :: path) found h
    | (k + 1) :: path, h => exact hout.takes (k :: path) found h
  · intro path k found h
    match path, k, h with
    | [], 0, h => exact ⟨hlo, Nat.le_trans hnext hle⟩
    | [], k + 1, h =>
      have hinside := hout.inside [] k found h
      have hlt := htakes.lt
      show lo ≤ f' [k] ∧ s' [k] ≤ s' []
      rw [List.nil_append] at hinside
      omega
    | 0 :: path, k, h => exact hin.inside path k found (find?_inner_concat part path k ▸ h)
    | (j + 1) :: path, k, h => exact hout.inside (j :: path) k found h
  · intro path k l found found' hkl hk hl
    match path, k, l, hkl, hk, hl with
    | [], 0, l + 1, _, _, hl => exact Nat.le_trans hnext (hout.inside [] l found' hl).1
    | [], k + 1, l + 1, hkl, hk, hl =>
      exact hout.apart [] k l found found' (Nat.lt_of_succ_lt_succ hkl) hk hl
    | 0 :: path, k, l, hkl, hk, hl =>
      exact hin.apart path k l found found' hkl (find?_inner_concat part path k ▸ hk)
        (find?_inner_concat part path l ▸ hl)
    | (j + 1) :: path, k, l, hkl, hk, hl => exact hout.apart (j :: path) k l found found' hkl hk hl

end Part

/-! ## Parts along the tokens -/

namespace Grammar

/-- Parts that are read one after the other from the tokens before `rest`, and so on for the parts
inside them. -/
inductive Spread : List Token → List Part → List Token → Prop
  | nil {ts rest} (h : rest <:+ ts) : Spread ts [] rest
  | cons {ts start part r parts rest} (hs : start <:+ ts) (hc : Covers start part.span r)
    (hr : part.ReadFrom start r) (hin : Spread start part.inner r) (h : Spread r parts rest) :
    Spread ts (part :: parts) rest

/-- The part is read from the tokens before `rest`, and the parts inside it from these. -/
structure Placed (ts : List Token) (part : Part) (rest : List Token) : Prop where
  covers : Covers ts part.span rest
  read : part.ReadFrom ts rest
  inner : Spread ts part.inner rest

/-- Parts with no tokens between them. -/
inductive Tiles : List Token → List Part → List Token → Prop
  | nil {ts} : Tiles ts [] ts
  | cons {ts part r parts rest} (hp : Placed ts part r) (h : Tiles r parts rest) :
    Tiles ts (part :: parts) rest

namespace Spread

variable {ts start r rest : List Token} {parts more : List Part}

theorem widen (h : Spread start parts r) (hs : start <:+ ts) (hr : rest <:+ r) :
    Spread ts parts rest := by
  induction h generalizing ts with
  | nil h => exact .nil ((hr.trans h).trans hs)
  | cons hs' hc hread hin _ _ ih =>
    exact .cons (hs'.trans hs) hc hread hin (ih List.suffix_rfl hr)

theorem suffix (h : Spread ts parts rest) : rest <:+ ts := by
  induction h with
  | nil h => exact h
  | cons hs hc _ _ _ _ ih => exact ih.trans (hc.suffix.trans hs)

theorem append (h : Spread ts parts r) (hmore : Spread r more rest) :
    Spread ts (parts ++ more) rest := by
  induction h with
  | nil h => exact hmore.widen h List.suffix_rfl
  | cons hs hc hread hin _ _ ih => exact .cons hs hc hread hin (ih hmore)

end Spread

theorem Placed.cons {ts r rest : List Token} {part : Part} {parts : List Part}
    (hp : Placed ts part r) (h : Spread r parts rest) : Spread ts (part :: parts) rest :=
  .cons List.suffix_rfl hp.covers hp.read hp.inner h

theorem Placed.spread {ts rest : List Token} {part : Part} (hp : Placed ts part rest) :
    Spread ts [part] rest :=
  hp.cons (.nil List.suffix_rfl)

theorem Tiles.suffix {ts rest : List Token} {parts : List Part} (h : Tiles ts parts rest) :
    rest <:+ ts := by
  induction h with
  | nil => exact List.suffix_rfl
  | cons hp _ ih => exact ih.trans hp.covers.suffix

theorem IsLetter.placed {ts rest : List Token} {c : Located Char} (h : IsLetter ts c rest) :
    Placed ts (.letter c) rest :=
  ⟨h.covers, Parser.reads_letter.mpr h, .nil h.covers.suffix⟩

theorem IsName.placed {ts rest : List Token} {n : Located String} (h : IsName ts n rest) :
    Placed ts (.name n) rest :=
  ⟨h.covers, Parser.reads_identifier.mpr h, .nil h.covers.suffix⟩

theorem IsSymbol.placed {ts rest : List Token} {s : Located Symbol} (h : IsSymbol ts s rest) :
    Placed ts (.symbol s) rest :=
  ⟨h.covers, Parser.reads_symbol.mpr h, .nil h.covers.suffix⟩

theorem IsList.spread {α : Type} {item : List Token → α → List Token → Prop} {part : α → Part}
    (hitem : ∀ {ts a rest}, item ts a rest → Placed ts (part a) rest) {ts rest : List Token}
    {as : List α} (h : IsList item ts as rest) : Spread ts (as.map part) rest := by
  induction h with
  | one h => exact (hitem h).spread
  | more h hc _ ih => exact (hitem h).cons (ih.widen hc.suffix List.suffix_rfl)

theorem IsAlphabet.placed {ts rest : List Token} {a : Alphabet} (h : IsAlphabet ts a rest) :
    Placed ts (.alphabet a) rest := by
  have hread := Parser.reads_alphabet.mpr h
  obtain ⟨h₁, h₂, h₃, hl, h₄, hc⟩ := h
  have hopen := h₃.suffix.trans (h₂.suffix.trans h₁.suffix)
  exact ⟨hc, hread, (hl.spread fun h => h.placed).widen hopen h₄.suffix⟩

theorem IsOption.spread_write {ts rest : List Token} {w : Option (Located Symbol)}
    (h : IsOption IsWrite ts w rest) : Spread ts (w.toList.map .symbol) rest := by
  cases h with
  | missing => exact .nil List.suffix_rfl
  | given h =>
    obtain ⟨r, hword, hs⟩ := h
    exact hs.placed.spread.widen hword.suffix List.suffix_rfl

theorem IsOption.spread_move {ts rest : List Token} {m : Option Direction}
    (h : IsOption IsMove ts m rest) : Spread ts [] rest := by
  cases h with
  | missing => exact .nil List.suffix_rfl
  | given h =>
    obtain ⟨r, hword, hd⟩ := h
    exact .nil (hd.suffix.trans hword.suffix)

theorem IsOption.spread_flow {ts rest : List Token} {f : Option Flow}
    (h : IsOption IsFlow ts f rest) : Spread ts (f.toList.flatMap Part.ofFlow) rest := by
  cases h with
  | missing => exact .nil List.suffix_rfl
  | given h =>
    cases h with
    | goto hword hn => exact hn.placed.spread.widen hword.suffix List.suffix_rfl
    | accept hword => exact .nil hword.suffix
    | reject hword => exact .nil hword.suffix

theorem IsBasic.placed {ts rest : List Token} {b : BasicBlock} (h : IsBasic ts b rest)
    (he : Ending.greedy.basic ts rest) : Placed ts (.basic b) rest := by
  obtain ⟨r, r', hw, hm, hf⟩ := h.commands
  refine ⟨h.covers, Parser.reads_basicBlock.mpr ⟨h, he⟩, ?_⟩
  exact hw.spread_write.append (hm.spread_move.append hf.spread_flow)

theorem IsCore.placed {ts rest : List Token} {b : CoreBlock} (h : IsCore ts b rest)
    (hn : ¬ Starts (starters 1) rest) : Placed ts (.core b) rest := by
  obtain ⟨r, hw, hm⟩ := h.commands
  refine ⟨h.covers, Parser.reads_coreBlock h hn, ?_⟩
  have hparts := hw.spread_write.append hm.spread_move
  rwa [List.append_nil] at hparts

mutual

theorem IsBlocks.spread :
    ∀ {ts : List Token} {bs : List Block} {rest : List Token}, IsBlocks .greedy ts bs rest →
      Spread ts (bs.map Part.ofBlock) rest
  | _, _, _, .nil => .nil List.suffix_rfl
  | _, _, _, .cons hb hbs => (IsBlock.placed hb).cons (IsBlocks.spread hbs)

theorem IsBlock.placed :
    ∀ {ts : List Token} {b : Block} {rest : List Token}, IsBlock .greedy ts b rest →
      Placed ts (.ofBlock b) rest
  | _, _, _, .basic h he => h.placed he
  | _, _, _, .switch h₁ h₂ h₃ hcs h₄ hc => by
    obtain ⟨t, r, hts, -, hread⟩ := Parser.reads_of_isBlock (.switch h₁ h₂ h₃ hcs h₄ hc)
    have hopen := h₃.suffix.trans (h₂.suffix.trans h₁.suffix)
    exact ⟨hc, ⟨t, r, hts, hread⟩, (IsCases.spread hcs).widen hopen h₄.suffix⟩
  | _, _, _, .run hcs he hc => by
    obtain ⟨t, r, hts, -, hread⟩ := Parser.reads_of_isBlock (.run hcs he hc)
    exact ⟨hc, ⟨t, r, hts, hread⟩, IsCases.spread hcs⟩

theorem IsCases.spread :
    ∀ {ts : List Token} {cs : List Case} {rest : List Token}, IsCases .greedy ts cs rest →
      Spread ts (cs.map Part.case) rest
  | _, _, _, .one h => (IsCase.placed h).spread
  | _, _, _, .more h hcs => (IsCase.placed h).cons (IsCases.spread hcs)

theorem IsCase.placed :
    ∀ {ts : List Token} {c : Case} {rest : List Token}, IsCase .greedy ts c rest →
      Placed ts (.case c) rest
  | _, _, _, .branch h₁ hs h₂ hf he hbs h₃ hc => by
    have hread := Parser.reads_of_isCase (.branch h₁ hs h₂ hf he hbs h₃ hc)
    have hbody := ((hf.placed he).cons (IsBlocks.spread hbs)).widen h₂.suffix h₃.suffix
    have hparts := (hs.spread fun h => h.placed).append hbody
    exact ⟨hc, hread, hparts.widen h₁.suffix List.suffix_rfl⟩
  | _, _, _, .loop h₁ hs h₂ hb h₃ hc => by
    have hread := Parser.reads_of_isCase (.loop h₁ hs h₂ hb h₃ hc)
    have hn : ¬ Starts (starters 1) _ := h₃.not_starts (by decide)
    have hbody := (hb.placed hn).spread.widen h₂.suffix h₃.suffix
    have hparts := (hs.spread fun h => h.placed).append hbody
    exact ⟨hc, hread, hparts.widen h₁.suffix List.suffix_rfl⟩

end

theorem IsModule.placed {ts rest : List Token} {m : Module} (h : IsModule .greedy ts m rest) :
    Placed ts (.module m) rest := by
  have hread := Parser.reads_module.mpr h
  obtain ⟨h₁, hn, h₂, hbs, -, h₃, hc⟩ := h
  have hblocks := hbs.spread.widen h₂.suffix h₃.suffix
  exact ⟨hc, hread, (hn.placed.cons hblocks).widen h₁.suffix List.suffix_rfl⟩

theorem IsModules.tiles {ts rest : List Token} {ms : List Module}
    (h : IsModules .greedy ts ms rest) : Tiles ts (ms.map Part.module) rest := by
  induction h with
  | one h => exact .cons h.placed .nil
  | more h _ ih => exact .cons h.placed ih

end Grammar

def Program.parts (p : Program) : List Part := .alphabet p.alphabet :: p.modules.map .module

theorem Grammar.IsProgram.tiles {ts : List Token} {p : Program} (h : IsProgram .greedy ts p) :
    Tiles ts p.parts [] := by
  obtain ⟨r, ha, hm⟩ := h
  exact .cons ha.placed hm.tiles

/-! ## Counting -/

namespace Part

open Grammar

def number (ts r : List Token) : Nat := ts.length - r.length

theorem number_le {ts r r' : List Token} (h : r' <:+ r) : number ts r ≤ number ts r' :=
  Nat.sub_le_sub_left h.length_le ts.length

theorem drop_number {ts r : List Token} (h : r <:+ ts) : ts.drop (number ts r) = r :=
  (List.suffix_iff_eq_drop.mp h).symm

theorem getElem?_number {ts r : List Token} {t : Token} (h : t :: r <:+ ts) :
    ts[number ts (t :: r)]? = some t := by
  rw [← List.head?_drop, drop_number h]
  rfl

theorem takes_of_covers {ts start rest : List Token} {part : Part} (hs : start <:+ ts)
    (hc : Covers start part.span rest) (hr : part.ReadFrom start rest) :
    part.Takes ts (number ts start) (number ts rest) := by
  have hlt := hc.length_lt
  have hle := hs.length_le
  have hrest := hc.suffix.trans hs
  obtain ⟨f, l, more, rfl, hl, hspan⟩ := hc
  refine ⟨?_, ⟨f, l, getElem?_number hs, getElem?_number (hl.trans hs), hspan⟩, ?_⟩
  · rw [number, number]
    omega
  · rwa [drop_number hs, drop_number hrest]

theorem exists_ranged {ts start rest : List Token} {parts : List Part}
    (h : Spread start parts rest) (hs : start <:+ ts) :
    ∃ first stop, Ranged ts parts first stop ∧ first [] = number ts start ∧
      stop [] = number ts rest := by
  induction h with
  | @nil start rest h =>
    exact ⟨fun _ => number ts start, fun _ => number ts rest, ranged_nil ts _ _, rfl, rfl⟩
  | @cons outer start part r parts rest hstart hc hr _ h ihin ih =>
    have hs' := hstart.trans hs
    obtain ⟨f, s, hin, hf, hstop⟩ := ihin hs'
    obtain ⟨f', s', hout, hf', hstop'⟩ := ih (hc.suffix.trans hs')
    have htakes := takes_of_covers hs' hc hr
    rw [← hf, ← hstop] at htakes
    have hnext : s [] ≤ f' [] := Nat.le_of_eq (hstop.trans hf'.symm)
    have hle : f' [] ≤ s' [] := by
      rw [hf', hstop']
      exact number_le h.suffix
    have hlo : number ts outer ≤ f [] := by
      rw [hf]
      exact number_le hstart
    exact ⟨graft (number ts outer) f f', graft (s' []) s s', hin.cons hout htakes hnext hle hlo,
      rfl, hstop'⟩

/-- Parts with no tokens between them leave none out. -/
theorem exists_ranged_of_tiles {ts start rest : List Token} {parts : List Part}
    (h : Tiles start parts rest) (hs : start <:+ ts) :
    ∃ first stop, Ranged ts parts first stop ∧ first [] = number ts start ∧
      stop [] = number ts rest ∧ ∀ t, first [] ≤ t → t < stop [] →
        ∃ k < parts.length, first [k] ≤ t ∧ t < stop [k] := by
  induction h with
  | @nil rest =>
    refine ⟨fun _ => number ts rest, fun _ => number ts rest, ranged_nil ts _ _, rfl, rfl, ?_⟩
    intro t hfirst hstop
    exact absurd hstop (Nat.not_lt.mpr hfirst)
  | @cons start part r parts rest hp h ih =>
    obtain ⟨f, s, hin, hf, hstop⟩ := exists_ranged hp.inner hs
    obtain ⟨f', s', hout, hf', hstop', hcover⟩ := ih (hp.covers.suffix.trans hs)
    have htakes := takes_of_covers hs hp.covers hp.read
    rw [← hf, ← hstop] at htakes
    have hnext : s [] = f' [] := hstop.trans hf'.symm
    have hle : f' [] ≤ s' [] := by
      rw [hf', hstop']
      exact number_le h.suffix
    refine ⟨graft (f []) f f', graft (s' []) s s',
      hin.cons hout htakes (Nat.le_of_eq hnext) hle (Nat.le_refl _), hf, hstop', ?_⟩
    intro t hfirst ht
    by_cases hown : t < s []
    · exact ⟨0, Nat.zero_lt_succ _, hfirst, hown⟩
    · rw [hnext, Nat.not_lt] at hown
      obtain ⟨k, hk, hbounds⟩ := hcover t hown ht
      exact ⟨k + 1, Nat.succ_lt_succ hk, hbounds⟩

/-- A token belongs to one part at most. -/
theorem Ranged.unique {ts : List Token} {parts : List Part} {first stop : List Nat → Nat}
    (h : Ranged ts parts first stop) {t k l : Nat} (hk : k < parts.length)
    (hl : l < parts.length) (hkt : first [k] ≤ t ∧ t < stop [k])
    (hlt : first [l] ≤ t ∧ t < stop [l]) : k = l := by
  have hfind : ∀ {j : Nat}, j < parts.length → ∃ part, find? parts ([] ++ [j]) = some part := by
    intro j hj
    exact ⟨parts[j], by rw [List.nil_append, find?, List.getElem?_eq_getElem hj]; rfl⟩
  obtain ⟨part, hpart⟩ := hfind hk
  obtain ⟨part', hpart'⟩ := hfind hl
  rcases Nat.lt_trichotomy k l with hlt' | heq | hgt
  · have hapart : stop [k] ≤ first [l] := h.apart [] k l part part' hlt' hpart hpart'
    omega
  · exact heq
  · have hapart : stop [l] ≤ first [k] := h.apart [] l k part' part hgt hpart' hpart
    omega

end Part

namespace Program

/-- Every part of a program takes the tokens that its reader took for it, and its region goes from
the first of them to the last.  These ranges nest as the parts do, follow each other in the order
of the text, and those of the alphabet and the modules divide the tokens among them. -/
theorem exists_ranges {text : String} {ts : List Token} {p : Program}
    (hts : Token.scan text = .ok ts) (hp : parse text = .ok p) :
    ∃ first stop : List Nat → Nat, Part.Ranged ts p.parts first stop ∧ first [] = 0 ∧
      stop [] = ts.length ∧
      ∀ t < ts.length, ∃! k, k < p.parts.length ∧ first [k] ≤ t ∧ t < stop [k] := by
  have htiles := ((parse_eq_ok hts).mp hp).tiles
  obtain ⟨first, stop, hranged, hfirst, hstop, hcover⟩ :=
    Part.exists_ranged_of_tiles htiles List.suffix_rfl
  have hzero : first [] = 0 := by rw [hfirst, Part.number, Nat.sub_self]
  have hlength : stop [] = ts.length := hstop
  refine ⟨first, stop, hranged, hzero, hlength, fun t ht => ?_⟩
  obtain ⟨k, hk, hbounds⟩ := hcover t (hzero ▸ Nat.zero_le t) (hlength ▸ ht)
  refine ⟨k, ⟨hk, hbounds⟩, fun l hl => ?_⟩
  exact hranged.unique hl.1 hk hl.2 hbounds

/-- In the sample the third block of the module, a run of cases, is read from tokens of its own. -/
theorem exists_ranges_sampleText : ∃ ts p first stop cases span,
    Token.scan sampleText = .ok ts ∧ parse sampleText = .ok p ∧
    Part.find? p.parts [1, 3] = some (.switch cases span) ∧
    Part.Takes ts (.switch cases span) (first [1, 3]) (stop [1, 3]) ∧
    Part.Ranged ts p.parts first stop ∧
    ∀ t < ts.length, ∃! k, k < p.parts.length ∧ first [k] ≤ t ∧ t < stop [k] := by
  obtain ⟨p, hp⟩ := exists_parse_sampleText
  obtain ⟨ts, hts⟩ := exists_scan_of_parse hp
  obtain ⟨first, stop, hranged, -, -, hcover⟩ := exists_ranges hts hp
  have hsome : ((parse sampleText).toOption.bind fun p => Part.find? p.parts [1, 3]).any
      fun part => match part with
        | .switch _ _ => true
        | _ => false := by
    decide +kernel
  rw [hp] at hsome
  obtain ⟨part, hpart, hkind⟩ := (Option.any_eq_true _ _).mp hsome
  cases part with
  | switch cases span =>
    exact ⟨ts, p, first, stop, cases, span, hts, hp, hpart, hranged.takes [1, 3] _ hpart, hranged,
      hcover⟩
  | _ => cases hkind

end Program

end TapeLang
