import TapeLang.Proofs.Scanning
import TapeLang.Proofs.WellFormed

/-!
Programs written as text, and read again.

`Program.unparse` writes the tokens of a tree with a space between them and every switch with
its own words and braces.  What it writes for a well-formed tree is read as that tree: since
no run of cases stands for a switch, the only choice of the parser is where a basic block ends,
and there the blocks of a well-formed sequence stand apart.  Together with
`Program.wellFormed_of_parse` this says which trees the parser returns
(`Program.exists_parse_iff_wellFormed`).
-/

namespace TapeLang

def Flow.words : Flow → List String
  | .goto target => ["goto", target.value]
  | .accept => ["accept"]
  | .reject => ["reject"]

def writeWords (write : Option (Located Symbol)) : List String :=
  write.elim [] fun s => ["changeto", s.value.text]

def moveWords (move : Option Direction) : List String :=
  move.elim [] fun d => ["move", d.text]

def BasicBlock.words (b : BasicBlock) : List String :=
  writeWords b.write ++ (moveWords b.move ++ b.flow.elim [] Flow.words)

def CoreBlock.words (b : CoreBlock) : List String := writeWords b.write ++ moveWords b.move

def listWords (words : List String) : List String := words.intersperse ","

def symbolWords (ss : List (Located Symbol)) : List String :=
  listWords (ss.map fun s => s.value.text)

mutual

def Block.words : Block → List String
  | .basic b => b.words
  | .switch cases _ => "switch" :: "tapehead" :: "\x7b" :: (Case.allWords cases ++ ["\x7d"])

def Block.allWords : List Block → List String
  | [] => []
  | b :: bs => b.words ++ Block.allWords bs

def Case.words : Case → List String
  | .branch symbols first rest _ =>
    "if" :: (symbolWords symbols ++
      "\x7b" :: (first.words ++ (Block.allWords rest ++ ["\x7d"])))
  | .loop symbols body _ =>
    "while" :: (symbolWords symbols ++ "\x7b" :: (body.words ++ ["\x7d"]))

def Case.allWords : List Case → List String
  | [] => []
  | c :: cs => c.words ++ Case.allWords cs

end

def Module.words (m : Module) : List String :=
  "module" :: m.name.value :: "\x7b" :: (Block.allWords m.blocks ++ ["\x7d"])

def Alphabet.words (a : Alphabet) : List String :=
  "alphabet" :: "=" :: "\x7b" ::
    (listWords (a.letters.map fun c => String.singleton c.value) ++ ["\x7d"])

def Program.words (p : Program) : List String :=
  p.alphabet.words ++ p.modules.flatMap Module.words

def Program.unparse (p : Program) : String := " ".intercalate p.words

/-! ## What is written can be cut into tokens again -/

theorem lexeme_of_mem_keywords {w : String} (h : w ∈ Token.keywords) : Lexeme w := by
  have hall : ∀ w ∈ Token.keywords, w.toList ≠ [] ∧ w.toList.all Token.isWordChar := by decide
  exact .inl ⟨(hall w h).1, List.all_eq_true.mp (hall w h).2⟩

theorem isWordChar_of_isLetter {c : Char} (h : isLetter c) : Token.isWordChar c := by
  show (((c.isUpper || c.isLower) || c.isDigit) || decide (c = '_')) = true
  rcases Bool.or_eq_true_iff.mp h with h | h
  · rw [h, Bool.or_true, Bool.true_or, Bool.true_or]
  · rw [h, Bool.or_true, Bool.true_or]

theorem lexeme_of_isLetter {c : Char} (h : isLetter c) : Lexeme (String.singleton c) := by
  refine .inl ?_
  rw [String.toList_singleton]
  exact ⟨List.cons_ne_nil c [], List.forall_mem_singleton.mpr (isWordChar_of_isLetter h)⟩

theorem lexeme_of_identifier {name : String} (h : Grammar.Identifier name) : Lexeme name := by
  obtain ⟨-, c, cs, hc, hfirst, hrest⟩ := h
  refine .inl ?_
  rw [hc]
  have hword : Token.isWordChar c := by
    show ((c.isAlpha || c.isDigit) || decide (c = '_')) = true
    rw [hfirst, Bool.true_or, Bool.true_or]
  exact ⟨List.cons_ne_nil c cs, List.forall_mem_cons.mpr ⟨hword, hrest⟩⟩

theorem Symbol.WellFormed.lexeme {s : Symbol} (h : s.WellFormed) : Lexeme s.text := by
  cases s with
  | letter c => exact lexeme_of_isLetter h
  | blank => exact lexeme_of_mem_keywords (by decide)

theorem listWords_lexeme {words : List String} (h : ∀ w ∈ words, Lexeme w) :
    ∀ w ∈ listWords words, Lexeme w := by
  unfold listWords
  induction words with
  | nil => nofun
  | cons w words ih =>
    cases words with
    | nil => exact h
    | cons w' words =>
      rw [List.intersperse_cons_cons, List.forall_mem_cons, List.forall_mem_cons]
      exact ⟨h w (List.mem_cons_self ..), .inr (by decide),
        ih fun v hv => h v (List.mem_cons_of_mem w hv)⟩

theorem SymbolsWellFormed.lexeme {ss : List (Located Symbol)} (h : SymbolsWellFormed ss) :
    ∀ w ∈ symbolWords ss, Lexeme w := by
  refine listWords_lexeme (List.forall_mem_map.mpr fun s hs => ?_)
  exact (h.all s hs).lexeme

theorem writeWords_lexeme {write : Option (Located Symbol)}
    (h : ∀ s ∈ write, s.value.WellFormed) : ∀ w ∈ writeWords write, Lexeme w := by
  cases write with
  | none => nofun
  | some s =>
    rw [writeWords, Option.elim_some, List.forall_mem_cons, List.forall_mem_singleton]
    exact ⟨lexeme_of_mem_keywords (by decide), (h s rfl).lexeme⟩

theorem moveWords_lexeme (move : Option Direction) : ∀ w ∈ moveWords move, Lexeme w := by
  match move with
  | none => nofun
  | some .left | some .right =>
    exact fun w hw => lexeme_of_mem_keywords
      ((by decide : ∀ w ∈ moveWords _, w ∈ Token.keywords) w hw)

theorem flowWords_lexeme {flow : Option Flow} (h : ∀ f ∈ flow, f.WellFormed) :
    ∀ w ∈ flow.elim [] Flow.words, Lexeme w := by
  match flow with
  | none => nofun
  | some (.goto target) =>
    rw [Option.elim_some, Flow.words, List.forall_mem_cons, List.forall_mem_singleton]
    exact ⟨lexeme_of_mem_keywords (by decide), lexeme_of_identifier (h _ rfl)⟩
  | some .accept | some .reject =>
    exact List.forall_mem_singleton.mpr (lexeme_of_mem_keywords (by decide))

theorem BasicBlock.WellFormed.lexeme {b : BasicBlock} (h : b.WellFormed) :
    ∀ w ∈ b.words, Lexeme w := by
  rw [BasicBlock.words, List.forall_mem_append, List.forall_mem_append]
  exact ⟨writeWords_lexeme h.write, moveWords_lexeme b.move, flowWords_lexeme h.flow⟩

theorem CoreBlock.WellFormed.lexeme {b : CoreBlock} (h : b.WellFormed) :
    ∀ w ∈ b.words, Lexeme w := by
  rw [CoreBlock.words, List.forall_mem_append]
  exact ⟨writeWords_lexeme h.write, moveWords_lexeme b.move⟩

theorem lexeme_openBrace : Lexeme "\x7b" := .inr (by decide)

theorem lexeme_closeBrace : Lexeme "\x7d" := .inr (by decide)

mutual

theorem Block.WellFormed.lexeme : ∀ {b : Block}, b.WellFormed → ∀ w ∈ b.words, Lexeme w
  | .basic _, h => BasicBlock.WellFormed.lexeme h
  | .switch _ _, h => by
    simp only [Block.words, List.forall_mem_cons, List.forall_mem_append]
    exact ⟨lexeme_of_mem_keywords (by decide), lexeme_of_mem_keywords (by decide), lexeme_openBrace,
      Case.AllWellFormed.lexeme h.2, lexeme_closeBrace, nofun⟩

theorem Block.AllWellFormed.lexeme :
    ∀ {bs : List Block}, Block.AllWellFormed bs → ∀ w ∈ Block.allWords bs, Lexeme w
  | [], _ => nofun
  | _ :: _, h => by
    rw [Block.allWords, List.forall_mem_append]
    exact ⟨Block.WellFormed.lexeme h.1, Block.AllWellFormed.lexeme h.2⟩

theorem Case.WellFormed.lexeme : ∀ {c : Case}, c.WellFormed → ∀ w ∈ c.words, Lexeme w
  | .branch _ _ _ _, ⟨hs, hf, hrest, _⟩ => by
    simp only [Case.words, List.forall_mem_cons, List.forall_mem_append]
    exact ⟨lexeme_of_mem_keywords (by decide), hs.lexeme, lexeme_openBrace, hf.lexeme,
      Block.AllWellFormed.lexeme hrest, lexeme_closeBrace, nofun⟩
  | .loop _ _ _, ⟨hs, hb⟩ => by
    simp only [Case.words, List.forall_mem_cons, List.forall_mem_append]
    exact ⟨lexeme_of_mem_keywords (by decide), hs.lexeme, lexeme_openBrace, hb.lexeme,
      lexeme_closeBrace, nofun⟩

theorem Case.AllWellFormed.lexeme :
    ∀ {cs : List Case}, Case.AllWellFormed cs → ∀ w ∈ Case.allWords cs, Lexeme w
  | [], _ => nofun
  | _ :: _, h => by
    rw [Case.allWords, List.forall_mem_append]
    exact ⟨Case.WellFormed.lexeme h.1, Case.AllWellFormed.lexeme h.2⟩

end

theorem Module.WellFormed.lexeme {m : Module} (h : m.WellFormed) :
    ∀ w ∈ m.words, Lexeme w := by
  simp only [Module.words, List.forall_mem_cons, List.forall_mem_append]
  exact ⟨lexeme_of_mem_keywords (by decide), lexeme_of_identifier h.name, lexeme_openBrace,
    h.blocks.lexeme, lexeme_closeBrace, nofun⟩

theorem Program.WellFormed.lexeme {p : Program} (h : p.WellFormed) :
    ∀ w ∈ p.words, Lexeme w := by
  simp only [Program.words, Alphabet.words, List.forall_mem_cons, List.forall_mem_append,
    List.forall_mem_flatMap]
  refine ⟨⟨lexeme_of_mem_keywords (by decide), .inr (by decide), lexeme_openBrace,
    listWords_lexeme (List.forall_mem_map.mpr fun c hc => lexeme_of_isLetter (h.letters c hc)),
    lexeme_closeBrace, nofun⟩, fun m hm => (h.modules m hm).lexeme⟩

namespace Grammar

def Spells : List String → List Token → List Token → Prop
  | [], ts, rest => ts = rest
  | w :: ws, ts, rest => ∃ r, Terminal w ts r ∧ Spells ws r rest

theorem spells_append {ws ws' : List String} {ts rest : List Token} :
    Spells (ws ++ ws') ts rest ↔ ∃ r, Spells ws ts r ∧ Spells ws' r rest := by
  induction ws generalizing ts with
  | nil => simp [Spells]
  | cons w ws ih =>
    simp only [List.cons_append, Spells, ih]
    constructor
    · intro h
      obtain ⟨r, hw, r', h, h'⟩ := h
      exact ⟨r', ⟨r, hw, h⟩, h'⟩
    · intro h
      obtain ⟨r', ⟨r, hw, h⟩, h'⟩ := h
      exact ⟨r, hw, r', h, h'⟩

theorem spells_singleton {w : String} {ts rest : List Token} :
    Spells [w] ts rest ↔ Terminal w ts rest := by
  simp [Spells]

theorem spells_map_text : ∀ ts : List Token, Spells (ts.map (·.text)) ts []
  | [] => rfl
  | t :: ts => ⟨ts, ⟨t, rfl, rfl⟩, spells_map_text ts⟩

theorem Spells.suffix {ws : List String} {ts rest : List Token} (h : Spells ws ts rest) :
    rest <:+ ts := by
  induction ws generalizing ts with
  | nil => exact h ▸ List.suffix_rfl
  | cons w ws ih =>
    obtain ⟨r, hw, hr⟩ := h
    exact (ih hr).trans hw.suffix

theorem Spells.length {ws : List String} {ts rest : List Token} (h : Spells ws ts rest) :
    ts.length = ws.length + rest.length := by
  induction ws generalizing ts with
  | nil => rw [Spells] at h; simp [h]
  | cons w ws ih =>
    obtain ⟨r, hw, hr⟩ := h
    rw [hw.length, ih hr, List.length_cons]
    omega

theorem Spells.exists_covers {ws : List String} {ts rest : List Token} (h : Spells ws ts rest)
    (hne : ws ≠ []) : ∃ span, Covers ts span rest := by
  have hpos := List.length_pos_iff.mpr hne
  have hlength := h.length
  exact Grammar.exists_covers h.suffix (by omega)

/-! ## What is written is derived -/

theorem exists_isLetter {c : Char} {ts rest : List Token} (hc : isLetter c)
    (h : Terminal (String.singleton c) ts rest) : ∃ span, IsLetter ts ⟨c, span⟩ rest := by
  obtain ⟨t, rfl, ht⟩ := h
  exact ⟨t.span, ⟨t, rfl, ht⟩, hc, Covers.token t rest⟩

theorem exists_isSymbol {s : Symbol} {ts rest : List Token} (hs : s.WellFormed)
    (h : Terminal s.text ts rest) : ∃ span, IsSymbol ts ⟨s, span⟩ rest := by
  cases s with
  | letter c =>
    obtain ⟨span, hc⟩ := exists_isLetter hs h
    exact ⟨span, .letter hc⟩
  | blank =>
    obtain ⟨t, rfl, ht⟩ := h
    exact ⟨t.span, .blank ⟨t, rfl, ht⟩ (Covers.token t rest)⟩

theorem exists_isName {name : String} {ts rest : List Token} (hn : Identifier name)
    (h : Terminal name ts rest) : ∃ span, IsName ts ⟨name, span⟩ rest := by
  obtain ⟨t, rfl, ht⟩ := h
  exact ⟨t.span, ⟨t, rfl, ht⟩, hn, Covers.token t rest⟩

theorem exists_isList {α : Type} {item : List Token → Located α → List Token → Prop}
    {text : α → String} {P : α → Prop}
    (hitem : ∀ {a ts rest}, P a → Terminal (text a) ts rest → ∃ span, item ts ⟨a, span⟩ rest)
    {as : List (Located α)} {ts rest : List Token} (hne : as ≠ []) (has : ∀ a ∈ as, P a.value)
    (h : Spells (listWords (as.map fun a => text a.value)) ts rest) :
    ∃ as', IsList item ts as' rest ∧ as'.map Located.erase = as.map Located.erase := by
  unfold listWords at h
  induction as generalizing ts with
  | nil => exact absurd rfl hne
  | cons a as ih =>
    have ha := has a (List.mem_cons_self ..)
    cases as with
    | nil =>
      obtain ⟨span, h'⟩ := hitem ha (spells_singleton.mp h)
      exact ⟨[⟨a.value, span⟩], .one h', rfl⟩
    | cons a' as =>
      obtain ⟨r, hr, r', hcomma, hrest⟩ := h
      obtain ⟨span, h'⟩ := hitem ha hr
      obtain ⟨as', has', he⟩ := ih (List.cons_ne_nil a' as)
        (fun b hb => has b (List.mem_cons_of_mem a hb)) hrest
      exact ⟨⟨a.value, span⟩ :: as', .more h' hcomma has', by
        rw [List.map_cons, he, List.map_cons, List.map_cons]; rfl⟩

theorem exists_isSymbols {ss : List (Located Symbol)} {ts rest : List Token}
    (hs : SymbolsWellFormed ss) (h : Spells (symbolWords ss) ts rest) :
    ∃ ss', IsList IsSymbol ts ss' rest ∧ ss'.map Located.erase = ss.map Located.erase :=
  exists_isList exists_isSymbol hs.ne_nil hs.all h

theorem exists_isWrite {write : Option (Located Symbol)} {ts rest : List Token}
    (hw : ∀ s ∈ write, s.value.WellFormed) (h : Spells (writeWords write) ts rest) :
    ∃ write', IsOption IsWrite ts write' rest ∧
      write'.map Located.erase = write.map Located.erase := by
  cases write with
  | none =>
    obtain rfl := h
    exact ⟨none, .missing, rfl⟩
  | some s =>
    obtain ⟨r, hr, hs⟩ := h
    obtain ⟨span, hs'⟩ := exists_isSymbol (hw s rfl) (spells_singleton.mp hs)
    exact ⟨some ⟨s.value, span⟩, .given ⟨r, hr, hs'⟩, rfl⟩

theorem isMove_of_spells {move : Option Direction} {ts rest : List Token}
    (h : Spells (moveWords move) ts rest) : IsOption IsMove ts move rest := by
  cases move with
  | none =>
    obtain rfl := h
    exact .missing
  | some d =>
    obtain ⟨r, hr, hd⟩ := h
    exact .given ⟨r, hr, spells_singleton.mp hd⟩

theorem exists_isFlow {flow : Option Flow} {ts rest : List Token}
    (hf : ∀ f ∈ flow, f.WellFormed) (h : Spells (flow.elim [] Flow.words) ts rest) :
    ∃ flow', IsOption IsFlow ts flow' rest ∧ flow'.map Flow.erase = flow.map Flow.erase := by
  match flow with
  | none =>
    obtain rfl := h
    exact ⟨none, .missing, rfl⟩
  | some (.goto target) =>
    obtain ⟨r, hr, hn⟩ := h
    obtain ⟨span, hn'⟩ := exists_isName (hf _ rfl) (spells_singleton.mp hn)
    exact ⟨some (.goto ⟨target.value, span⟩), .given (.goto hr hn'), rfl⟩
  | some .accept => exact ⟨some .accept, .given (.accept (spells_singleton.mp h)), rfl⟩
  | some .reject => exact ⟨some .reject, .given (.reject (spells_singleton.mp h)), rfl⟩

theorem exists_isBasic {b : BasicBlock} {ts rest : List Token} (hb : b.WellFormed)
    (h : Spells b.words ts rest) : ∃ b', IsBasic ts b' rest ∧ b'.erase = b.erase := by
  have hsome := commands_ne_nil.mp hb.some
  have hne : b.words ≠ [] := by
    obtain ⟨_ | _, _ | _, _ | _ | _ | _, span⟩ := b <;>
      simp_all [BasicBlock.words, writeWords, moveWords, Flow.words]
  obtain ⟨span, hc⟩ := h.exists_covers hne
  obtain ⟨r, hw, h'⟩ := spells_append.mp h
  obtain ⟨r', hm, hf⟩ := spells_append.mp h'
  obtain ⟨write, hw', hwe⟩ := exists_isWrite hb.write hw
  obtain ⟨flow, hf', hfe⟩ := exists_isFlow hb.flow hf
  have hws : write.isSome = b.write.isSome := by
    rw [← Option.isSome_map, hwe, Option.isSome_map]
  have hfs : flow.isSome = b.flow.isSome := by
    rw [← Option.isSome_map, hfe, Option.isSome_map]
  refine ⟨⟨write, b.move, flow, span⟩, ⟨⟨r, r', hw', isMove_of_spells hm, hf'⟩, ?_, hc⟩, ?_⟩
  · rw [hws, hfs]
    exact hsome
  · rw [BasicBlock.erase, BasicBlock.erase, hwe, hfe]

theorem exists_isCore {b : CoreBlock} {ts rest : List Token} (hb : b.WellFormed)
    (h : Spells b.words ts rest) : ∃ b', IsCore ts b' rest ∧ b'.erase = b.erase := by
  have hsome := hb.some
  have hne : b.words ≠ [] := by
    obtain ⟨_ | _, _ | _, span⟩ := b <;> simp_all [CoreBlock.words, writeWords, moveWords]
  obtain ⟨span, hc⟩ := h.exists_covers hne
  obtain ⟨r, hw, hm⟩ := spells_append.mp h
  obtain ⟨write, hw', hwe⟩ := exists_isWrite hb.write hw
  have hws : write.isSome = b.write.isSome := by
    rw [← Option.isSome_map, hwe, Option.isSome_map]
  refine ⟨⟨write, b.move, span⟩, ⟨⟨r, hw', isMove_of_spells hm⟩, ?_, hc⟩, ?_⟩
  · rw [hws]
    exact hsome
  · rw [CoreBlock.erase, CoreBlock.erase, hwe]

theorem commands_eq_of_erase {b b' : BasicBlock} (h : b.erase = b'.erase) :
    b.commands = b'.commands := by
  rw [← b.commands_erase, h, b'.commands_erase]

/-- The next block of a sequence, or the brace after it, shows that a basic block is over. -/
theorem stops_of_isChain {b : BasicBlock} {bs : List Block} {r rest : List Token} {last : Nat}
    (hl : last ∈ b.commands.getLast?) (hc : (.basic b :: bs).IsChain Block.Apart)
    (hbs : Block.AllWellFormed bs) (h : Spells (Block.allWords bs) r rest)
    (hr : Starts ["\x7d"] rest) : Stops (last + 1) r := by
  intro j hj hs
  have hcmd := hs.mono (starters_subset j)
  cases bs with
  | nil =>
    obtain rfl := h
    exact hcmd.disjoint (by decide) hr
  | cons b' bs =>
    cases b' with
    | switch cases span =>
      obtain ⟨r', hswitch, -⟩ := h
      exact hcmd.disjoint (by decide) (hswitch.starts (List.mem_singleton_self _))
    | basic b' =>
      obtain ⟨r', h₁, -⟩ := spells_append.mp h
      obtain ⟨b'', hb'', he⟩ := exists_isBasic hbs.1 h₁
      obtain ⟨first, hfirst⟩ : ∃ first, first ∈ b'.commands.head? :=
        ⟨_, List.head?_eq_some_head hbs.1.some⟩
      have hj' := hs.inj (hb''.starts_first (commands_eq_of_erase he ▸ hfirst))
      have hapart := (List.isChain_cons_cons.mp hc).1 last hl first hfirst
      omega

/-- A basic block that is written apart from what follows ends where the parser ends it. -/
theorem exists_isBasic_greedy {b : BasicBlock} {bs : List Block} {ts r rest : List Token}
    (hb : b.WellFormed) (hbs : Block.AllWellFormed bs)
    (hc : (.basic b :: bs).IsChain Block.Apart) (h : Spells b.words ts r)
    (h' : Spells (Block.allWords bs) r rest) (hr : Starts ["\x7d"] rest) :
    ∃ b', IsBasic ts b' r ∧ Ending.greedy.basic ts r ∧ b'.erase = b.erase := by
  obtain ⟨b', hb', he⟩ := exists_isBasic hb h
  obtain ⟨last, hl⟩ : ∃ last, last ∈ b.commands.getLast? :=
    ⟨_, List.getLast?_eq_some_getLast hb.some⟩
  have hstage : stageOf b' = last + 1 := stageOf_eq_succ (commands_eq_of_erase he ▸ hl)
  have hrun := hb'.run
  rw [hstage] at hrun
  exact ⟨b', hb', ⟨last + 1, hrun, stops_of_isChain hl hc hbs h' hr⟩, he⟩

mutual

theorem exists_isBlocks :
    ∀ {bs : List Block} {ts rest : List Token}, Block.AllWellFormed bs →
      bs.IsChain Block.Apart → Spells (Block.allWords bs) ts rest → Starts ["\x7d"] rest →
        ∃ bs', IsBlocks .greedy ts bs' rest ∧ Block.eraseAll bs' = Block.eraseAll bs
  | [], _, _, _, _, h, _ => by
    obtain rfl := h
    exact ⟨[], .nil, rfl⟩
  | .basic b :: bs, ts, rest, hwf, hc, h, hr => by
    obtain ⟨r, hb, hbs⟩ := spells_append.mp h
    obtain ⟨b', hb', hg, he⟩ := exists_isBasic_greedy hwf.1 hwf.2 hc hb hbs hr
    obtain ⟨bs', hbs', hes⟩ := exists_isBlocks hwf.2 hc.tail hbs hr
    exact ⟨.basic b' :: bs', .cons (.basic hb' hg) hbs', by
      rw [Block.eraseAll, Block.eraseAll, hes, Block.erase, Block.erase, he]⟩
  | .switch cases span :: bs, ts, rest, hwf, hc, h, hr => by
    obtain ⟨r, hb, hbs⟩ := spells_append.mp h
    obtain ⟨span', hcov⟩ := hb.exists_covers (List.cons_ne_nil _ _)
    obtain ⟨r₁, h₁, r₂, h₂, r₃, h₃, hb'⟩ := hb
    obtain ⟨r₄, hcs, h₄⟩ := spells_append.mp hb'
    obtain ⟨cases', hcs', hec⟩ := exists_isCases hwf.1.1 hwf.1.2 hcs
    obtain ⟨bs', hbs', hes⟩ := exists_isBlocks hwf.2 hc.tail hbs hr
    refine ⟨.switch cases' span' :: bs',
      .cons (.switch h₁ h₂ h₃ hcs' (spells_singleton.mp h₄) hcov) hbs', ?_⟩
    rw [Block.eraseAll, Block.eraseAll, hes, Block.erase, Block.erase, hec]

theorem exists_isCases :
    ∀ {cs : List Case} {ts rest : List Token}, cs ≠ [] → Case.AllWellFormed cs →
      Spells (Case.allWords cs) ts rest →
        ∃ cs', IsCases .greedy ts cs' rest ∧ Case.eraseAll cs' = Case.eraseAll cs
  | [], _, _, hne, _, _ => absurd rfl hne
  | [c], ts, rest, _, hwf, h => by
    obtain ⟨r, hc, rfl⟩ := spells_append.mp h
    obtain ⟨c', hc', he⟩ := exists_isCase hwf.1 hc
    exact ⟨[c'], .one hc', by rw [Case.eraseAll, Case.eraseAll, he]; rfl⟩
  | c :: d :: cs, ts, rest, _, hwf, h => by
    obtain ⟨r, hc, hcs⟩ := spells_append.mp h
    obtain ⟨c', hc', he⟩ := exists_isCase hwf.1 hc
    obtain ⟨cs', hcs', hes⟩ := exists_isCases (List.cons_ne_nil d cs) hwf.2 hcs
    exact ⟨c' :: cs', .more hc' hcs', by rw [Case.eraseAll, Case.eraseAll, he, hes]⟩

theorem exists_isCase :
    ∀ {c : Case} {ts rest : List Token}, c.WellFormed → Spells c.words ts rest →
      ∃ c', IsCase .greedy ts c' rest ∧ c'.erase = c.erase
  | .branch symbols first body span, ts, rest, ⟨hs, hf, hbody, hc⟩, h => by
    obtain ⟨span', hcov⟩ := h.exists_covers (List.cons_ne_nil _ _)
    obtain ⟨r₁, h₁, h⟩ := h
    obtain ⟨r₂, hs₂, r₃, h₃, h⟩ := spells_append.mp h
    obtain ⟨r₄, hf₄, h⟩ := spells_append.mp h
    obtain ⟨r₅, hb₅, h₅⟩ := spells_append.mp h
    have hclose := spells_singleton.mp h₅
    have hr := hclose.starts (List.mem_singleton_self _)
    obtain ⟨symbols', hs', hse⟩ := exists_isSymbols hs hs₂
    obtain ⟨first', hf', hg, hfe⟩ := exists_isBasic_greedy hf hbody hc hf₄ hb₅ hr
    obtain ⟨body', hb', hbe⟩ := exists_isBlocks hbody hc.tail hb₅ hr
    exact ⟨.branch symbols' first' body' span', .branch h₁ hs' h₃ hf' hg hb' hclose hcov, by
      rw [Case.erase, Case.erase, hse, hfe, hbe]⟩
  | .loop symbols body span, ts, rest, ⟨hs, hb⟩, h => by
    obtain ⟨span', hcov⟩ := h.exists_covers (List.cons_ne_nil _ _)
    obtain ⟨r₁, h₁, h⟩ := h
    obtain ⟨r₂, hs₂, r₃, h₃, h⟩ := spells_append.mp h
    obtain ⟨r₄, hb₄, h₄⟩ := spells_append.mp h
    obtain ⟨symbols', hs', hse⟩ := exists_isSymbols hs hs₂
    obtain ⟨body', hb', hbe⟩ := exists_isCore hb hb₄
    exact ⟨.loop symbols' body' span', .loop h₁ hs' h₃ hb' (spells_singleton.mp h₄) hcov, by
      rw [Case.erase, Case.erase, hse, hbe]⟩

end

theorem exists_isModule {m : Module} {ts rest : List Token} (hm : m.WellFormed)
    (h : Spells m.words ts rest) : ∃ m', IsModule .greedy ts m' rest ∧ m'.erase = m.erase := by
  obtain ⟨span, hcov⟩ := h.exists_covers (List.cons_ne_nil _ _)
  obtain ⟨r₁, h₁, r₂, h₂, r₃, h₃, h⟩ := h
  obtain ⟨r₄, hbs, h₄⟩ := spells_append.mp h
  have hclose := spells_singleton.mp h₄
  obtain ⟨name, hn⟩ := exists_isName hm.name h₂
  obtain ⟨bs, hbs', he⟩ := exists_isBlocks hm.blocks hm.apart hbs
    (hclose.starts (List.mem_singleton_self _))
  refine ⟨⟨⟨m.name.value, name⟩, bs, span⟩, .mk h₁ hn h₃ hbs' ?_ hclose hcov, ?_⟩
  · intro h
    subst h
    have hnil : m.blocks.map Block.erase = [] := by rw [← Block.eraseAll_eq_map, ← he]; rfl
    exact hm.ne_nil (List.map_eq_nil_iff.mp hnil)
  · rw [Module.erase, he]
    rfl

theorem exists_isModules {ms : List Module} {ts rest : List Token} (hne : ms ≠ [])
    (hms : ∀ m ∈ ms, m.WellFormed) (h : Spells (ms.flatMap Module.words) ts rest) :
    ∃ ms', IsModules .greedy ts ms' rest ∧ ms'.map Module.erase = ms.map Module.erase := by
  induction ms generalizing ts with
  | nil => exact absurd rfl hne
  | cons m ms ih =>
    rw [List.flatMap_cons, spells_append] at h
    obtain ⟨r, hm, hrest⟩ := h
    obtain ⟨m', hm', he⟩ := exists_isModule (hms m (List.mem_cons_self ..)) hm
    cases ms with
    | nil =>
      obtain rfl := hrest
      exact ⟨[m'], .one hm', by rw [List.map_singleton, he, List.map_singleton]⟩
    | cons n ms =>
      obtain ⟨ms', hms', hes⟩ := ih (List.cons_ne_nil n ms)
        (fun m hm => hms m (List.mem_cons_of_mem _ hm)) hrest
      exact ⟨m' :: ms', .more hm' hms', congrArg₂ List.cons he hes⟩

theorem exists_isProgram {p : Program} {ts : List Token} (hp : p.WellFormed)
    (h : ts.map (·.text) = p.words) : ∃ q, IsProgram .greedy ts q ∧ q.erase = p.erase := by
  have hs := spells_map_text ts
  rw [h] at hs
  obtain ⟨r, ha, hms⟩ := spells_append.mp hs
  obtain ⟨span, hcov⟩ := ha.exists_covers (List.cons_ne_nil _ _)
  obtain ⟨r₁, h₁, r₂, h₂, r₃, h₃, ha⟩ := ha
  obtain ⟨r₄, hl, h₄⟩ := spells_append.mp ha
  obtain ⟨letters, hl', hle⟩ :=
    exists_isList (P := (isLetter ·)) exists_isLetter hp.letters_ne_nil hp.letters hl
  obtain ⟨ms, hms', hme⟩ := exists_isModules hp.modules_ne_nil hp.modules hms
  refine ⟨⟨⟨letters, span⟩, ms⟩,
    ⟨r, .mk h₁ h₂ h₃ hl' (spells_singleton.mp h₄) hcov, hms'⟩, ?_⟩
  rw [Program.erase, Program.erase, Alphabet.erase, Alphabet.erase, hle, hme]

end Grammar

theorem Program.WellFormed.parse_unparse {p : Program} (hp : p.WellFormed) :
    ∃ q, Program.parse p.unparse = .ok q ∧ q.erase = p.erase := by
  obtain ⟨ts, hts, htexts⟩ := Token.scan_spaced hp.lexeme
  obtain ⟨q, hq, he⟩ := Grammar.exists_isProgram hp htexts
  exact ⟨q, (Program.parse_eq_ok hts).mpr hq, he⟩

/-- The parser returns exactly the well-formed trees, up to regions, and it reads a well-formed
tree from what `unparse` writes for it. -/
theorem Program.exists_parse_iff_wellFormed (p : Program) :
    ((∃ text q, Program.parse text = .ok q ∧ q.erase = p.erase) ↔ p.WellFormed) ∧
      (p.WellFormed → ∃ q, Program.parse p.unparse = .ok q ∧ q.erase = p.erase) := by
  refine ⟨⟨?_, fun hp => ⟨p.unparse, hp.parse_unparse⟩⟩, fun hp => hp.parse_unparse⟩
  intro h
  obtain ⟨text, q, hq, he⟩ := h
  rw [← Program.wellFormed_erase, ← he, Program.wellFormed_erase]
  exact Program.wellFormed_of_parse hq

theorem Program.unparse_sampleText :
    ∃ p q, Program.parse sampleText = .ok p ∧ p.WellFormed ∧
      Program.parse p.unparse = .ok q ∧ q.erase = p.erase := by
  obtain ⟨p, hp⟩ := Program.exists_parse_sampleText
  have hwf := (Program.exists_parse_iff_wellFormed p).1.mp ⟨sampleText, p, hp, rfl⟩
  obtain ⟨q, hq, he⟩ := (Program.exists_parse_iff_wellFormed p).2 hwf
  exact ⟨p, q, hp, hwf, hq, he⟩

end TapeLang
