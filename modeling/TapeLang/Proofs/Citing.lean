import TapeLang.Proofs.Blaming
import TapeLang.Proofs.Consistency
import TapeLang.Proofs.Labelling
import TapeLang.Proofs.Longest
import TapeLang.Proofs.Places

/-!
Every report points at the text.

A fault of a program that was read from tokens is at one of them, and its message quotes that
token (`Cited`).  The one exception is a label that two modules have in common: no token spells
it, and the report is at the name of a module, which the label starts with.  Together with the
refusals of the scanner and of the readers these are all reports there are.
-/

namespace TapeLang

/-- The value stands in the message between the first quotation mark and the last one. -/
def Quotes (message value : String) : Prop :=
  ∃ before after : String, message = before ++ Problem.quoted value ++ after ∧
    '"' ∉ before.toList ∧ '"' ∉ after.toList

def Problem.subject : Problem → Option String
  | .repeatedLetter c | .outsideAlphabet c => some (String.singleton c)
  | .repeatedModule name | .undefinedModule name => some name
  | .handledTwice s => some s.text
  | _ => none

theorem Problem.quotes_subject {problem : Problem} {value : String}
    (h : problem.subject = some value) : Quotes problem.message value := by
  cases problem <;> cases h
  case repeatedLetter c =>
    exact ⟨"Duplicate letter ", " in the alphabet", rfl, by decide, by decide⟩
  case repeatedModule =>
    exact ⟨"Duplicate module ", "", String.append_empty.symm, by decide, by decide⟩
  case undefinedModule => exact ⟨"Module ", " is not defined", rfl, by decide, by decide⟩
  case outsideAlphabet =>
    exact ⟨"The value ", " is not part of the alphabet", rfl, by decide, by decide⟩
  case handledTwice =>
    exact ⟨"The value ", " is already handled by another case", rfl, by decide, by decide⟩

theorem Problem.quotes_label (label : String) : Quotes (repeatedLabel label).message label :=
  ⟨"The label ", " is defined more than once", rfl, by decide, by decide⟩

def Cited (ts : List Token) (r : Report) : Prop :=
  ∃ text, ⟨text, r.span⟩ ∈ ts ∧ r.problem.subject = some text

theorem Cited.mono {ts ts' : List Token} {r : Report} (h : Cited ts' r) (hs : ts' <:+ ts) :
    Cited ts r := by
  obtain ⟨text, hmem, hsubject⟩ := h
  exact ⟨text, hs.subset hmem, hsubject⟩

/-! ## Tokens of a derivation -/

namespace Grammar

variable {ts rest : List Token}

theorem Terminal.mem {text : String} {span : Span} (h : Terminal text ts rest)
    (hc : Covers ts span rest) : ⟨text, span⟩ ∈ ts := by
  obtain ⟨t, rfl, rfl⟩ := h
  rw [hc.eq List.suffix_rfl]
  exact List.mem_cons_self

theorem IsLetter.mem {c : Located Char} (h : IsLetter ts c rest) :
    ⟨String.singleton c.value, c.span⟩ ∈ ts :=
  h.1.mem h.covers

theorem IsName.mem {name : Located String} (h : IsName ts name rest) :
    ⟨name.value, name.span⟩ ∈ ts :=
  h.1.mem h.covers

theorem IsSymbol.mem {s : Located Symbol} (h : IsSymbol ts s rest) :
    ⟨s.value.text, s.span⟩ ∈ ts := by
  cases h with
  | letter h => exact h.mem
  | blank h hc => exact h.mem hc

theorem IsList.exists_of_mem {α : Type} {item : List Token → α → List Token → Prop}
    (hitem : ∀ {ts a rest}, item ts a rest → rest <:+ ts) {as : List α} {a : α}
    (h : IsList item ts as rest) (ha : a ∈ as) : ∃ r r', item r a r' ∧ r <:+ ts := by
  induction h with
  | one h =>
    obtain rfl := List.mem_singleton.mp ha
    exact ⟨_, _, h, List.suffix_rfl⟩
  | more h hc _ ih =>
    rcases List.mem_cons.mp ha with rfl | ha
    · exact ⟨_, _, h, List.suffix_rfl⟩
    · obtain ⟨r, r', h', hs⟩ := ih ha
      exact ⟨r, r', h', hs.trans (hc.suffix.trans (hitem h))⟩

theorem IsBlocks.exists_of_mem {e : Ending} {b : Block} :
    ∀ {ts : List Token} {bs : List Block} {rest : List Token}, IsBlocks e ts bs rest → b ∈ bs →
      ∃ r r', IsBlock e r b r' ∧ r <:+ ts
  | _, _, _, .nil, hb => absurd hb List.not_mem_nil
  | _, _, _, .cons h hbs, hb => by
    rcases List.mem_cons.mp hb with rfl | hb
    · exact ⟨_, _, h, List.suffix_rfl⟩
    · obtain ⟨r, r', h', hs⟩ := hbs.exists_of_mem hb
      obtain ⟨_, hc⟩ := h.exists_covers
      exact ⟨r, r', h', hs.trans hc.suffix⟩

theorem IsCases.exists_of_mem {e : Ending} {c : Case} :
    ∀ {ts : List Token} {cs : List Case} {rest : List Token}, IsCases e ts cs rest → c ∈ cs →
      ∃ r r', IsCase e r c r' ∧ r <:+ ts
  | _, _, _, .one h, hc => by
    obtain rfl := List.mem_singleton.mp hc
    exact ⟨_, _, h, List.suffix_rfl⟩
  | _, _, _, .more h hcs, hc => by
    rcases List.mem_cons.mp hc with rfl | hc
    · exact ⟨_, _, h, List.suffix_rfl⟩
    · obtain ⟨r, r', h', hs⟩ := hcs.exists_of_mem hc
      exact ⟨r, r', h', hs.trans h.covers.suffix⟩

theorem IsModules.exists_of_mem {e : Ending} {ms : List Module} {m : Module}
    (h : IsModules e ts ms rest) (hm : m ∈ ms) : ∃ r r', IsModule e r m r' ∧ r <:+ ts := by
  induction h with
  | one h =>
    obtain rfl := List.mem_singleton.mp hm
    exact ⟨_, _, h, List.suffix_rfl⟩
  | more h _ ih =>
    rcases List.mem_cons.mp hm with rfl | hm
    · exact ⟨_, _, h, List.suffix_rfl⟩
    · obtain ⟨r, r', h', hs⟩ := ih hm
      exact ⟨r, r', h', hs.trans h.covers.suffix⟩

/-- A switch in either of its forms has its cases among its tokens. -/
theorem IsBlock.exists_isCases {e : Ending} {cs : List Case} {span : Span}
    (h : IsBlock e ts (.switch cs span) rest) : ∃ r r', IsCases e r cs r' ∧ r <:+ ts := by
  cases h with
  | switch h₁ h₂ h₃ hcs => exact ⟨_, _, hcs, h₃.suffix.trans (h₂.suffix.trans h₁.suffix)⟩
  | run hcs => exact ⟨_, _, hcs, List.suffix_rfl⟩

/-- What a case does stands after its word, its symbols and a brace. -/
theorem suffix_of_symbols {word brace : String} {ss : List (Located Symbol)} {r r' : List Token}
    (hw : Terminal word ts r) (hs : IsList IsSymbol r ss r') (hb : Terminal brace r' rest) :
    rest <:+ ts :=
  hb.suffix.trans ((hs.suffix fun h => h.covers.suffix).trans hw.suffix)

theorem IsOption.mem_of_write {write : Option (Located Symbol)} {s : Located Symbol}
    (h : IsOption IsWrite ts write rest) (hs : s ∈ write) : ⟨s.value.text, s.span⟩ ∈ ts := by
  obtain rfl := Option.mem_def.mp hs
  cases h with
  | given h =>
    obtain ⟨r, hword, hsymbol⟩ := h
    exact hword.suffix.subset hsymbol.mem

theorem IsBasic.mem_of_write {b : BasicBlock} {s : Located Symbol} (h : IsBasic ts b rest)
    (hs : s ∈ b.write) : ⟨s.value.text, s.span⟩ ∈ ts := by
  obtain ⟨r, r', hwrite, -, -⟩ := h.commands
  exact hwrite.mem_of_write hs

theorem IsBasic.mem_of_goto {b : BasicBlock} {target : Located String} (h : IsBasic ts b rest)
    (ht : .goto target ∈ b.flow) : ⟨target.value, target.span⟩ ∈ ts := by
  obtain ⟨r, r', hwrite, hmove, hflow⟩ := h.commands
  have hr : r <:+ ts := (hwrite.run Command.write (Nat.le_refl 0)).suffix
  have hr' : r' <:+ r := (hmove.run Command.move (Nat.le_refl 1)).suffix
  rw [Option.mem_def.mp ht] at hflow
  cases hflow with
  | given hf =>
    cases hf with
    | goto hword hname => exact (hword.suffix.trans (hr'.trans hr)).subset hname.mem

/-- The symbols of a case stand among its tokens. -/
theorem IsCase.mem_of_symbol {e : Ending} {c : Case} {s : Located Symbol}
    (h : IsCase e ts c rest) (hs : s ∈ c.symbols) : ⟨s.value.text, s.span⟩ ∈ ts := by
  have hlist : ∃ r r', IsList IsSymbol r c.symbols r' ∧ r <:+ ts := by
    cases h with
    | branch h₁ hss => exact ⟨_, _, hss, h₁.suffix⟩
    | loop h₁ hss => exact ⟨_, _, hss, h₁.suffix⟩
  obtain ⟨r, r', hlist, hr⟩ := hlist
  obtain ⟨q, q', hsymbol, hq⟩ := hlist.exists_of_mem (fun h => h.covers.suffix) hs
  exact (hq.trans hr).subset hsymbol.mem

theorem IsAlphabet.mem_of_letter {a : Alphabet} {l : Located Char} (h : IsAlphabet ts a rest)
    (hl : l ∈ a.letters) : ⟨String.singleton l.value, l.span⟩ ∈ ts := by
  cases h with
  | mk h₁ h₂ h₃ hletters =>
    obtain ⟨q, q', hletter, hq⟩ := hletters.exists_of_mem (fun h => h.covers.suffix) hl
    exact (hq.trans (h₃.suffix.trans (h₂.suffix.trans h₁.suffix))).subset hletter.mem

theorem IsAlphabet.suffix {a : Alphabet} (h : IsAlphabet ts a rest) : rest <:+ ts := by
  cases h with
  | mk _ _ _ _ _ hc => exact hc.suffix

end Grammar

/-! ## Faults are cited -/

namespace Scope

open Grammar

variable {scope : Scope} {e : Ending}

theorem Foreign.cited {ts : List Token} {s : Located Symbol} {r : Report} (h : scope.Foreign s r)
    (hs : ⟨s.value.text, s.span⟩ ∈ ts) : Cited ts r := by
  obtain ⟨c, hc, -, rfl⟩ := h
  rw [hc] at hs
  exact ⟨String.singleton c, hs, rfl⟩

theorem BasicFault.cited {ts rest : List Token} {b : BasicBlock} {a : Address} {r : Report}
    (h : scope.BasicFault b a r) (hb : IsBasic ts b rest) : Cited ts r := by
  cases h with
  | write hw h => exact h.cited (hb.mem_of_write hw)
  | jump hf _ => exact ⟨_, hb.mem_of_goto hf, rfl⟩

theorem MatchFault.cited {ts : List Token} {earlier : List Symbol} {ss : List (Located Symbol)}
    {a : Address} {r : Report} (h : scope.MatchFault earlier ss a r)
    (hss : ∀ s ∈ ss, ⟨s.value.text, s.span⟩ ∈ ts) : Cited ts r := by
  cases h with
  | foreign hs h => exact h.cited (hss _ (List.mem_of_getElem? hs))
  | twice hs _ => exact ⟨_, hss _ (List.mem_of_getElem? hs), rfl⟩

mutual

theorem BlocksFault.cited {r : Report} :
    ∀ {bs : List Block} {a : Address} {ts rest : List Token}, scope.BlocksFault bs a r →
      IsBlocks e ts bs rest → Cited ts r
  | _, _, _, _, .mk hb h, hbs => by
    obtain ⟨q, q', hblock, hq⟩ := hbs.exists_of_mem (List.mem_of_getElem? hb)
    exact (BlockFault.cited h hblock).mono hq

theorem BlockFault.cited {r : Report} :
    ∀ {b : Block} {a : Address} {ts rest : List Token}, scope.BlockFault b a r →
      IsBlock e ts b rest → Cited ts r
  | _, _, _, _, .basic h, .basic hb _ => h.cited hb
  | _, _, _, _, .switch hc h, hb => by
    obtain ⟨_, _, hcs, hr⟩ := hb.exists_isCases
    obtain ⟨q, q', hcase, hq⟩ := hcs.exists_of_mem (List.mem_of_getElem? hc)
    exact (CaseFault.cited h hcase).mono (hq.trans hr)

theorem CaseFault.cited {r : Report} :
    ∀ {earlier : List Symbol} {c : Case} {a : Address} {ts rest : List Token},
      scope.CaseFault earlier c a r → IsCase e ts c rest → Cited ts r
  | _, _, _, _, _, .symbols h, hc => h.cited fun _ hs => hc.mem_of_symbol hs
  | _, _, _, _, _, .body h, hc => BodyFault.cited h hc

theorem BodyFault.cited {r : Report} :
    ∀ {c : Case} {a : Address} {ts rest : List Token}, scope.BodyFault c a r →
      IsCase e ts c rest → Cited ts r
  | _, _, _, _, .loop hw h, .loop h₁ hs h₂ hb _ _ => by
    obtain ⟨q, hwrite, -⟩ := hb.commands
    exact (h.cited (hwrite.mem_of_write hw)).mono (suffix_of_symbols h₁ hs h₂)
  | _, _, _, _, .first h, .branch h₁ hs h₂ hf _ _ _ _ =>
    (h.cited hf).mono (suffix_of_symbols h₁ hs h₂)
  | _, _, _, _, .rest h, .branch h₁ hs h₂ hf _ hbs _ _ =>
    (BlocksFault.cited h hbs).mono (hf.covers.suffix.trans (suffix_of_symbols h₁ hs h₂))

end

end Scope

namespace Program

open Grammar

variable {e : Ending} {ts : List Token} {p : Program}

theorem exists_isModule (h : IsProgram e ts p) {m : Module} (hm : m ∈ p.modules) :
    ∃ r r', IsModule e r m r' ∧ r <:+ ts := by
  obtain ⟨r, ha, hms⟩ := h
  obtain ⟨q, q', hmodule, hq⟩ := hms.exists_of_mem hm
  exact ⟨q, q', hmodule, hq.trans ha.suffix⟩

theorem mem_of_module (h : IsProgram e ts p) {m : Module} (hm : m ∈ p.modules) :
    ⟨m.name.value, m.name.span⟩ ∈ ts := by
  obtain ⟨r, r', ⟨h₁, hname⟩, hr⟩ := exists_isModule h hm
  exact (h₁.suffix.trans hr).subset hname.mem

/-- A fault of a program is at a token that the program was read from. -/
theorem Fault.cited (hp : IsProgram e ts p) {a : Address} {r : Report} (h : p.Fault a r) :
    Cited ts r := by
  cases h with
  | letter hl _ =>
    obtain ⟨_, ha, -⟩ := hp
    exact ⟨_, ha.mem_of_letter (List.mem_of_getElem? hl), rfl⟩
  | name hm _ => exact ⟨_, mem_of_module hp (List.mem_of_getElem? hm), rfl⟩
  | block hm h =>
    obtain ⟨q, q', ⟨h₁, hname, h₂, hbs⟩, hq⟩ := exists_isModule hp (List.mem_of_getElem? hm)
    have hbody := h₂.suffix.trans (hname.covers.suffix.trans h₁.suffix)
    exact (h.cited hbs).mono (hbody.trans hq)

/-- A program that was read but does not compile has a fault at a token, or a label of one of its
modules is repeated. -/
theorem cited_of_compile (hp : IsProgram e ts p) {r : Report} (h : p.compile = .error r) :
    Cited ts r ∨ ∃ m ∈ p.modules, ∃ i, r = ⟨.repeatedLabel (m.label i), m.name.span⟩ := by
  cases hc : p.check with
  | error r' =>
    rw [compile, hc] at h
    cases h
    obtain ⟨a, ha, -⟩ := p.lists_problems.head?_eq_some_iff.mp (check_eq_error_iff.mp hc)
    exact .inl (ha.cited hp)
  | ok u =>
    have hne : p.modules ≠ [] := by
      obtain ⟨_, -, hms⟩ := hp
      intro hnil
      rw [hnil] at hms
      cases hms
    have hcollides : p.Collides := by
      by_contra hcollides
      obtain ⟨a, ha⟩ := exists_compile_iff.mpr ⟨hc, hne, hcollides⟩
      rw [ha] at h
      cases h
    obtain ⟨k, i, hfirst⟩ := hcollides.exists_first
    obtain ⟨m, hm, herror⟩ := compile_of_firstRepeat hc hfirst
    rw [herror] at h
    cases h
    exact .inr ⟨m, List.mem_of_getElem? hm, i, rfl⟩

/-- A text is refused while it is scanned, read or compiled. -/
theorem compileText_eq_error {text : String} {r : Report} (h : compileText text = .error r) :
    Token.scan text = .error r ∨ ∃ ts, Token.scan text = .ok ts ∧
      (ofTokens ts = .error r ∨ ∃ p, parse text = .ok p ∧ IsProgram .greedy ts p ∧
        p.compile = .error r) := by
  rw [compileText] at h
  cases hscan : Token.scan text with
  | error r' =>
    rw [parse, hscan] at h
    cases h
    exact .inl rfl
  | ok ts =>
    have hparse : parse text = ofTokens ts := by
      rw [parse, hscan]
      rfl
    rw [hparse] at h ⊢
    refine .inr ⟨ts, rfl, ?_⟩
    cases hp : ofTokens ts with
    | error r' =>
      rw [hp] at h
      cases h
      exact .inl rfl
    | ok p =>
      rw [hp] at h
      exact .inr ⟨p, rfl, ofTokens_eq_ok.mp hp, h⟩

/-- The report is about one token: its message quotes what the token says, or a label that is the
name of a module, which the token says, and a number. -/
inductive QuotesToken (text : String) (t : Token) (r : Report) : Prop
  | word (hr : ∀ label, r.problem ≠ .repeatedLabel label)
    (hq : Quotes r.diagnostic.message t.text) : QuotesToken text t r
  | label {p m n} (hp : parse text = .ok p) (hm : m ∈ p.modules) (ht : m.name = ⟨t.text, t.span⟩)
    (hr : r.problem = .repeatedLabel (t.text ++ Nat.repr n))
    (hq : Quotes r.diagnostic.message (t.text ++ Nat.repr n)) : QuotesToken text t r

/-- Where a report points: nowhere in a text without tokens, at a comment without an end, or at
the region from one token to the same or a later one. -/
inductive Points (text : String) (r : Report) : Prop
  | nowhere (hts : Token.scan text = .ok [])
    (hr : r.diagnostic = ⟨.syntactic, "Empty file", ⟨1, 2, 1, 1⟩⟩) : Points text r
  | comment (hts : Token.scan text = .error r)
    (hr : r.diagnostic = ⟨.lexical, "Unterminated comment", r.span⟩) : Points text r
  | tokens {ts : List Token} {i j : Nat} {first last : Token} (hts : Token.scan text = .ok ts)
    (hij : i ≤ j) (hi : ts[i]? = some first) (hj : ts[j]? = some last)
    (hspan : r.diagnostic.span = first.span.upTo last.span)
    (hlt : r.diagnostic.span.start < r.diagnostic.span.finish)
    (hq : r.diagnostic.kind = .semantic → i = j ∧ QuotesToken text first r) : Points text r

theorem points_of_blames {text : String} {ts : List Token} {r : Report}
    (hts : Token.scan text = .ok ts) (h : Parser.Blames ts r) : Points text r := by
  obtain ⟨hkind, i, j, first, last, hij, hi, hj, hspan⟩ := h
  refine .tokens hts hij hi hj hspan ?_ fun hsemantic => ?_
  · show r.span.start < r.span.finish
    rw [hspan]
    exact (Token.inOrder_scan hts).start_lt_finish hij hi hj
  · rw [show r.diagnostic.kind = .syntactic from hkind] at hsemantic
    cases hsemantic

theorem points_of_mem {text : String} {ts : List Token} {r : Report} {t : Token}
    (hts : Token.scan text = .ok ts) (ht : t ∈ ts) (hspan : r.span = t.span)
    (hq : QuotesToken text t r) : Points text r := by
  obtain ⟨i, hi⟩ := List.mem_iff_getElem?.mp ht
  refine .tokens hts (Nat.le_refl i) hi hi hspan ?_ fun _ => ⟨rfl, hq⟩
  show r.span.start < r.span.finish
  rw [hspan]
  exact (Token.inOrder_scan hts).start_lt_finish (Nat.le_refl i) hi hi

theorem points_of_cited {text : String} {ts : List Token} {r : Report}
    (hts : Token.scan text = .ok ts) (h : Cited ts r) : Points text r := by
  obtain ⟨word, hmem, hsubject⟩ := h
  refine points_of_mem hts hmem rfl (.word (fun label hr => ?_) (Problem.quotes_subject hsubject))
  rw [hr] at hsubject
  cases hsubject

/-- Whatever a text is refused for is reported at tokens of it, or it has none, or a comment of it
never ends. -/
theorem points_of_compileText {text : String} {r : Report} (h : compileText text = .error r) :
    Points text r := by
  rcases compileText_eq_error h with hscan | ⟨ts, hts, hrefused | ⟨p, hp, hprogram, hcompile⟩⟩
  · refine .comment hscan ?_
    rcases Token.scan_cases text with ⟨l, -, hl⟩ | ⟨l, comment, -, -, hl⟩
    · rw [hl] at hscan
      cases hscan
    · rw [hl] at hscan
      cases hscan
      rfl
  · rcases blames_of_ofTokens hrefused with ⟨rfl, rfl⟩ | hblames
    · exact .nowhere hts rfl
    · exact points_of_blames hts hblames
  · rcases cited_of_compile hprogram hcompile with hcited | ⟨m, hm, i, rfl⟩
    · exact points_of_cited hts hcited
    · exact points_of_mem hts (mem_of_module hprogram hm) rfl
        (.label hp hm rfl rfl (Problem.quotes_label _))

/-- A module `m` of eleven blocks and a module `m1`, whose first label is the last one of `m`. -/
def crowdedText : String :=
  "alphabet = \x7b a \x7d module m \x7b\n" ++ String.join (List.replicate 11 "accept\n") ++
    "\x7d\nmodule m1 \x7b accept \x7d"

theorem points_crowdedText : ∃ r, compileText crowdedText = .error r ∧
    r.diagnostic.span = ⟨14, 15, 8, 10⟩ ∧ Points crowdedText r := by
  have h : compileText crowdedText = .error ⟨.repeatedLabel "m10", ⟨14, 15, 8, 10⟩⟩ := by
    decide +kernel
  exact ⟨_, h, rfl, points_of_compileText h⟩

end Program
end TapeLang
