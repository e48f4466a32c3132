import TapeLang.Program.Compile
import TapeLang.Proofs.Parallel

/-!
Regions are recorded and reported, and nothing depends on them.

The parser does the same on lists of tokens with the same texts (`Program.ofTokens_agree`), the
checks find the same problems in trees that differ in regions only (`Program.problems_erase`), and
such trees become the same states (`Module.states_erase`).  So the white space, the line breaks
and the comments of a text decide nothing but the region of a report.
-/

namespace TapeLang

@[simp] theorem Located.value_erase {α : Type} (a : Located α) : a.erase.value = a.value := rfl

@[simp] theorem Case.symbols_erase (c : Case) : c.erase.symbols = c.symbols.map Located.erase := by
  cases c <;> simp only [Case.erase, Case.symbols]

theorem repeated_map {α β : Type} [DecidableEq β] (key : α → β) {f : α → α}
    (hf : ∀ a, key (f a) = key a) (seen : List β) (l : List α) :
    repeated key seen (l.map f) = (repeated key seen l).map f := by
  induction l generalizing seen with
  | nil => rfl
  | cons a l ih =>
    simp only [List.map_cons, repeated, hf, ih]
    split <;> simp

namespace Scope

variable (scope : Scope)

theorem symbolProblems_erase (s : Located Symbol) :
    (scope.symbolProblems s.erase).map Report.problem =
      (scope.symbolProblems s).map Report.problem := by
  obtain ⟨value, span⟩ := s
  cases value with
  | letter c => simp only [symbolProblems, Located.erase]; split <;> rfl
  | blank => rfl

theorem writeProblems_erase (write : Option (Located Symbol)) :
    (scope.writeProblems (write.map Located.erase)).map Report.problem =
      (scope.writeProblems write).map Report.problem := by
  cases write with
  | none => rfl
  | some s => simp [writeProblems, symbolProblems_erase]

theorem flowProblems_erase (flow : Option Flow) :
    (scope.flowProblems (flow.map Flow.erase)).map Report.problem =
      (scope.flowProblems flow).map Report.problem := by
  match flow with
  | none => rfl
  | some .accept => rfl
  | some .reject => rfl
  | some (.goto target) =>
    simp only [Option.map_some, Flow.erase, flowProblems, Located.value_erase]
    by_cases h : target.value ∈ scope.modules <;> simp [h]

theorem basicProblems_erase (b : BasicBlock) :
    (scope.basicProblems b.erase).map Report.problem =
      (scope.basicProblems b).map Report.problem := by
  simp only [basicProblems, BasicBlock.erase, List.map_append, writeProblems_erase,
    flowProblems_erase]

theorem matchProblems_erase (seen : List Symbol) (ss : List (Located Symbol)) :
    (scope.matchProblems seen (ss.map Located.erase)).map Report.problem =
      (scope.matchProblems seen ss).map Report.problem := by
  induction ss generalizing seen with
  | nil => rfl
  | cons s ss ih =>
    simp only [List.map_cons, matchProblems, List.map_append, symbolProblems_erase, ih,
      Located.value_erase]
    by_cases h : s.value ∈ seen <;> simp [h]

mutual

theorem blockProblems_erase :
    ∀ b : Block, (scope.blockProblems b.erase).map Report.problem =
      (scope.blockProblems b).map Report.problem
  | .basic b => by
    rw [Block.erase, blockProblems, blockProblems, basicProblems_erase]
  | .switch cases _ => by
    rw [Block.erase, blockProblems, blockProblems, casesProblems_erase]

theorem blocksProblems_erase :
    ∀ bs : List Block, (scope.blocksProblems (Block.eraseAll bs)).map Report.problem =
      (scope.blocksProblems bs).map Report.problem
  | [] => rfl
  | b :: bs => by
    rw [Block.eraseAll, blocksProblems, blocksProblems, List.map_append, List.map_append,
      blockProblems_erase, blocksProblems_erase]

theorem bodyProblems_erase :
    ∀ c : Case, (scope.bodyProblems c.erase).map Report.problem =
      (scope.bodyProblems c).map Report.problem
  | .branch _ first rest _ => by
    rw [Case.erase, bodyProblems, bodyProblems, List.map_append, List.map_append,
      basicProblems_erase, blocksProblems_erase]
  | .loop _ body _ => by
    rw [Case.erase, bodyProblems, bodyProblems, CoreBlock.erase, writeProblems_erase]

theorem casesProblems_erase :
    ∀ (seen : List Symbol) (cs : List Case),
      (scope.casesProblems seen (Case.eraseAll cs)).map Report.problem =
        (scope.casesProblems seen cs).map Report.problem
  | _, [] => rfl
  | seen, c :: cs => by
    have hsymbols : (c.symbols.map Located.erase).map Located.value =
        c.symbols.map Located.value := by
      rw [List.map_map]
      rfl
    rw [Case.eraseAll, casesProblems, casesProblems]
    simp only [List.map_append, Case.symbols_erase, matchProblems_erase, bodyProblems_erase,
      casesProblems_erase, hsymbols]

end

end Scope

namespace Program

theorem scope_erase (p : Program) : p.erase.scope = p.scope := by
  simp [Program.scope, Program.erase, Alphabet.erase, Alphabet.values, Module.erase,
    Function.comp_def]

/-- Trees that differ in regions only have the same problems. -/
theorem problems_erase (p : Program) :
    p.erase.problems.map Report.problem = p.problems.map Report.problem := by
  have hletters := repeated_map Located.value Located.value_erase [] p.alphabet.letters
  have hmodules := repeated_map (f := Module.erase) (·.name.value) (fun _ => rfl) [] p.modules
  have hblocks (m : Module) : (p.scope.blocksProblems m.erase.blocks).map Report.problem =
      (p.scope.blocksProblems m.blocks).map Report.problem := p.scope.blocksProblems_erase m.blocks
  simp only [problems, scope_erase]
  simp only [Program.erase, Alphabet.erase, hletters, hmodules, List.map_append, List.map_map,
    List.map_flatMap, List.flatMap_map, hblocks]
  rfl

theorem check_agree {p q : Program} (h : p.erase = q.erase) :
    Agree (EqUpTo Report.problem) Eq p.check q.check := by
  have hproblems : p.problems.map Report.problem = q.problems.map Report.problem := by
    rw [← problems_erase p, h, problems_erase q]
  unfold check
  generalize p.problems = l, q.problems = l' at hproblems ⊢
  match l, l' with
  | [], [] => exact .ok rfl
  | r :: l, r' :: l' => exact .error (List.cons.inj hproblems).1

end Program

/-! ## Compiling -/

mutual

theorem Block.size_erase : ∀ b : Block, b.erase.size = b.size
  | .basic _ => rfl
  | .switch cases _ => by rw [Block.erase, Block.size, Block.size, Case.totalSize_eraseAll]

theorem Block.totalSize_eraseAll :
    ∀ bs : List Block, Block.totalSize (Block.eraseAll bs) = Block.totalSize bs
  | [] => rfl
  | b :: bs => by
    rw [Block.eraseAll, Block.totalSize, Block.totalSize, Block.size_erase,
      Block.totalSize_eraseAll]

theorem Case.totalSize_eraseAll :
    ∀ cs : List Case, Case.totalSize (Case.eraseAll cs) = Case.totalSize cs
  | [] => rfl
  | .branch _ _ rest _ :: cs => by
    rw [Case.eraseAll, Case.erase, Case.totalSize, Case.totalSize, Block.totalSize_eraseAll,
      Case.totalSize_eraseAll]
  | .loop _ _ _ :: cs => by
    rw [Case.eraseAll, Case.erase, Case.totalSize, Case.totalSize, Case.totalSize_eraseAll]

end

theorem Flow.target_erase (f : Flow) : f.erase.target = f.target := by
  cases f <;> rfl

theorem BasicBlock.transition_erase (b : BasicBlock) (next : Label) :
    b.erase.transition next = b.transition next := by
  simp [BasicBlock.transition, BasicBlock.erase, Function.comp_def, Flow.target_erase]

theorem CoreBlock.transition_erase (b : CoreBlock) (own : Label) :
    b.erase.transition own = b.transition own := by
  simp [CoreBlock.transition, CoreBlock.erase, Function.comp_def]

theorem Block.entry_eraseAll (module : String) (index : Nat) (bs : List Block) :
    Block.entry module index (Block.eraseAll bs) = Block.entry module index bs := by
  cases bs <;> rfl

theorem Case.entries_eraseAll (module : String) (own : Label) (index : Nat) (cs : List Case) :
    Case.entries module own index (Case.eraseAll cs) = Case.entries module own index cs := by
  induction cs generalizing index with
  | nil => rfl
  | cons c cs ih =>
    cases c with
    | loop ss body span =>
      simp [Case.eraseAll, Case.erase, Case.entries, CoreBlock.transition_erase, ih]
    | branch ss first rest span =>
      simp [Case.eraseAll, Case.erase, Case.entries, BasicBlock.transition_erase,
        Block.entry_eraseAll, Block.totalSize_eraseAll, ih]

mutual

theorem Block.lowerAll_eraseAll (module : String) :
    ∀ (index : Nat) (bs : List Block),
      Block.lowerAll module index (Block.eraseAll bs) = Block.lowerAll module index bs
  | _, [] => rfl
  | index, b :: bs => by
    rw [Block.eraseAll, Block.lowerAll, Block.lowerAll, Block.size_erase, Block.entry_eraseAll,
      Block.lower_erase, Block.lowerAll_eraseAll]

theorem Block.lower_erase (module : String) :
    ∀ (index : Nat) (next : Label) (b : Block),
      b.erase.lower module index next = b.lower module index next
  | _, _, .basic b => by rw [Block.erase, Block.lower, Block.lower, BasicBlock.transition_erase]
  | _, _, .switch cases _ => by
    rw [Block.erase, Block.lower, Block.lower, Case.entries_eraseAll, Case.lowerAll_eraseAll]

theorem Case.lowerAll_eraseAll (module : String) :
    ∀ (index : Nat) (cs : List Case),
      Case.lowerAll module index (Case.eraseAll cs) = Case.lowerAll module index cs
  | _, [] => rfl
  | _, .loop _ _ _ :: cs => by
    rw [Case.eraseAll, Case.erase, Case.lowerAll, Case.lowerAll, Case.lowerAll_eraseAll]
  | _, .branch _ _ rest _ :: cs => by
    rw [Case.eraseAll, Case.erase, Case.lowerAll, Case.lowerAll, Block.lowerAll_eraseAll,
      Block.totalSize_eraseAll, Case.lowerAll_eraseAll]

end

/-- Regions leave no trace in the states of a module. -/
theorem Module.states_erase (m : Module) : m.erase.states = m.states := by
  rw [Module.states, Module.states, Module.erase, Block.lowerAll_eraseAll, Located.value_erase]

namespace Program

theorem define_agree {m n : Module} (t : Table Label State) (l : List (Label × State)) :
    Agree (EqUpTo Report.problem) Eq (define m t l) (define n t l) := by
  induction l generalizing t with
  | nil => exact .ok rfl
  | cons entry l ih =>
    rw [define, define]
    split
    · exact .error rfl
    · exact ih _

theorem defineAll_agree {ms ns : List Module} (h : ms.map Module.erase = ns.map Module.erase)
    (t : Table Label State) :
    Agree (EqUpTo Report.problem) Eq (ms.foldlM (fun t m => define m t m.states) t)
      (ns.foldlM (fun t m => define m t m.states) t) := by
  induction ms generalizing ns t with
  | nil =>
    cases ns with
    | nil => exact .ok rfl
    | cons n ns => cases h
  | cons m ms ih =>
    cases ns with
    | nil => cases h
    | cons n ns =>
      obtain ⟨hm, hms⟩ := List.cons.inj h
      have hstates : m.states = n.states := by
        rw [← Module.states_erase m, hm, Module.states_erase n]
      rw [List.foldlM_cons, List.foldlM_cons, hstates]
      refine (define_agree t n.states).bind ?_
      rintro u _ rfl
      exact ih hms u

theorem compile_agree {p q : Program} (h : p.erase = q.erase) :
    Agree (EqUpTo Report.problem) Eq p.compile q.compile := by
  have hscope : p.scope = q.scope := by rw [← scope_erase p, h, scope_erase q]
  have hmodules : p.modules.map Module.erase = q.modules.map Module.erase :=
    congrArg Program.modules h
  unfold compile
  refine (check_agree h).bind fun _ _ _ => ?_
  generalize p.modules = ms, q.modules = ns at hmodules ⊢
  match ms, ns with
  | [], [] => exact .error rfl
  | m :: ms, n :: ns =>
    have hname : m.name.value = n.name.value :=
      congrArg (fun m => m.name.value) (List.cons.inj hmodules).1
    refine (defineAll_agree hmodules .empty).bind ?_
    rintro t _ rfl
    rw [hname, show p.alphabet.values = q.alphabet.values from congrArg Scope.letters hscope]
    exact .ok rfl

end Program

/-! ## Reading -/

namespace Parser

def Likeness.anyRegion : Likeness := ⟨fun _ _ => True, fun _ _ => trivial, False⟩

theorem Likeness.anyRegion_allLike {ts ts' : List Token}
    (h : ts.map (·.text) = ts'.map (·.text)) : anyRegion.AllLike ts ts' := by
  induction ts generalizing ts' with
  | nil =>
    cases ts' with
    | nil => exact .nil
    | cons t' ts' => cases h
  | cons t ts ih =>
    cases ts' with
    | nil => cases h
    | cons t' ts' =>
      obtain ⟨text, span⟩ := t
      obtain ⟨text', span'⟩ := t'
      obtain ⟨rfl, hts⟩ := List.cons.inj h
      exact .cons ⟨text, trivial⟩ (ih hts)

def Stop.problem : Stop → Problem
  | .atEnd => .unexpectedEnd
  | .wrong report => report.problem

theorem Likeness.Same.agree {α β : Type} {R : α → β → Prop} {E : α → Prop} {x : Except Stop α}
    {y : Except Stop β} (h : Likeness.anyRegion.Same R E x y) :
    Agree (EqUpTo Stop.problem) R x y := by
  cases h with
  | ok h => exact .ok h
  | atEnd => exact .error rfl
  | wrong h => exact .error h.problem
  | ended hm => exact hm.elim

theorem program_agree {ts ts' : List Token} (h : ts.map (·.text) = ts'.map (·.text)) :
    Agree (EqUpTo Stop.problem) (EqUpTo Program.erase) (program ts) (program ts') := by
  refine (Likeness.same_alphabet (Likeness.anyRegion_allLike h)).agree.bind fun a a' haa => ?_
  obtain ⟨a, r, _⟩ := a
  obtain ⟨a', r', _⟩ := a'
  obtain ⟨ha, hr⟩ := haa
  dsimp only at ha hr ⊢
  have hmodules := (Likeness.same_modules hr).agree
  cases hr with
  | nil => exact .error rfl
  | ended hm => exact hm.elim
  | cons _ _ =>
    exact hmodules.bind fun ms ms' hms => .ok (congrArg₂ Program.mk ha hms)

end Parser

namespace Program

/-- The parser does not look at regions. -/
theorem ofTokens_agree {ts ts' : List Token} (h : ts.map (·.text) = ts'.map (·.text)) :
    Agree (EqUpTo Report.problem) (EqUpTo Program.erase) (ofTokens ts) (ofTokens ts') := by
  have hprogram := Parser.program_agree h
  match ts, ts' with
  | [], [] => exact .error rfl
  | t :: ts, t' :: ts' =>
    unfold ofTokens
    rw [List.getLast?_cons, List.getLast?_cons]
    generalize Parser.program (t :: ts) = x, Parser.program (t' :: ts') = y at hprogram ⊢
    cases hprogram with
    | ok hp => exact .ok hp
    | @error e e' he => cases e <;> cases e' <;> exact .error he

end Program

/-- What a report says, without where it says it. -/
def Report.heading (r : Report) : Diagnostic.Kind × String :=
  (r.diagnostic.kind, r.diagnostic.message)

namespace Program

theorem heading_of_problem {r r' : Report} (h : EqUpTo Report.problem r r') :
    EqUpTo Report.heading r r' :=
  congrArg (fun p : Problem => (p.kind, p.message)) h

/-- Texts with the same words are read as the same tree up to regions and become the same
automaton, or are refused with the same message. -/
theorem agree_of_texts_eq {text text' : String} {ts ts' : List Token}
    (h : Token.scan text = .ok ts) (h' : Token.scan text' = .ok ts')
    (hts : ts.map (·.text) = ts'.map (·.text)) :
    Agree (EqUpTo Report.heading) (EqUpTo Program.erase) (parse text) (parse text') ∧
    Agree (EqUpTo Report.heading) Eq (compileText text) (compileText text') := by
  have hparse :
      Agree (EqUpTo Report.problem) (EqUpTo Program.erase) (parse text) (parse text') := by
    rw [parse, parse, h, h']
    exact ofTokens_agree hts
  have hcompile : Agree (EqUpTo Report.problem) Eq (compileText text) (compileText text') :=
    hparse.bind fun p q hpq => compile_agree hpq
  exact ⟨hparse.mono_error heading_of_problem, hcompile.mono_error heading_of_problem⟩

def spacedText : String :=
  "/* letters */ alphabet=\x7ba,b\x7d // one module\nmodule scan\x7b\n\tmove left\r\n" ++
    "changeto/**/a if a\x7baccept\x7d while b,blank\n\x7bmove right\x7d\x7d // end"

theorem agree_spacedText : ∃ ts ts', Token.scan sampleText = .ok ts ∧
    Token.scan spacedText = .ok ts' ∧ ts ≠ ts' ∧
    Agree (EqUpTo Report.heading) (EqUpTo Program.erase) (parse sampleText) (parse spacedText) ∧
    Agree (EqUpTo Report.heading) Eq (compileText sampleText) (compileText spacedText) := by
  have hscan : ((Token.scan sampleText).toOption.bind fun ts =>
      (Token.scan spacedText).toOption.map fun ts' =>
        decide (ts.map (·.text) = ts'.map (·.text) ∧ ts ≠ ts')) = some true := by
    decide +kernel
  cases h : Token.scan sampleText with
  | error r => rw [h] at hscan; cases hscan
  | ok ts =>
    cases h' : Token.scan spacedText with
    | error r => rw [h, h'] at hscan; cases hscan
    | ok ts' =>
      rw [h, h'] at hscan
      obtain ⟨heq, hne⟩ := of_decide_eq_true (Option.some.inj hscan)
      exact ⟨ts, ts', rfl, rfl, hne, agree_of_texts_eq h h' heq⟩

end Program
end TapeLang
