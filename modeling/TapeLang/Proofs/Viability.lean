import Mathlib.Data.Nat.Find
import Mathlib.Order.Bounds.Basic
import TapeLang.Proofs.Completion
import TapeLang.Proofs.Parallel

/-!
Where the parser stops.

A list of tokens is viable if some continuation of it is a program of the plain grammar.  The
parser reports a missing token, or missing modules, exactly at the lists that are viable and no
program.  On every other list that is no program it has refused a token, and it did so at the
first one that leaves no continuation: nothing after that token has a part in the report.
-/

namespace TapeLang

namespace Grammar

def Grammatical (ts : List Token) : Prop := ∃ p, IsProgram .any ts p

/-- Some continuation is a program, the empty one included. -/
def Viable (ts : List Token) : Prop := ∃ k, Grammatical (ts ++ k)

end Grammar

open Grammar

namespace Problem

theorem kind_of_isMisplaced {p : Problem} (h : p.isMisplaced) : p.kind = .syntactic := by
  cases p with
  | expected | letterLength | letterClass | badIdentifier | badDirection | badCommand
  | badCoreCommand | badCase | noLetters | emptyModule | emptySwitch | ifWithoutSymbols
  | ifWithoutCommands | whileWithoutSymbols | whileWithoutCommands | whileTooLong => rfl
  | _ => cases h

def endMessages : List String :=
  ["Unexpected end of file", "A program should have at least one module"]

theorem append_notMem {l : List String} {a b : String}
    (h : ∀ s ∈ l, ¬ a.toList <+: s.toList) : a ++ b ∉ l := by
  intro hm
  refine h _ hm ⟨b.toList, ?_⟩
  rw [String.toList_append]

theorem append_append_notMem {l : List String} {a b c : String}
    (h : ∀ s ∈ l, ¬ a.toList <+: s.toList) : a ++ b ++ c ∉ l := by
  rw [String.append_assoc]
  exact append_notMem h

theorem message_notMem_of_isMisplaced {p : Problem} (h : p.isMisplaced) :
    p.message ∉ endMessages := by
  -- Simplifying a message would compare its letters one by one, so the two forms of messages are
  -- matched as they stand.
  cases p with
  | expected found wanted =>
    show "Expected value " ++ quoted found ++ " to be " ++ quoted wanted ∉ endMessages
    rw [String.append_assoc]
    exact append_append_notMem (by decide +kernel)
  | letterLength | letterClass => exact append_append_notMem (by decide +kernel)
  | badIdentifier | badDirection | badCommand | badCoreCommand | badCase =>
    exact append_notMem (by decide +kernel)
  | noLetters | emptyModule | emptySwitch | ifWithoutSymbols | ifWithoutCommands
  | whileWithoutSymbols | whileWithoutCommands | whileTooLong => decide +kernel
  | _ => cases h

end Problem

namespace Parser

def Likeness.longer : Likeness := ⟨Eq, fun h h' => congrArg₂ Span.upTo h h', True⟩

theorem Likeness.longer_allLike (ts k : List Token) : longer.AllLike ts (ts ++ k) := by
  induction ts with
  | nil => exact .ended trivial k
  | cons t ts ih => exact .cons ⟨t.text, rfl⟩ ih

theorem Likeness.longer_wrong {α β : Type} {R : α → β → Prop} {E : α → Prop} {r : Report}
    {y : Except Stop β} (h : longer.Same R E (.error (.wrong r)) y) :
    y = .error (.wrong r) ∧ r.problem.isMisplaced := by
  cases h with
  | @wrong _ r' h =>
    obtain ⟨problem, span⟩ := r
    obtain ⟨problem', span'⟩ := r'
    obtain ⟨rfl, hm, rfl⟩ := h
    exact ⟨rfl, hm⟩
  | ended _ hx => exact hx.elim

theorem viable_of_rule {ts : List Token} (h : Rule.program.Viable ts) : Viable ts := by
  obtain ⟨k, hk⟩ := h
  exact ⟨k, Rule.exists_isProgram hk⟩

/-- A token was refused, and whatever comes after the tokens leaves it refused. -/
def Refused (ts : List Token) : Prop :=
  ∃ r, r.problem.isMisplaced ∧ ∀ k, program (ts ++ k) = .error (.wrong r)

inductive Short (ts : List Token) : Prop
  | atEnd (h : program ts = .error .atEnd)
  | noModules (span : Span) (h : program ts = .error (.wrong ⟨.noModules, span⟩))

theorem program_modules {ts r : List Token} {a : Alphabet} {t : Token} {hl}
    (h : alphabet ts = .ok ⟨a, t :: r, hl⟩) :
    program ts = (modules (t :: r)).map (Program.mk a) := by
  rw [program, h]
  show (modules (t :: r) >>= fun ms => Except.ok (Program.mk a ms)) = _
  cases modules (t :: r) <;> rfl

/-- A module that is refused is refused with more tokens, too. -/
theorem program_append {ts r k : List Token} {a : Alphabet} {t : Token} {hl} {report : Report}
    (ha : alphabet ts = .ok ⟨a, t :: r, hl⟩)
    (hm : modules (t :: r) = .error (.wrong report)) :
    program (ts ++ k) = .error (.wrong report) ∧ report.problem.isMisplaced := by
  have h := Likeness.same_alphabet (Likeness.longer_allLike ts k)
  rw [ha] at h
  generalize hy : alphabet (ts ++ k) = y at h
  cases h with
  | ended _ hx => exact hx.elim
  | @ok _ b hb =>
    obtain ⟨a', r', hl'⟩ := b
    have hrest : Likeness.longer.AllLike (t :: r) r' := hb.2
    have hmodules := Likeness.same_modules hrest
    rw [hm] at hmodules
    obtain ⟨hr', hp⟩ := Likeness.longer_wrong hmodules
    cases hrest with
    | cons _ _ =>
      rw [program_modules hy, hr']
      exact ⟨rfl, hp⟩

/-- The parser succeeds, or has too few tokens that can be completed, or refuses a token for
good. -/
inductive Outcome (ts : List Token) : Prop
  | success (p : Program) (h : program ts = .ok p)
  | short (h : Short ts) (hv : Viable ts)
  | refused (h : Refused ts)

theorem outcome_of_modules {ts r : List Token} {a : Alphabet} {t : Token} {hl}
    (ha : alphabet ts = .ok ⟨a, t :: r, hl⟩) (hrule : Rule.alphabet.Holds ts (t :: r)) :
    Outcome ts := by
  have hsound := sound_modules (t :: r)
  cases hm : modules (t :: r) with
  | ok ms =>
    refine .success ⟨a, ms⟩ ?_
    rw [program_modules ha, hm]
    rfl
  | error e =>
    rw [hm] at hsound
    cases e with
    | atEnd =>
      refine .short (.atEnd ?_) (viable_of_rule ?_)
      · rw [program_modules ha, hm]
        rfl
      · exact Rule.Viable.seq_right (Rule.Viable.modules hsound) hrule
    | wrong report =>
      exact .refused ⟨report, (program_append (k := []) ha hm).2,
        fun k => (program_append ha hm).1⟩

theorem outcome (ts : List Token) : Outcome ts := by
  have hsound := sound_alphabet ts
  cases ha : alphabet ts with
  | ok b =>
    obtain ⟨a, r, hl⟩ := b
    rw [ha] at hsound
    cases r with
    | nil =>
      refine .short (.noModules a.span ?_) (viable_of_rule ?_)
      · rw [program, ha]
        rfl
      · exact Rule.Viable.seq_right (Rule.viable_nil _) hsound
    | cons t r => exact outcome_of_modules ha hsound
  | error e =>
    rw [ha] at hsound
    cases e with
    | atEnd =>
      refine .short (.atEnd ?_) (viable_of_rule (Rule.Viable.seq_left hsound))
      rw [program, ha]
      rfl
    | wrong r =>
      have hlonger (k : List Token) :
          alphabet (ts ++ k) = .error (.wrong r) ∧ r.problem.isMisplaced := by
        have h := Likeness.same_alphabet (Likeness.longer_allLike ts k)
        rw [ha] at h
        exact Likeness.longer_wrong h
      refine .refused ⟨r, (hlonger []).2, fun k => ?_⟩
      rw [program, (hlonger k).1]
      rfl

theorem grammatical_iff {ts : List Token} : Grammatical ts ↔ ∃ p, program ts = .ok p := by
  constructor
  · intro h
    obtain ⟨p, hp⟩ := h
    obtain ⟨q, hq⟩ := exists_greedy_program hp
    exact ⟨q, program_eq_ok.mpr hq⟩
  · intro h
    obtain ⟨p, hp⟩ := h
    exact ⟨p, (program_eq_ok.mp hp).mono (Ending.implies_any _)⟩

theorem Short.not_grammatical {ts : List Token} (h : Short ts) : ¬ Grammatical ts := by
  rw [grammatical_iff]
  rintro ⟨p, hp⟩
  cases h with
  | atEnd h => rw [h] at hp; cases hp
  | noModules _ h => rw [h] at hp; cases hp

theorem Short.not_refused {ts : List Token} (h : Short ts) : ¬ Refused ts := by
  rintro ⟨r, hm, hr⟩
  have hts := hr []
  rw [List.append_nil] at hts
  cases h with
  | atEnd h => rw [h] at hts; cases hts
  | noModules _ h =>
    rw [h] at hts
    cases hts
    cases hm

theorem Refused.not_viable {ts : List Token} (h : Refused ts) : ¬ Viable ts := by
  rintro ⟨k, hk⟩
  obtain ⟨p, hp⟩ := grammatical_iff.mp hk
  obtain ⟨r, -, hr⟩ := h
  rw [hr k] at hp
  cases hp

theorem viable_of_grammatical {ts : List Token} (h : Grammatical ts) : Viable ts :=
  ⟨[], by rwa [List.append_nil]⟩

/-- The tokens are too few exactly if they are a proper beginning of a program. -/
theorem short_iff {ts : List Token} : Short ts ↔ Viable ts ∧ ¬ Grammatical ts := by
  constructor
  · intro h
    cases outcome ts with
    | success p hp => exact absurd (grammatical_iff.mpr ⟨p, hp⟩) h.not_grammatical
    | short _ hv => exact ⟨hv, h.not_grammatical⟩
    | refused hr => exact absurd hr h.not_refused
  · intro h
    obtain ⟨hv, hg⟩ := h
    cases outcome ts with
    | success p hp => exact absurd (grammatical_iff.mpr ⟨p, hp⟩) hg
    | short hs _ => exact hs
    | refused hr => exact absurd hv hr.not_viable

/-- A token was refused exactly if the tokens are no beginning of a program. -/
theorem refused_iff {ts : List Token} : Refused ts ↔ ¬ Viable ts := by
  refine ⟨Refused.not_viable, fun hv => ?_⟩
  cases outcome ts with
  | success p hp => exact absurd (viable_of_grammatical (grammatical_iff.mpr ⟨p, hp⟩)) hv
  | short _ hv' => exact absurd hv' hv
  | refused hr => exact hr

end Parser

namespace Program

theorem ofTokens_wrong {ts : List Token} {r : Report} (hts : ts ≠ [])
    (h : Parser.program ts = .error (.wrong r)) : ofTokens ts = .error r := by
  rw [ofTokens, List.getLast?_eq_some_getLast hts]
  simp only [h]

theorem ofTokens_atEnd {ts : List Token} (hts : ts ≠ []) (h : Parser.program ts = .error .atEnd) :
    ofTokens ts = .error ⟨.unexpectedEnd, (ts.getLast hts).span⟩ := by
  rw [ofTokens, List.getLast?_eq_some_getLast hts]
  simp only [h]

theorem ofTokens_refused {ts ts' : List Token} {r : Report}
    (hr : ∀ k, Parser.program (ts ++ k) = .error (.wrong r)) (hts : ts ≠ []) (h : ts <+: ts') :
    ofTokens ts' = .error r := by
  obtain ⟨k, rfl⟩ := h
  exact ofTokens_wrong (List.append_ne_nil_of_left_ne_nil hts k) (hr k)

/-- The messages about missing tokens are given exactly where tokens are missing. -/
theorem message_mem_iff_short {ts : List Token} (hts : ts ≠ []) :
    (∃ r, ofTokens ts = .error r ∧ r.diagnostic.message ∈ Problem.endMessages) ↔
      Parser.Short ts := by
  constructor
  · intro h
    obtain ⟨r, hr, hm⟩ := h
    cases Parser.outcome ts with
    | success p hp =>
      rw [ofTokens_eq_ok.mpr (Parser.program_eq_ok.mp hp)] at hr
      cases hr
    | short hs _ => exact hs
    | refused hrefused =>
      obtain ⟨r', hp, hk⟩ := hrefused
      rw [ofTokens_refused hk hts List.prefix_rfl] at hr
      cases hr
      exact absurd hm (Problem.message_notMem_of_isMisplaced hp)
  · intro h
    cases h with
    | atEnd h => exact ⟨_, ofTokens_atEnd hts h, List.mem_cons_self⟩
    | noModules span h =>
      exact ⟨_, ofTokens_wrong hts h, List.mem_cons_of_mem _ List.mem_cons_self⟩

/-- The first token after which there is no continuation. -/
theorem exists_first_unviable {ts : List Token} (hts : ts ≠ []) (h : ¬ Viable ts) :
    ∃ j, IsLeast {i | i < ts.length ∧ ¬ Viable (ts.take (i + 1))} j := by
  classical
  have hpos := List.length_pos_iff.mpr hts
  have hlast : ∃ i, i < ts.length ∧ ¬ Viable (ts.take (i + 1)) := by
    refine ⟨ts.length - 1, by omega, ?_⟩
    rwa [Nat.sub_add_cancel hpos, List.take_length]
  exact ⟨Nat.find hlast, Nat.find_spec hlast, fun i hi => Nat.find_min' hlast hi⟩

/-- The parser asks for more tokens exactly at the proper beginnings of programs.  Otherwise it
has refused the first token without a continuation, and all lists with the same tokens up to
that one get the same report. -/
theorem ofTokens_viability {ts : List Token} (hts : ts ≠ []) :
    ((∃ r, ofTokens ts = .error r ∧ r.diagnostic.message ∈ Problem.endMessages) ↔
      Viable ts ∧ ¬ Grammatical ts) ∧
    (¬ Viable ts → ∃ j, IsLeast {i | i < ts.length ∧ ¬ Viable (ts.take (i + 1))} j ∧
      ∃ r, ofTokens ts = .error r ∧ r.diagnostic.kind = .syntactic ∧
        r.diagnostic.message ∉ Problem.endMessages ∧
        ∀ ts', ts'.take (j + 1) = ts.take (j + 1) → ofTokens ts' = .error r) := by
  refine ⟨(message_mem_iff_short hts).trans Parser.short_iff, fun hv => ?_⟩
  obtain ⟨j, hj⟩ := exists_first_unviable hts hv
  have hunviable : ¬ Viable (ts.take (j + 1)) := hj.1.2
  obtain ⟨r, hm, hr⟩ := Parser.refused_iff.mpr hunviable
  have hne : ts.take (j + 1) ≠ [] := by
    rw [ne_eq, List.take_eq_nil_iff]
    exact not_or.mpr ⟨Nat.succ_ne_zero j, hts⟩
  have hsame (ts' : List Token) (h : ts'.take (j + 1) = ts.take (j + 1)) :
      ofTokens ts' = .error r :=
    ofTokens_refused hr hne (h ▸ List.take_prefix (j + 1) ts')
  exact ⟨j, hj, r, hsame ts rfl, Problem.kind_of_isMisplaced hm,
    Problem.message_notMem_of_isMisplaced hm, hsame⟩

def emptyAlphabet : List Token :=
  ["alphabet", "=", "\x7b", "\x7d", "module"].map fun text => ⟨text, .emptyText⟩

theorem refused_emptyAlphabet : emptyAlphabet ≠ [] ∧ ¬ Viable emptyAlphabet ∧
    ∃ j, IsLeast {i | i < emptyAlphabet.length ∧ ¬ Viable (emptyAlphabet.take (i + 1))} j ∧
      ∃ r, ofTokens emptyAlphabet = .error r ∧ r.diagnostic.kind = .syntactic ∧
        r.diagnostic.message ∉ Problem.endMessages ∧
        ∀ ts, ts.take (j + 1) = emptyAlphabet.take (j + 1) → ofTokens ts = .error r := by
  have hne : emptyAlphabet ≠ [] := List.cons_ne_nil _ _
  have hfails : ofTokens emptyAlphabet = .error ⟨.noLetters, .emptyText⟩ := rfl
  obtain ⟨hshort, hrefused⟩ := ofTokens_viability hne
  have hgrammar : ¬ Grammatical emptyAlphabet := by
    rw [Parser.grammatical_iff]
    rintro ⟨p, hp⟩
    rw [ofTokens_eq_ok.mpr (Parser.program_eq_ok.mp hp)] at hfails
    cases hfails
  have hviable : ¬ Viable emptyAlphabet := by
    intro hv
    obtain ⟨r, hr, hm⟩ := hshort.mpr ⟨hv, hgrammar⟩
    rw [hfails] at hr
    cases hr
    exact Problem.message_notMem_of_isMisplaced (p := .noLetters) rfl hm
  exact ⟨hne, hviable, hrefused hviable⟩

end Program
end TapeLang
