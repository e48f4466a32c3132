import Mathlib.Algebra.GroupWithZero.Nat
import Mathlib.Data.List.Forall2
import TapeLang.Catalogue
import TapeLang.Proofs.Longest

/-!
Questions to a catalogue.

Every question may fill the catalogue, and others may change it between two questions.  A question
is answered from the filled catalogue and leaves it filled (`Catalogue.ask_agrees`), and filling it
again changes nothing.  So all questions between two changes are answered from the same entries.
-/

namespace TapeLang

/-- The same character, or the same ASCII letter in the other case. -/
def SameLetter (c d : Char) : Prop :=
  c = d ∨ c.isUpper ∧ d.toNat = c.toNat + 32 ∨ d.isUpper ∧ c.toNat = d.toNat + 32

theorem isUpper_iff {c : Char} : c.isUpper ↔ 65 ≤ c.toNat ∧ c.toNat ≤ 90 :=
  decide_eq_true_iff

theorem toNat_toLower (c : Char) :
    c.toLower.toNat = if c.isUpper then c.toNat + 32 else c.toNat := by
  by_cases h : c.isUpper
  · have hrange := isUpper_iff.mp h
    have hlower : c.toLower.val = c.val + 32 := congrArg Char.val (dif_pos hrange)
    rw [if_pos h, ← Char.toNat_val, hlower, UInt32.toNat_add, Char.toNat_val]
    exact Nat.mod_eq_of_lt (show c.toNat + 32 < 2 ^ 32 by omega)
  · have hsame : c.toLower = c := dif_neg (mt isUpper_iff.mpr h)
    rw [if_neg h, hsame]

theorem toLower_eq_iff {c d : Char} : c.toLower = d.toLower ↔ SameLetter c d := by
  rw [SameLetter, ← Char.toNat_inj, ← Char.toNat_inj, toNat_toLower, toNat_toLower]
  simp only [isUpper_iff]
  split <;> split <;> omega

namespace Catalogue

def SameName (a b : String) : Prop := List.Forall₂ SameLetter a.toList b.toList

theorem sameName_iff {a b : String} : sameName a b ↔ SameName a b := by
  rw [sameName, decide_eq_true_iff, SameName, ← List.forall₂_eq_eq_eq, List.forall₂_map_left_iff,
    List.forall₂_map_right_iff]
  simp only [toLower_eq_iff]

/-! ## Questions and answers -/

inductive Question where
  | load
  | count
  | names
  | byIndex (i : Nat)
  | byName (name : String)
  | info (i : Nat)

inductive Answer where
  | done
  | count (n : Nat)
  | names (names : List String)
  | entry (result : Except Missing Entry)
  | info (result : Except Missing Info)

def ask : Question → StateM Catalogue Answer
  | .load => do load; return .done
  | .count => return .count (← count)
  | .names => return .names (← names)
  | .byIndex i => return .entry (← byIndex i)
  | .byName name => return .entry (← byName name)
  | .info i => return .info (← info i)

/-- What is told about the program with number `i` is true of its entry. -/
structure Describes (i : Nat) (entry : Entry) (info : Info) : Prop where
  index : info.index = i
  name : info.name = entry.name
  initial : info.initial = entry.automaton.initial
  alphabet : info.alphabet.toList = entry.automaton.alphabet
  stateCount : info.stateCount = entry.automaton.states.keys.length
  transitionCount : info.transitionCount =
    (entry.automaton.states.values.map fun state => state.transitions.length).sum

/-- The answer is right if the catalogue holds these entries. -/
inductive Agrees (registry : Catalogue) : Question → Answer → Prop
  | load : Agrees registry .load .done
  | count : Agrees registry .count (.count registry.length)
  | names {names : List String} (hlength : names.length = registry.length)
    (h : ∀ (i : Nat) (entry : Entry), registry[i]? = some entry → names[i]? = some entry.name) :
    Agrees registry .names (.names names)
  | byIndex {i : Nat} {entry : Entry} (h : registry[i]? = some entry) :
    Agrees registry (.byIndex i) (.entry (.ok entry))
  | noIndex {i : Nat} (h : registry.length ≤ i) :
    Agrees registry (.byIndex i) (.entry (.error (.index i)))
  | byName {name : String} {before after : List Entry} {entry : Entry}
    (hc : registry = before ++ entry :: after) (h : SameName entry.name name)
    (hbefore : ∀ other ∈ before, ¬ SameName other.name name) :
    Agrees registry (.byName name) (.entry (.ok entry))
  | noName {name : String} (h : ∀ entry ∈ registry, ¬ SameName entry.name name) :
    Agrees registry (.byName name) (.entry (.error (.name name)))
  | info {i : Nat} {entry : Entry} {info : Info} (h : registry[i]? = some entry)
    (hinfo : Describes i entry info) : Agrees registry (.info i) (.info (.ok info))
  | noInfo {i : Nat} (h : registry.length ≤ i) :
    Agrees registry (.info i) (.info (.error (.index i)))

theorem describes_describe (i : Nat) (entry : Entry) : Describes i entry (describe i entry) where
  index := rfl
  name := rfl
  initial := rfl
  alphabet := String.toList_ofList
  stateCount := (List.length_map _).symm
  transitionCount := List.length_flatMap

theorem agrees_names (registry : Catalogue) :
    Agrees registry .names (.names (registry.map (·.name))) := by
  refine .names (List.length_map _) fun i entry h => ?_
  rw [List.getElem?_map, h]
  rfl

theorem agrees_byIndex (registry : Catalogue) (i : Nat) :
    Agrees registry (.byIndex i) (.entry (registry[i]?.elim (.error (.index i)) .ok)) := by
  cases h : registry[i]? with
  | none => exact .noIndex (List.getElem?_eq_none_iff.mp h)
  | some entry => exact .byIndex h

theorem agrees_byName (registry : Catalogue) (name : String) : Agrees registry (.byName name)
    (.entry ((registry.find? fun entry => sameName entry.name name).elim (.error (.name name))
      .ok)) := by
  cases hfind : registry.find? fun entry => sameName entry.name name with
  | none =>
    refine .noName fun entry hentry hname => ?_
    exact List.find?_eq_none.mp hfind entry hentry (sameName_iff.mpr hname)
  | some entry =>
    obtain ⟨hname, before, after, hc, hbefore⟩ := List.find?_eq_some_iff_append.mp hfind
    refine .byName hc (sameName_iff.mp hname) fun other hother hsame => ?_
    have hdiffers := hbefore other hother
    rw [sameName_iff.mpr hsame] at hdiffers
    cases hdiffers

theorem agrees_info (registry : Catalogue) (i : Nat) : Agrees registry (.info i)
    (.info ((registry[i]?.elim (.error (.index i)) .ok : Except Missing Entry).map
      (describe i))) := by
  cases h : registry[i]? with
  | none => exact .noInfo (List.getElem?_eq_none_iff.mp h)
  | some entry => exact .info h (describes_describe i entry)

theorem run_load_get {α : Type} (f : Catalogue → StateM Catalogue α) (c : Catalogue) :
    (do load; f (← get) : StateM Catalogue α).run c = (f (filled c)).run (filled c) := rfl

theorem run_byIndex (i : Nat) (c : Catalogue) :
    (byIndex i).run c = ((filled c)[i]?.elim (.error (.index i)) .ok, filled c) := by
  rw [byIndex, run_load_get]
  cases (filled c)[i]? with
  | none => rfl
  | some entry => rfl

theorem run_byName (name : String) (c : Catalogue) :
    (byName name).run c = (((filled c).find? fun entry => sameName entry.name name).elim
      (.error (.name name)) .ok, filled c) := by
  rw [byName, run_load_get]
  cases (filled c).find? fun entry : Entry => sameName entry.name name with
  | none => rfl
  | some entry => rfl

/-- A question is answered from the filled catalogue and leaves it. -/
theorem ask_agrees (q : Question) (c : Catalogue) :
    ((ask q).run c).2 = filled c ∧ Agrees (filled c) q ((ask q).run c).1 := by
  cases q with
  | load => exact ⟨rfl, .load⟩
  | count => exact ⟨rfl, .count⟩
  | names => exact ⟨rfl, agrees_names (filled c)⟩
  | byIndex i =>
    have hask : (ask (.byIndex i)).run c =
        (.entry ((byIndex i).run c).1, ((byIndex i).run c).2) := rfl
    rw [hask, run_byIndex]
    exact ⟨rfl, agrees_byIndex (filled c) i⟩
  | byName name =>
    have hask : (ask (.byName name)).run c =
        (.entry ((byName name).run c).1, ((byName name).run c).2) := rfl
    rw [hask, run_byName]
    exact ⟨rfl, agrees_byName (filled c) name⟩
  | info i =>
    have hask : (ask (.info i)).run c =
        (.info (((byIndex i).run c).1.map (describe i)), ((byIndex i).run c).2) := rfl
    rw [hask, run_byIndex]
    exact ⟨rfl, agrees_info (filled c) i⟩

/-- The bundled programs that compile, in the order they are listed in. -/
structure IsBundled (c : Catalogue) : Prop where
  texts : c.map (fun entry => (entry.name, entry.source)) =
    Bundled.texts.filter fun text => (Program.compileText text.2).toBool
  compiled : ∀ entry ∈ c, Program.compileText entry.source = .ok entry.automaton

theorem isBundled_bundled : IsBundled bundled := by
  constructor
  · rw [bundled, List.map_filterMap, ← List.filterMap_eq_filter]
    refine congrArg (List.filterMap · Bundled.texts) (funext fun text => ?_)
    cases h : Program.compileText text.2 with
    | error report => simp [Option.guard, Except.toOption, Except.toBool, h]
    | ok a => simp [Option.guard, Except.toOption, Except.toBool, h]
  · intro entry hentry
    obtain ⟨text, -, h⟩ := List.mem_filterMap.mp hentry
    obtain ⟨a, ha, rfl⟩ := Option.map_eq_some_iff.mp h
    exact eq_ok_of_toOption ha

theorem filled_of_ne_nil {c : Catalogue} (h : c ≠ []) : filled c = c := by
  rw [filled, if_neg (mt List.isEmpty_iff.mp h)]

theorem filled_filled (c : Catalogue) : filled (filled c) = filled c := by
  by_cases h : c = []
  · subst h
    exact ite_self _
  · rw [filled_of_ne_nil h, filled_of_ne_nil h]

/-- The answers to questions that are asked one after the other, each with the catalogue it
leaves. -/
def consult : List Question → Catalogue → List (Answer × Catalogue)
  | [], _ => []
  | q :: qs, c => (ask q).run c :: consult qs ((ask q).run c).2

theorem consult_agrees (qs : List Question) (c : Catalogue) :
    List.Forall₂ (fun q reply => reply.2 = filled c ∧ Agrees (filled c) q reply.1) qs
      (consult qs c) := by
  induction qs generalizing c with
  | nil => exact .nil
  | cons q qs ih =>
    have hask := ask_agrees q c
    have hrest := ih ((ask q).run c).2
    rw [hask.1, filled_filled] at hrest
    rw [consult, hask.1]
    exact .cons hask hrest

/-- Something that happens to a catalogue: a question, or a change from outside. -/
inductive Event where
  | question (q : Question)
  | clear
  | push (entry : Entry)
  | remove (i : Nat)

def Event.leave (c : Catalogue) : Event → Catalogue
  | .question q => ((ask q).run c).2
  | .clear => (Catalogue.clear.run c).2
  | .push entry => ((Catalogue.push entry).run c).2
  | .remove i => ((Catalogue.remove i).run c).2

/-- Whatever happened to a catalogue before, the questions asked until it is changed again are
answered from one and the same entries, and each of them leaves these entries: those that were
there, or the bundled programs if there were none. -/
theorem consult_from_one_registry (start : Catalogue) (events : List Event)
    (questions : List Question) :
    let c := events.foldl Event.leave start
    ∃ registry : Catalogue, (c ≠ [] → registry = c) ∧ (c = [] → IsBundled registry) ∧
      List.Forall₂ (fun q reply => reply.2 = registry ∧ Agrees registry q reply.1) questions
        (consult questions c) := by
  intro c
  refine ⟨filled c, filled_of_ne_nil, fun h => ?_, consult_agrees questions c⟩
  rw [h]
  exact isBundled_bundled

end Catalogue

end TapeLang
