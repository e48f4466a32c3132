import Mathlib.Data.List.Infix
import TapeLang.Program.Compile
import TapeLang.Proofs.Meaning

/-!
The number of a point against the label arithmetic of the lowering.

`Occurs m place i bs` says that the blocks `bs` are what is left at a place of a module and
that `i` blocks come before them; its rules add up sizes the way the lowering does.  The points
of a module in order are the occurrences (`Occurs.getElem?_points`,
`Block.occurs_of_getElem?`), so an occurrence knows the number of its point
(`Occurs.number_eq`), and the states of a module are those of its points (`Module.mem_states`).
-/

namespace TapeLang

/-- The blocks that are left at a place, and the number of the first of them. -/
inductive Occurs (m : Module) : Place → Nat → List Block → Prop
  | body : Occurs m [] 0 m.blocks
  | past {place i b bs} (h : Occurs m place i (b :: bs)) :
    Occurs m (.past :: place) (i + b.size) bs
  | into {place i cases span bs k symbols first rest cspan}
    (h : Occurs m place i (.switch cases span :: bs))
    (hk : cases[k]? = some (.branch symbols first rest cspan)) :
    Occurs m (.into k :: place) (i + 1 + Case.totalSize (cases.take k)) rest

mutual

theorem Block.length_points (m : Module) (place : Place) :
    ∀ bs : List Block, (Block.points m place bs).length = Block.totalSize bs
  | [] => rfl
  | b :: bs => by
    have hb := Block.length_innerPoints m place b
    have hbs := Block.length_points m (.past :: place) bs
    rw [Block.points, List.length_cons, List.length_append, Block.totalSize]
    omega

/-- A block has one point of its own. -/
theorem Block.length_innerPoints (m : Module) (place : Place) :
    ∀ b : Block, (b.innerPoints m place).length + 1 = b.size
  | .basic _ => rfl
  | .switch cases _ => by
    have hcases := Case.length_points m place 0 cases
    rw [Block.innerPoints, Block.size]
    omega

theorem Case.length_points (m : Module) (place : Place) (k : Nat) :
    ∀ cs : List Case, (Case.points m place k cs).length = Case.totalSize cs
  | [] => rfl
  | .loop _ _ _ :: cs => by rw [Case.points, Case.length_points, Case.totalSize]
  | .branch _ _ rest _ :: cs => by
    rw [Case.points, List.length_append, Block.length_points, Case.length_points, Case.totalSize]

end

theorem prefix_drop_of_append {α : Type} {l₁ l₂ l : List α} {i : Nat}
    (h : l₁ ++ l₂ <+: l.drop i) : l₂ <+: l.drop (i + l₁.length) := by
  have h' := h.drop l₁.length
  rwa [List.drop_left, List.drop_drop] at h'

/-- The points of a branch among the points of the cases of its switch. -/
theorem Case.points_prefix_drop (m : Module) (place : Place) (j : Nat) {k : Nat}
    {cases : List Case} {symbols : List (Located Symbol)} {first : BasicBlock}
    {rest : List Block} {span : Span} (h : cases[k]? = some (.branch symbols first rest span)) :
    Block.points m (.into (j + k) :: place) rest <+:
      (Case.points m place j cases).drop (Case.totalSize (cases.take k)) := by
  induction cases generalizing j k with
  | nil => cases h
  | cons c cases ih =>
    cases k with
    | zero =>
      cases h
      exact List.prefix_append _ _
    | succ k =>
      have ih' := ih (j + 1) (List.getElem?_cons_succ ▸ h)
      rw [show j + 1 + k = j + (k + 1) by omega] at ih'
      cases c with
      | loop =>
        rw [List.take_succ_cons, Case.totalSize, Case.points]
        exact ih'
      | branch _ _ rest' _ =>
        rw [List.take_succ_cons, Case.totalSize, Case.points, ← List.drop_drop,
          ← Block.length_points m (.into j :: place) rest', List.drop_left]
        exact ih'

namespace Occurs

variable {m : Module} {place : Place} {i : Nat}

theorem points_prefix_drop {bs : List Block} (h : Occurs m place i bs) :
    Block.points m place bs <+: m.points.drop i := by
  induction h with
  | body => exact List.prefix_rfl
  | @past place i b bs h ih =>
    have hlength := Block.length_innerPoints m place b
    rw [Block.points, ← List.cons_append] at ih
    have ih' := prefix_drop_of_append ih
    rwa [List.length_cons, hlength] at ih'
  | @into place i cases span bs k symbols first rest cspan h hk ih =>
    rw [Block.points, Block.innerPoints] at ih
    rw [← List.singleton_append] at ih
    have hinner : Case.points m place 0 cases <+: m.points.drop (i + 1) :=
      (List.prefix_append _ _).trans (prefix_drop_of_append ih)
    have hcase := Case.points_prefix_drop m place 0 hk
    rw [Nat.zero_add] at hcase
    have hdrop := hinner.drop (Case.totalSize (cases.take k))
    rw [List.drop_drop] at hdrop
    exact hcase.trans hdrop

theorem getElem?_points {b : Block} {bs : List Block} (h : Occurs m place i (b :: bs)) :
    m.points[i]? = some ⟨m, place, b, bs⟩ := by
  obtain ⟨more, hmore⟩ := h.points_prefix_drop
  have hfirst : (m.points.drop i)[0]? = some ⟨m, place, b, bs⟩ := by rw [← hmore]; rfl
  rwa [List.getElem?_drop, Nat.add_zero] at hfirst

end Occurs

theorem Case.totalSize_append (cs ds : List Case) :
    Case.totalSize (cs ++ ds) = Case.totalSize cs + Case.totalSize ds := by
  induction cs with
  | nil => rw [List.nil_append, Case.totalSize, Nat.zero_add]
  | cons c cs ih =>
    cases c with
    | loop => rw [List.cons_append, Case.totalSize, Case.totalSize, ih]
    | branch => rw [List.cons_append, Case.totalSize, Case.totalSize, ih, Nat.add_assoc]

mutual

/-- Every point of a sequence is an occurrence. -/
theorem Block.occurs_of_getElem? {m : Module} :
    ∀ {bs : List Block} {place : Place} {i j : Nat} {p : Point}, Occurs m place i bs →
      (Block.points m place bs)[j]? = some p → Occurs m p.place (i + j) (p.block :: p.rest)
  | [], _, _, _, _, _, hj => nomatch hj
  | b :: bs, place, i, j, p, h, hj => by
    rw [Block.points] at hj
    cases j with
    | zero =>
      cases hj
      exact h
    | succ j =>
      have hsize := Block.length_innerPoints m place b
      rw [List.getElem?_cons_succ] at hj
      by_cases hlt : j < (b.innerPoints m place).length
      · rw [List.getElem?_append_left hlt] at hj
        exact Block.occurs_of_getElem?_inner h hj
      · rw [List.getElem?_append_right (by omega)] at hj
        have hrest := Block.occurs_of_getElem? h.past hj
        rwa [show i + b.size + (j - (b.innerPoints m place).length) = i + (j + 1) by omega] at hrest

theorem Block.occurs_of_getElem?_inner {m : Module} :
    ∀ {b : Block} {bs : List Block} {place : Place} {i j : Nat} {p : Point},
      Occurs m place i (b :: bs) → (b.innerPoints m place)[j]? = some p →
        Occurs m p.place (i + (j + 1)) (p.block :: p.rest)
  | .basic _, _, _, _, _, _, _, hj => nomatch hj
  | .switch cases _, bs, place, i, j, p, h, hj => by
    have hcase := Case.occurs_of_getElem? [] h hj
    rwa [show i + 1 + Case.totalSize [] + j = i + (j + 1) by rw [Case.totalSize]; omega] at hcase

theorem Case.occurs_of_getElem? {m : Module} :
    ∀ (before : List Case) {cs : List Case} {span : Span} {bs : List Block} {place : Place}
      {i j : Nat} {p : Point}, Occurs m place i (.switch (before ++ cs) span :: bs) →
        (Case.points m place before.length cs)[j]? = some p →
          Occurs m p.place (i + 1 + Case.totalSize before + j) (p.block :: p.rest)
  | _, [], _, _, _, _, _, _, _, hj => nomatch hj
  | before, .loop symbols body cspan :: cs, span, bs, place, i, j, p, h, hj => by
    rw [List.append_cons] at h
    have hl : before.length + 1 = (before ++ [Case.loop symbols body cspan]).length := by simp
    rw [Case.points, hl] at hj
    have hrest := Case.occurs_of_getElem? _ h hj
    rwa [Case.totalSize_append, Case.totalSize, Case.totalSize, Nat.add_zero] at hrest
  | before, .branch symbols first rest cspan :: cs, span, bs, place, i, j, p, h, hj => by
    have hlength := Block.length_points m (.into before.length :: place) rest
    rw [Case.points] at hj
    by_cases hlt : j < (Block.points m (.into before.length :: place) rest).length
    · rw [List.getElem?_append_left hlt] at hj
      have hk : (before ++ .branch symbols first rest cspan :: cs)[before.length]? =
          some (.branch symbols first rest cspan) := by simp
      have hinto := h.into hk
      rw [List.take_left] at hinto
      exact Block.occurs_of_getElem? hinto hj
    · have hl : before.length + 1 = (before ++ [Case.branch symbols first rest cspan]).length := by
        simp
      rw [List.getElem?_append_right (by omega), hl] at hj
      rw [List.append_cons] at h
      have hrest := Case.occurs_of_getElem? _ h hj
      rw [Case.totalSize_append, Case.totalSize, Case.totalSize] at hrest
      convert hrest using 1
      omega

end

theorem Module.occurs_of_getElem? {m : Module} {i : Nat} {p : Point}
    (h : m.points[i]? = some p) : Occurs m p.place i (p.block :: p.rest) := by
  have hocc := Block.occurs_of_getElem? Occurs.body h
  rwa [Nat.zero_add] at hocc

/-! ## Places -/

mutual

theorem Block.suffix_place {m : Module} {place : Place} :
    ∀ {bs : List Block} {p : Point}, p ∈ Block.points m place bs → place <:+ p.place
  | [], _, hp => nomatch hp
  | b :: bs, p, hp => by
    rw [Block.points, List.mem_cons, List.mem_append] at hp
    rcases hp with rfl | hp | hp
    · exact List.suffix_rfl
    · obtain ⟨k, hk⟩ := Block.suffix_place_inner hp
      exact (List.suffix_cons _ place).trans hk
    · exact (List.suffix_cons _ place).trans (Block.suffix_place hp)

theorem Block.suffix_place_inner {m : Module} {place : Place} :
    ∀ {b : Block} {p : Point}, p ∈ b.innerPoints m place → ∃ k, .into k :: place <:+ p.place
  | .basic _, _, hp => nomatch hp
  | .switch _ _, _, hp => by
    obtain ⟨k, -, hk⟩ := Case.suffix_place hp
    exact ⟨k, hk⟩

theorem Case.suffix_place {m : Module} {place : Place} :
    ∀ {j : Nat} {cs : List Case} {p : Point}, p ∈ Case.points m place j cs →
      ∃ k, j ≤ k ∧ .into k :: place <:+ p.place
  | _, [], _, hp => nomatch hp
  | j, .loop _ _ _ :: cs, p, hp => by
    rw [Case.points] at hp
    obtain ⟨k, hj, hk⟩ := Case.suffix_place hp
    exact ⟨k, by omega, hk⟩
  | j, .branch _ _ rest _ :: cs, p, hp => by
    rw [Case.points, List.mem_append] at hp
    rcases hp with hp | hp
    · exact ⟨j, Nat.le_refl j, Block.suffix_place hp⟩
    · obtain ⟨k, hj, hk⟩ := Case.suffix_place hp
      exact ⟨k, by omega, hk⟩

end

/-- Two different turns at one place lead to different places. -/
theorem turn_unique {t u : Turn} {place q : Place} (ht : t :: place <:+ q)
    (hu : u :: place <:+ q) : t = u := by
  have hlength : (t :: place).length = (u :: place).length := rfl
  have heq := List.IsSuffix.eq_of_length (List.suffix_of_suffix_length_le ht hu hlength.le) hlength
  exact (List.cons.inj heq).1

def Distinct (ps : List Point) : Prop := ps.Pairwise fun p q => p.place ≠ q.place

mutual

theorem Block.distinct_points {m : Module} :
    ∀ {place : Place} {bs : List Block}, Distinct (Block.points m place bs)
  | _, [] => List.Pairwise.nil
  | place, b :: bs => by
    rw [Block.points]
    refine List.pairwise_cons.mpr ⟨?_, List.pairwise_append.mpr
      ⟨Block.distinct_innerPoints, Block.distinct_points, ?_⟩⟩
    · intro q hq heq
      have hlong : place.length < q.place.length := by
        rcases List.mem_append.mp hq with hq | hq
        · obtain ⟨k, hk⟩ := Block.suffix_place_inner hq
          exact Nat.lt_of_succ_le hk.length_le
        · exact Nat.lt_of_succ_le (Block.suffix_place hq).length_le
      rw [← heq] at hlong
      exact Nat.lt_irrefl _ hlong
    · intro p hp q hq heq
      obtain ⟨k, hk⟩ := Block.suffix_place_inner hp
      have hpast := Block.suffix_place hq
      rw [← heq] at hpast
      exact nomatch turn_unique hk hpast

theorem Block.distinct_innerPoints {m : Module} {place : Place} :
    ∀ {b : Block}, Distinct (b.innerPoints m place)
  | .basic _ => List.Pairwise.nil
  | .switch _ _ => Case.distinct_points

theorem Case.distinct_points {m : Module} {place : Place} :
    ∀ {j : Nat} {cs : List Case}, Distinct (Case.points m place j cs)
  | _, [] => List.Pairwise.nil
  | j, .loop _ _ _ :: cs => by
    rw [Case.points]
    exact Case.distinct_points
  | j, .branch _ _ rest _ :: cs => by
    rw [Case.points]
    refine List.pairwise_append.mpr ⟨Block.distinct_points, Case.distinct_points, ?_⟩
    intro p hp q hq heq
    have hj := Block.suffix_place hp
    obtain ⟨k, hlt, hk⟩ := Case.suffix_place hq
    rw [← heq] at hk
    have := turn_unique hj hk
    cases this
    omega

end

/-- The number of an occurrence is the number of its point. -/
theorem Occurs.number_eq {m : Module} {place : Place} {i : Nat} {b : Block} {bs : List Block}
    (h : Occurs m place i (b :: bs)) : Point.number ⟨m, place, b, bs⟩ = i := by
  have hnodup : (m.points.map (·.place)).Nodup := List.pairwise_map.mpr Block.distinct_points
  have hget : (m.points.map (·.place))[i]? = some place := by
    rw [List.getElem?_map, h.getElem?_points]
    rfl
  obtain ⟨hlt, hi⟩ := List.getElem?_eq_some_iff.mp hget
  show (m.points.map (·.place)).idxOf place = i
  rw [← hi]
  exact hnodup.idxOf_getElem i hlt

def Point.state (p : Point) (i : Nat) : State :=
  match p.block with
  | .basic b => .constant (b.transition (Block.entry p.module.name.value (i + 1) p.rest))
  | .switch cases _ =>
    .variable (.ofList (Case.entries p.module.name.value (.ofIndex p.module.name.value i) (i + 1)
      cases))

def pointStates (ps : List Point) (i : Nat) : List State :=
  (ps.zipIdx i).map fun (p, j) => p.state j

theorem pointStates_cons (p : Point) (ps : List Point) (i : Nat) :
    pointStates (p :: ps) i = p.state i :: pointStates ps (i + 1) := rfl

theorem pointStates_append (ps qs : List Point) (i : Nat) :
    pointStates (ps ++ qs) i = pointStates ps i ++ pointStates qs (i + ps.length) := by
  rw [pointStates, List.zipIdx_append, List.map_append]
  rfl

mutual

theorem Block.lowerAll_eq {m : Module} :
    ∀ {place : Place} {i : Nat} {bs : List Block},
      Block.lowerAll m.name.value i bs = pointStates (Block.points m place bs) i
  | _, _, [] => rfl
  | place, i, b :: bs => by
    have hsize := Block.length_innerPoints m place b
    rw [Block.lowerAll, Block.points, ← List.cons_append, pointStates_append, List.length_cons,
      hsize, Block.lower_eq, Block.lowerAll_eq]

theorem Block.lower_eq {m : Module} {place : Place} {i : Nat} {bs : List Block} :
    ∀ {b : Block}, b.lower m.name.value i (Block.entry m.name.value (i + b.size) bs) =
      pointStates (⟨m, place, b, bs⟩ :: b.innerPoints m place) i
  | .basic _ => rfl
  | .switch _ _ => by
    rw [Block.lower, Block.innerPoints, pointStates_cons, Case.lowerAll_eq]
    rfl

theorem Case.lowerAll_eq {m : Module} {place : Place} :
    ∀ {i j : Nat} {cs : List Case},
      Case.lowerAll m.name.value i cs = pointStates (Case.points m place j cs) i
  | _, _, [] => rfl
  | i, j, .loop _ _ _ :: cs => by rw [Case.lowerAll, Case.points, Case.lowerAll_eq]
  | i, j, .branch _ _ rest _ :: cs => by
    have hlength := Block.length_points m (.into j :: place) rest
    rw [Case.lowerAll, Case.points, pointStates_append, hlength, Block.lowerAll_eq,
      Case.lowerAll_eq]

end

theorem getElem?_pointStates (ps : List Point) (i j : Nat) :
    (pointStates ps i)[j]? = ps[j]?.map (·.state (i + j)) := by
  rw [pointStates, List.getElem?_map, List.getElem?_zipIdx, Option.map_map]
  rfl

/-- The states of a module are those of its points, labelled with their numbers. -/
theorem Module.mem_states {m : Module} {label : Label} {state : State} :
    (label, state) ∈ m.states ↔ ∃ i p, m.points[i]? = some p ∧
      label = .ofIndex m.name.value i ∧ state = p.state i := by
  have hlower : Block.lowerAll m.name.value 0 m.blocks = pointStates m.points 0 :=
    Block.lowerAll_eq
  rw [Module.states, hlower, List.mem_map]
  constructor
  · intro h
    obtain ⟨⟨state', i⟩, hmem, heq⟩ := h
    obtain ⟨rfl, rfl⟩ := Prod.mk.inj heq
    have hget := List.mem_zipIdx_iff_getElem?.mp hmem
    rw [getElem?_pointStates, Nat.zero_add] at hget
    obtain ⟨p, hp, hstate⟩ := Option.map_eq_some_iff.mp hget
    exact ⟨i, p, hp, rfl, hstate.symm⟩
  · intro h
    obtain ⟨i, p, hp, rfl, rfl⟩ := h
    refine ⟨(p.state i, i), List.mem_zipIdx_iff_getElem?.mpr ?_, rfl⟩
    rw [getElem?_pointStates, hp, Nat.zero_add]
    rfl

end TapeLang
