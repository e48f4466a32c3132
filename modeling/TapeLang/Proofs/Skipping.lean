import TapeLang.Proofs.Calls
import TapeLang.Proofs.Labelling
import TapeLang.Proofs.Lockstep
import TapeLang.Proofs.Longest
import TapeLang.Proofs.Validity

/-!
Blocks that control never comes to.

Control leaves a switch through one of its cases, and a block with a flow command by that command.
Whatever stands next in such a sequence is passed by (`Program.Skips`).  To see that no transition
leads there, transitions are read as control: `Point.Leads` says where control may be after an
action at a point, and every target of a state is the label of such a place
(`Program.Compiled.exists_leads`).  The points of a program that compiles have different labels
(`Program.eq_of_label_eq`), so a transition to the label of a block is one to the block.
-/

namespace TapeLang

def Point.label (q : Point) : Label := .ofIndex q.module.name.value q.number

namespace Program

/-- The points of all modules. -/
def points (p : Program) : List Point := p.modules.flatMap Module.points

theorem mem_points {p : Program} {q : Point} :
    q ∈ p.points ↔
      q.module ∈ p.modules ∧ Occurs q.module q.place q.number (q.block :: q.rest) := by
  rw [points, List.mem_flatMap]
  constructor
  · intro h
    obtain ⟨m, hm, hq⟩ := h
    obtain ⟨i, hi⟩ := List.mem_iff_getElem?.mp hq
    have hocc := Module.occurs_of_getElem? hi
    have heq : q = ⟨m, q.place, q.block, q.rest⟩ :=
      Option.some.inj (hi.symm.trans hocc.getElem?_points)
    have hmodule : q.module = m := congrArg Point.module heq
    have hnumber : q.number = i := by
      rw [heq]
      exact hocc.number_eq
    rw [hmodule, hnumber]
    exact ⟨hm, hocc⟩
  · intro h
    exact ⟨q.module, h.1, List.mem_of_getElem? h.2.getElem?_points⟩

theorem mem_points_of_occurs {p : Program} {m : Module} (hm : m ∈ p.modules) {place : Place}
    {i : Nat} {b : Block} {bs : List Block} (h : Occurs m place i (b :: bs)) :
    ⟨m, place, b, bs⟩ ∈ p.points :=
  List.mem_flatMap.mpr ⟨m, hm, List.mem_of_getElem? h.getElem?_points⟩

theorem getElem?_number {p : Program} {q : Point} (hq : q ∈ p.points) :
    q.module.points[q.number]? = some q :=
  (mem_points.mp hq).2.getElem?_points

theorem eq_of_number_eq {p : Program} {q r : Point} (hq : q ∈ p.points) (hr : r ∈ p.points)
    (hmodule : q.module = r.module) (hnumber : q.number = r.number) : q = r := by
  have hget := getElem?_number hq
  rw [hmodule, hnumber, getElem?_number hr] at hget
  exact (Option.some.inj hget).symm

/-- A module has one point at a place. -/
theorem eq_of_place_eq {p : Program} {q r : Point} (hq : q ∈ p.points) (hr : r ∈ p.points)
    (hmodule : q.module = r.module) (hplace : q.place = r.place) : q = r := by
  refine eq_of_number_eq hq hr hmodule ?_
  rw [Point.number, Point.number, hmodule, hplace]

/-- The points of a program that compiles have different labels. -/
theorem eq_of_label_eq {p : Program} {a : Automaton} (ha : p.compile = .ok a) {q r : Point}
    (hq : q ∈ p.points) (hr : r ∈ p.points) (h : q.label = r.label) : q = r := by
  have hmem : ∀ {x : Point}, x ∈ p.points → x.label ∈ x.module.labels := by
    intro x hx
    refine Module.mem_labels.mpr ⟨x.number, ?_, rfl⟩
    rw [← Module.length_points]
    exact (List.getElem?_eq_some_iff.mp (getElem?_number hx)).1
  have hmodule : q.module = r.module := by
    by_contra hne
    have hsymm : Std.Symm Module.Apart := ⟨fun _ _ happart => happart.symm⟩
    have happart := (not_collides_iff.mp (exists_compile_iff.mp ⟨a, ha⟩).2.2).forall
      (mem_points.mp hq).1 (mem_points.mp hr).1 hne
    exact happart q.label (hmem hq) (h ▸ hmem hr)
  refine eq_of_number_eq hq hr hmodule ?_
  rw [Point.label, Point.label, hmodule] at h
  exact Label.ofIndex_inj.mp h

theorem Compiled.get?_label {p : Program} {a : Automaton} (hc : p.Compiled a) {q : Point}
    (hq : q ∈ p.points) : a.states.get? q.label = some (q.state q.number) :=
  hc.get?_of_occurs (mem_points.mp hq).1 (mem_points.mp hq).2

theorem Compiled.exists_point {p : Program} {a : Automaton} (hc : p.Compiled a) {label : Label}
    {state : State} (h : a.states.get? label = some state) :
    ∃ q ∈ p.points, label = q.label ∧ state = q.state q.number := by
  obtain ⟨m, hm, place, i, b, bs, hocc, hlabel, hstate⟩ := hc.exists_occurs h
  refine ⟨⟨m, place, b, bs⟩, mem_points_of_occurs hm hocc, ?_, ?_⟩
  · rw [Point.label, hocc.number_eq]
    exact hlabel
  · rw [hocc.number_eq]
    exact hstate

end Program

/-- A label that belongs to a point belongs to control at that point and to nothing else. -/
theorem ControlAt.eq_here {p : Program} {a : Automaton} (ha : p.compile = .ok a) {b : Point}
    (hb : b ∈ p.points) {c : Control} (h : ControlAt p c b.label) : c = .here b := by
  have hlabel := h.label_eq
  generalize hl : b.label = label at h
  cases h with
  | here hm hocc =>
    have heq : b.label = Point.label ⟨_, _, _, _⟩ := hlabel
    rw [Program.eq_of_label_eq ha hb (Program.mem_points_of_occurs hm hocc) heq]
  | accept => exact absurd hlabel (Label.ofIndex_ne_accept _ _)
  | reject => exact absurd hlabel (Label.ofIndex_ne_reject _ _)

/-- Control may go on by this turn: the block, or the first action of the case, does not say
otherwise. -/
inductive Point.Open (q : Point) : Turn → Prop
  | past {block} (hblock : q.block = .basic block) (hflow : block.flow = none) : q.Open .past
  | into {cases span k symbols first rest cspan} (hblock : q.block = .switch cases span)
    (hk : cases[k]? = some (.branch symbols first rest cspan)) (hflow : first.flow = none) :
    q.Open (.into k)

/-- Where control may be after an action at a point: at the start of a module, at the point
again, one turn further, or at an end. -/
inductive Point.Leads (p : Program) (q : Point) : Control → Prop
  | entry {m} (hm : m ∈ p.modules) : q.Leads p m.entry
  | again : q.Leads p (.here q)
  | turn {turn bs} (h : q.Open turn) : q.Leads p (.enter q.module (turn :: q.place) bs)
  | accept : q.Leads p .accept
  | reject : q.Leads p .reject

theorem Point.Leads.of_follow {p : Program} {q : Point} {next c : Control} {flow : Option Flow}
    (hnext : flow = none → q.Leads p next) (h : p.follow next flow = .ok c) : q.Leads p c := by
  match flow, h with
  | none, h =>
    cases h
    exact hnext rfl
  | some .accept, h =>
    cases h
    exact .accept
  | some .reject, h =>
    cases h
    exact .reject
  | some (.goto name), h =>
    rw [Program.follow] at h
    cases hfind : p.modules.find? (·.name.value = name.value) with
    | none =>
      rw [hfind] at h
      cases h
    | some m =>
      rw [hfind] at h
      cases h
      exact .entry (List.mem_of_find?_eq_some hfind)

/-- The targets of the state of a point are the labels of where control may go from it. -/
theorem Program.Compiled.exists_leads {p : Program} {a : Automaton} (hc : p.Compiled a)
    (hne : ∀ m ∈ p.modules, m.blocks ≠ []) {q : Point} (hq : q ∈ p.points) {t : Transition}
    (ht : t ∈ (q.state q.number).transitions) : ∃ c, q.Leads p c ∧ ControlAt p c t.next := by
  obtain ⟨hm, hocc⟩ := mem_points.mp hq
  have hproblems := hc.blockProblems_of_occurs hm hocc
  obtain ⟨s, hs⟩ := State.mem_transitions.mp ht
  rw [Point.on_state hproblems, Point.transition?] at hs
  cases hblock : q.block with
  | basic block =>
    rw [hblock] at hs hocc hproblems
    cases hs
    rw [Scope.blockProblems] at hproblems
    obtain ⟨c, hfollow, hcontrol⟩ := exists_follow hne hproblems (.enter hm hocc.past)
    exact ⟨c, .of_follow (fun hflow => .turn (.past hblock hflow)) hfollow, hcontrol⟩
  | switch cases span =>
    rw [hblock] at hs hocc hproblems
    rw [Scope.blockProblems] at hproblems
    obtain ⟨⟨k, chosen⟩, hchoose, rfl⟩ := Option.map_eq_some_iff.mp hs
    have hk := (Case.choose_eq_some hchoose).1
    have hcase :=
      ((Scope.casesProblems_eq_nil.mp hproblems).1 chosen (List.mem_of_getElem? hk)).2
    cases chosen with
    | loop symbols body cspan =>
      refine ⟨.here q, .again, ?_⟩
      have hhere : ControlAt p (.here ⟨q.module, q.place, .switch cases span, q.rest⟩) q.label :=
        .here hm hocc
      rwa [← hblock] at hhere
    | branch symbols first rest cspan =>
      rw [Scope.bodyProblems, List.append_eq_nil_iff] at hcase
      obtain ⟨c, hfollow, hcontrol⟩ := exists_follow hne hcase.1 (.enter hm (hocc.into hk))
      exact ⟨c, .of_follow (fun hflow => .turn (.into hblock hk hflow)) hfollow, hcontrol⟩

/-! ## Blocks that are passed by -/

theorem Control.enter_eq_here {m : Module} {place : Place} {bs : List Block} {b : Point}
    (h : Control.enter m place bs = .here b) : b.module = m ∧ b.place = place := by
  cases bs with
  | nil => cases h
  | cons =>
    cases h
    exact ⟨rfl, rfl⟩

def Control.point? : Control → Option Point
  | .here b => some b
  | .accept => none
  | .reject => none

theorem Control.point?_eq_some {c : Control} {b : Point} : c.point? = some b ↔ c = .here b := by
  cases c <;> simp [Control.point?]

namespace Program

/-- The block at this point follows a switch, or follows a basic block that says where to go on,
or comes first after the first action of a branch that says so. -/
inductive Skips (p : Program) : Point → Prop
  | afterSwitch {q cases span b} (hq : q ∈ p.points) (hblock : q.block = .switch cases span)
    (hb : q.next = .here b) : p.Skips b
  | afterFlow {q block flow b} (hq : q ∈ p.points) (hblock : q.block = .basic block)
    (hflow : block.flow = some flow) (hb : q.next = .here b) : p.Skips b
  | insideFlow {q cases span k symbols first rest cspan flow b} (hq : q ∈ p.points)
    (hblock : q.block = .switch cases span)
    (hk : cases[k]? = some (.branch symbols first rest cspan)) (hflow : first.flow = some flow)
    (hb : q.inside k rest = .here b) : p.Skips b

variable {p : Program} {b : Point}

/-- A block that is passed by stands one turn after a point that does not leave this turn open. -/
theorem Skips.exists_turn (h : p.Skips b) : ∃ q ∈ p.points, ∃ turn, ¬ q.Open turn ∧
    b.module = q.module ∧ b.place = turn :: q.place := by
  cases h with
  | @afterSwitch q _ _ _ hq hblock hb =>
    refine ⟨q, hq, .past, fun hopen => ?_, Control.enter_eq_here hb⟩
    cases hopen with
    | past hblock' _ => cases hblock.symm.trans hblock'
  | @afterFlow q _ _ _ hq hblock hflow hb =>
    refine ⟨q, hq, .past, fun hopen => ?_, Control.enter_eq_here hb⟩
    cases hopen with
    | past hblock' hflow' =>
      cases hblock.symm.trans hblock'
      cases hflow.symm.trans hflow'
  | @insideFlow q _ _ k _ _ _ _ _ _ hq hblock hk hflow hb =>
    refine ⟨q, hq, .into k, fun hopen => ?_, Control.enter_eq_here hb⟩
    cases hopen with
    | into hblock' hk' hflow' =>
      cases hblock.symm.trans hblock'
      cases hk.symm.trans hk'
      cases hflow.symm.trans hflow'

theorem Skips.entry_ne (h : p.Skips b) (m : Module) : m.entry ≠ .here b := by
  intro hentry
  obtain ⟨q, -, turn, -, -, hplace⟩ := h.exists_turn
  rw [(Control.enter_eq_here hentry).2] at hplace
  cases hplace

/-- Control comes to a block that is passed by from nowhere but the block itself. -/
theorem Skips.eq_of_leads (h : p.Skips b) {q : Point} (hq : q ∈ p.points)
    (hleads : q.Leads p (.here b)) : q = b := by
  generalize hc : Control.here b = c at hleads
  cases hleads with
  | entry _ => exact absurd hc.symm (h.entry_ne _)
  | again => exact (Control.here.inj hc).symm
  | @turn turn bs hopen =>
    -- a point before `b` is the only one, and it does not leave the turn to `b` open
    obtain ⟨r, hr, turn', hclosed, hmodule, hplace⟩ := h.exists_turn
    obtain ⟨hmodule', hplace'⟩ := Control.enter_eq_here hc.symm
    obtain ⟨rfl, hsame⟩ := List.cons.inj (hplace.symm.trans hplace')
    obtain rfl := eq_of_place_eq hr hq (hmodule.symm.trans hmodule') hsame
    exact absurd hopen hclosed
  | accept => cases hc
  | reject => cases hc

theorem mem_points_of_enter {m : Module} (hm : m ∈ p.modules) {place : Place} {i : Nat}
    {bs : List Block} (hocc : Occurs m place i bs) (hb : Control.enter m place bs = .here b) :
    b ∈ p.points := by
  cases bs with
  | nil => cases hb
  | cons =>
    cases hb
    exact mem_points_of_occurs hm hocc

theorem Skips.mem_points (h : p.Skips b) : b ∈ p.points := by
  cases h with
  | afterSwitch hq _ hb =>
    obtain ⟨hm, hocc⟩ := Program.mem_points.mp hq
    exact mem_points_of_enter hm hocc.past hb
  | afterFlow hq _ _ hb =>
    obtain ⟨hm, hocc⟩ := Program.mem_points.mp hq
    exact mem_points_of_enter hm hocc.past hb
  | insideFlow hq hblock hk _ hb =>
    obtain ⟨hm, hocc⟩ := Program.mem_points.mp hq
    rw [hblock] at hocc
    exact mem_points_of_enter hm (hocc.into hk) hb

def skippedAt (q : Point) : List Point :=
  match q.block with
  | .basic block => if block.flow.isSome then q.next.point?.toList else []
  | .switch cases _ => q.next.point?.toList ++ cases.zipIdx.flatMap fun
    | (.branch _ first rest _, k) =>
      if first.flow.isSome then (q.inside k rest).point?.toList else []
    | (.loop _ _ _, _) => []

def skipped (p : Program) : List Point := p.points.flatMap skippedAt

theorem mem_skipped : b ∈ p.skipped ↔ p.Skips b := by
  have hpoint : ∀ {c : Control}, b ∈ c.point?.toList ↔ c = .here b := by
    intro c
    rw [Option.mem_toList, Control.point?_eq_some]
  rw [skipped, List.mem_flatMap]
  constructor
  · intro h
    obtain ⟨q, hq, hb⟩ := h
    rw [skippedAt] at hb
    cases hblock : q.block with
    | basic block =>
      rw [hblock] at hb
      cases hflow : block.flow with
      | none => simp [hflow] at hb
      | some flow => exact .afterFlow hq hblock hflow (hpoint.mp (by simpa [hflow] using hb))
    | switch cases span =>
      rw [hblock] at hb
      rcases List.mem_append.mp hb with hb | hb
      · exact .afterSwitch hq hblock (hpoint.mp hb)
      · obtain ⟨⟨c, k⟩, hmem, hb⟩ := List.mem_flatMap.mp hb
        have hk := List.mem_zipIdx_iff_getElem?.mp hmem
        cases c with
        | loop symbols body cspan => cases hb
        | branch symbols first rest cspan =>
          cases hflow : first.flow with
          | none => simp [hflow] at hb
          | some flow =>
            exact .insideFlow hq hblock hk hflow (hpoint.mp (by simpa [hflow] using hb))
  · intro h
    cases h with
    | @afterSwitch q _ _ _ hq hblock hb =>
      refine ⟨q, hq, ?_⟩
      rw [skippedAt, hblock]
      exact List.mem_append_left _ (hpoint.mpr hb)
    | @afterFlow q _ _ _ hq hblock hflow hb =>
      refine ⟨q, hq, ?_⟩
      simp only [skippedAt, hblock, hflow, Option.isSome_some, if_true]
      exact hpoint.mpr hb
    | @insideFlow q _ _ k _ _ _ _ _ _ hq hblock hk hflow hb =>
      refine ⟨q, hq, ?_⟩
      rw [skippedAt, hblock]
      refine List.mem_append_right _ (List.mem_flatMap.mpr
        ⟨(_, k), List.mem_zipIdx_iff_getElem?.mpr hk, ?_⟩)
      simp only [hflow, Option.isSome_some, if_true]
      exact hpoint.mpr hb

/-! ## No way there -/

variable {a : Automaton}

/-- Only the state of the block itself has a transition to the label of a block that is passed
by. -/
theorem Skips.eq_label (h : p.Skips b) (hwf : p.WellFormed) (ha : p.compile = .ok a)
    {label : Label} {state : State} {t : Transition} (hget : a.states.get? label = some state)
    (ht : t ∈ state.transitions) (hnext : t.next = b.label) : label = b.label := by
  have hc := compiled_of_compile ha
  obtain ⟨q, hq, hlabel, hstate⟩ := hc.exists_point hget
  rw [hstate] at ht
  obtain ⟨c, hleads, hcontrol⟩ :=
    hc.exists_leads (fun m hm => (hwf.modules m hm).ne_nil) hq ht
  rw [hnext] at hcontrol
  rw [hcontrol.eq_here ha h.mem_points] at hleads
  rw [hlabel, h.eq_of_leads hq hleads]

theorem Skips.initial_ne (h : p.Skips b) (hwf : p.WellFormed) (ha : p.compile = .ok a) :
    a.initial ≠ b.label := by
  intro hinitial
  obtain ⟨first, more, hmodules, heq⟩ := (compiled_of_compile ha).initial
  have hm : first ∈ p.modules := hmodules ▸ List.mem_cons_self ..
  have hentry := ControlAt.entry hm (hwf.modules first hm).ne_nil
  rw [← heq, hinitial] at hentry
  exact h.entry_ne first (hentry.eq_here ha h.mem_points)

theorem Skips.label_ne_of_step (h : p.Skips b) (hwf : p.WellFormed) (ha : p.compile = .ok a)
    {m m' : Machine} (hm : m.automaton = a) (hlabel : m.label ≠ b.label)
    (hstep : m.step = .ok m') : m'.label ≠ b.label := by
  obtain ⟨state, t, hget, ht, rfl⟩ := Machine.exists_take_of_ok hstep
  intro hnext
  rw [hm] at hget
  exact hlabel (h.eq_label hwf ha hget (State.mem_transitions.mpr ⟨_, ht⟩) hnext)

theorem Skips.label_ne_of_reaches (h : p.Skips b) (hwf : p.WellFormed) (ha : p.compile = .ok a)
    {m : Machine} (hm : a.Reaches m) : m.label ≠ b.label :=
  (hm.keeps (fun _ => h.initial_ne hwf ha)
    (fun hauto hlabel hstep => h.label_ne_of_step hwf ha hauto hlabel hstep)).property

/-- The block after a switch is not the switch and does not stand inside it. -/
theorem ne_of_mem_switch {q r : Point} (hb : q.next = .here b)
    (hr : r ∈ q :: q.block.innerPoints q.module q.place) : r ≠ b := by
  rintro rfl
  have hplace := (Control.enter_eq_here hb).2
  rcases List.mem_cons.mp hr with rfl | hinner
  · exact absurd (congrArg List.length hplace) (Nat.ne_of_lt (Nat.lt_succ_self _))
  · obtain ⟨k, hk⟩ := Block.suffix_place_inner hinner
    rw [hplace] at hk
    have hturn := turn_unique hk List.suffix_rfl
    cases hturn

theorem mem_points_of_mem_switch {q r : Point} (hq : q ∈ p.points)
    (hr : r ∈ q :: q.block.innerPoints q.module q.place) : r ∈ p.points := by
  rcases List.mem_cons.mp hr with rfl | hinner
  · exact hq
  · obtain ⟨hm, hocc⟩ := mem_points.mp hq
    have hprefix := hocc.points_prefix_drop
    rw [Block.points] at hprefix
    have hpoints : r ∈ q.module.points.drop q.number :=
      hprefix.subset (List.mem_cons_of_mem _ (List.mem_append_left _ hinner))
    exact List.mem_flatMap.mpr ⟨q.module, hm, List.mem_of_mem_drop hpoints⟩

/-- A block after a switch, after a block that says where to go on, or first after the first
action of a branch that says so has a state, but no other state leads there, a run does not
start there, and no machine comes there, whatever is done with it.  So no block inside a switch,
and no first action of its cases, goes on with the block after the switch. -/
theorem never_enters_skipped {text : String} {a : Automaton} (h : compileText text = .ok a) :
    ∃ p, parse text = .ok p ∧
      (∀ b, p.Skips b →
        (∃ state, a.states.get? b.label = some state ∧ b.block.Becomes state) ∧
        (∀ label state, a.states.get? label = some state → label ≠ b.label →
          ∀ t ∈ state.transitions, t.next ≠ b.label) ∧
        a.initial ≠ b.label ∧
        ∀ m, a.Reaches m → ∀ n, (m.after n).label ≠ b.label) ∧
      ∀ q ∈ p.points, ∀ cases span b, q.block = .switch cases span → q.next = .here b →
        ∀ r ∈ q :: q.block.innerPoints q.module q.place,
          ∃ state, a.states.get? r.label = some state ∧
            ∀ t ∈ state.transitions, t.next ≠ b.label := by
  obtain ⟨p, hp, ha⟩ := compileText_eq_ok h
  have hwf := wellFormed_of_parse hp
  have hc := compiled_of_compile ha
  refine ⟨p, hp, fun b hb => ⟨?_, ?_, hb.initial_ne hwf ha, ?_⟩, ?_⟩
  · obtain ⟨hm, hocc⟩ := mem_points.mp hb.mem_points
    exact ⟨_, hc.get?_label hb.mem_points, Point.becomes (hc.blockProblems_of_occurs hm hocc) _⟩
  · intro label state hget hne t ht hnext
    exact hne (hb.eq_label hwf ha hget ht hnext)
  · intro m hm n
    have hafter : a.Reaches (m.after n) := by
      rw [← Machine.run_machine]
      exact hm.perform (.run n)
    exact hb.label_ne_of_reaches hwf ha hafter
  · intro q hq cases span b hblock hb r hr
    have hskips : p.Skips b := .afterSwitch hq hblock hb
    have hr' := mem_points_of_mem_switch hq hr
    refine ⟨_, hc.get?_label hr', fun t ht hnext => ?_⟩
    have hlabel := hskips.eq_label hwf ha (hc.get?_label hr') ht hnext
    exact ne_of_mem_switch hb hr (eq_of_label_eq ha hr' hskips.mem_points hlabel)

def detourText : String :=
  "alphabet = \x7b a \x7d module m \x7b if a \x7b accept move right \x7d " ++
    "while blank \x7b move left \x7d changeto a goto m reject \x7d"

theorem never_enters_skipped_detourText : ∃ p a, parse detourText = .ok p ∧
    compileText detourText = .ok a ∧ p.skipped.map Point.label = ["m2", "m1", "m3"] ∧
    ∀ b ∈ p.skipped, a.states.contains b.label ∧ a.initial ≠ b.label ∧
      ∀ m, a.Reaches m → ∀ n, (m.after n).label ≠ b.label := by
  have heval : ((parse detourText).toOption.bind fun p =>
      p.compile.toOption.map fun _ => p.skipped.map Point.label) = some ["m2", "m1", "m3"] := by
    decide +kernel
  obtain ⟨p, hparse, hcompile⟩ := Option.bind_eq_some_iff.mp heval
  obtain ⟨a, ha, hlabels⟩ := Option.map_eq_some_iff.mp hcompile
  have hp := eq_ok_of_toOption hparse
  have htext : compileText detourText = .ok a := by
    rw [compileText, hp]
    exact eq_ok_of_toOption ha
  obtain ⟨q, hq, hskips, -⟩ := never_enters_skipped htext
  obtain rfl := Except.ok.inj (hq.symm.trans hp)
  refine ⟨q, a, hq, htext, hlabels, fun b hb => ?_⟩
  obtain ⟨⟨state, hget, -⟩, -, hinitial, hruns⟩ := hskips b (mem_skipped.mp hb)
  exact ⟨Table.contains_iff.mpr ⟨state, hget⟩, hinitial, hruns⟩

end Program

end TapeLang
