/-!
Finite tables kept in the order of their keys.

Two tables that answer every look-up alike are equal (`Table.ext`), because the entries stand
in strictly increasing order of their keys.  `get?_insert` says what inserting does to a
look-up.
-/

namespace TapeLang

/-- The order laws a key type has to satisfy: any two different keys stand in one order. -/
class KeyOrder (κ : Type) [LT κ] : Prop where
  irrefl (a : κ) : ¬ a < a
  trans {a b c : κ} : a < b → b < c → a < c
  connected {a b : κ} : ¬ a < b → ¬ b < a → a = b

namespace KeyOrder

variable {κ : Type} [LT κ] [KeyOrder κ]

theorem ne_of_lt {a b : κ} (h : a < b) : a ≠ b := fun e => irrefl b (e ▸ h)

theorem not_lt_of_lt {a b : κ} (h : a < b) : ¬ b < a := fun h' => irrefl a (trans h h')

end KeyOrder

/-- Texts stand in the order of their code points, which is the order of their encoded bytes. -/
instance : KeyOrder String where
  irrefl := String.lt_irrefl
  trans := String.lt_trans
  connected h h' := String.le_antisymm (String.not_lt.mp h') (String.not_lt.mp h)

/-- A finite map from `κ` to `ν`, as its entries in increasing order of their keys. -/
structure Table (κ ν : Type) [LT κ] where
  entries : List (κ × ν)
  sorted : entries.Pairwise (fun a b => a.1 < b.1)
deriving DecidableEq

namespace Table

variable {κ ν : Type} [LT κ]

def find? [DecidableEq κ] (k : κ) : List (κ × ν) → Option ν
  | [] => none
  | (a, v) :: rest => if a = k then some v else find? k rest

/-- Replace the entry of `k`, or place it before the first larger key. -/
def place [DecidableLT κ] (k : κ) (v : ν) : List (κ × ν) → List (κ × ν)
  | [] => [(k, v)]
  | (a, w) :: rest =>
    if k < a then (k, v) :: (a, w) :: rest
    else if a < k then (a, w) :: place k v rest
    else (k, v) :: rest

theorem mem_place [DecidableLT κ] {k : κ} {v : ν} {e : κ × ν} {l : List (κ × ν)}
    (h : e ∈ place k v l) : e = (k, v) ∨ e ∈ l := by
  induction l with
  | nil => simpa [place] using h
  | cons x rest ih =>
    obtain ⟨a, w⟩ := x
    simp only [place] at h
    split at h
    · simpa using h
    · split at h
      · rcases List.mem_cons.mp h with h | h
        · exact .inr (h ▸ List.mem_cons_self ..)
        · exact (ih h).imp id (List.mem_cons_of_mem _)
      · rcases List.mem_cons.mp h with h | h
        · exact .inl h
        · exact .inr (List.mem_cons_of_mem _ h)

variable [KeyOrder κ]

theorem place_sorted [DecidableLT κ] (k : κ) (v : ν) {l : List (κ × ν)}
    (h : l.Pairwise (fun a b => a.1 < b.1)) :
    (place k v l).Pairwise (fun a b => a.1 < b.1) := by
  induction l with
  | nil => exact List.pairwise_singleton _ _
  | cons x rest ih =>
    obtain ⟨a, w⟩ := x
    obtain ⟨hd, tl⟩ := List.pairwise_cons.mp h
    simp only [place]
    split
    · next hk =>
      refine List.pairwise_cons.mpr ⟨fun e he => ?_, h⟩
      rcases List.mem_cons.mp he with rfl | he
      · exact hk
      · exact KeyOrder.trans hk (hd e he)
    · next hk =>
      split
      · next hk' =>
        refine List.pairwise_cons.mpr ⟨fun e he => ?_, ih tl⟩
        rcases mem_place he with rfl | he
        · exact hk'
        · exact hd e he
      · next hk' =>
        obtain rfl := KeyOrder.connected hk hk'
        exact List.pairwise_cons.mpr ⟨hd, tl⟩

/-- Two sorted lists with the same members are equal. -/
theorem eq_of_mem_iff {l m : List (κ × ν)} (hl : l.Pairwise (fun a b => a.1 < b.1))
    (hm : m.Pairwise (fun a b => a.1 < b.1)) (h : ∀ e, e ∈ l ↔ e ∈ m) : l = m := by
  induction l generalizing m with
  | nil => exact (List.eq_nil_iff_forall_not_mem.mpr fun e he => nomatch (h e).mpr he).symm
  | cons x l ih =>
    cases m with
    | nil => exact nomatch (h x).mp (List.mem_cons_self ..)
    | cons y m =>
      obtain ⟨hx, hl'⟩ := List.pairwise_cons.mp hl
      obtain ⟨hy, hm'⟩ := List.pairwise_cons.mp hm
      have hxy : x = y := by
        rcases List.mem_cons.mp ((h x).mp (List.mem_cons_self ..)) with h1 | h1
        · exact h1
        rcases List.mem_cons.mp ((h y).mpr (List.mem_cons_self ..)) with h2 | h2
        · exact h2.symm
        exact absurd (hx y h2) (KeyOrder.not_lt_of_lt (hy x h1))
      subst hxy
      congr 1
      refine ih hl' hm' fun e => ⟨fun he => ?_, fun he => ?_⟩
      · rcases List.mem_cons.mp ((h e).mp (List.mem_cons_of_mem _ he)) with h1 | h1
        · exact absurd (hx e he) (h1 ▸ KeyOrder.irrefl _)
        · exact h1
      · rcases List.mem_cons.mp ((h e).mpr (List.mem_cons_of_mem _ he)) with h1 | h1
        · exact absurd (hy e he) (h1 ▸ KeyOrder.irrefl _)
        · exact h1

variable [DecidableEq κ]

theorem find?_place [DecidableLT κ] (k j : κ) (v : ν) (l : List (κ × ν)) :
    find? j (place k v l) = if k = j then some v else find? j l := by
  induction l with
  | nil => simp [place, find?]
  | cons x rest ih =>
    obtain ⟨a, w⟩ := x
    simp only [place]
    split
    · simp only [find?]
    · next hk =>
      split
      · next hk' =>
        have hne := KeyOrder.ne_of_lt hk'
        simp only [find?, ih]
        by_cases ha : a = j
        · have : k ≠ j := fun e => hne (ha.trans e.symm)
          simp [ha, this]
        · simp [ha]
      · next hk' =>
        obtain rfl := KeyOrder.connected hk hk'
        simp only [find?]
        split <;> rfl

/-- In a sorted list the entry of a key is the only one with that key. -/
theorem find?_eq_some_iff {l : List (κ × ν)} (h : l.Pairwise (fun a b => a.1 < b.1))
    {k : κ} {v : ν} : find? k l = some v ↔ (k, v) ∈ l := by
  induction l with
  | nil => simp [find?]
  | cons x rest ih =>
    obtain ⟨a, w⟩ := x
    obtain ⟨hd, tl⟩ := List.pairwise_cons.mp h
    simp only [find?, List.mem_cons, Prod.mk.injEq]
    by_cases ha : a = k
    · subst ha
      have hno : (a, v) ∉ rest := fun hm => KeyOrder.irrefl a (hd _ hm)
      simp [hno, eq_comm]
    · simp [ha, Ne.symm ha, ih tl]

/-! ## Operations -/

def empty : Table κ ν := ⟨[], .nil⟩

def get? (t : Table κ ν) (k : κ) : Option ν := find? k t.entries

def contains (t : Table κ ν) (k : κ) : Bool := (t.get? k).isSome

def keys (t : Table κ ν) : List κ := t.entries.map (·.1)

def values (t : Table κ ν) : List ν := t.entries.map (·.2)

def insert [DecidableLT κ] (t : Table κ ν) (k : κ) (v : ν) : Table κ ν :=
  ⟨place k v t.entries, place_sorted k v t.sorted⟩

/-- The table of a list of entries; of two entries with one key the later one counts. -/
def ofList [DecidableLT κ] (l : List (κ × ν)) : Table κ ν :=
  l.foldl (fun t e => t.insert e.1 e.2) empty

theorem mem_entries_iff {t : Table κ ν} {k : κ} {v : ν} :
    (k, v) ∈ t.entries ↔ t.get? k = some v := (find?_eq_some_iff t.sorted).symm

theorem get?_insert [DecidableLT κ] (t : Table κ ν) (k j : κ) (v : ν) :
    (t.insert k v).get? j = if k = j then some v else t.get? j := find?_place k j v t.entries

/-- A table is determined by its look-ups. -/
theorem ext {s t : Table κ ν} (h : ∀ k, s.get? k = t.get? k) : s = t := by
  have hst : s.entries = t.entries := eq_of_mem_iff s.sorted t.sorted fun e => by
    obtain ⟨k, v⟩ := e
    rw [mem_entries_iff, mem_entries_iff, h k]
  cases s
  cases t
  cases hst
  rfl

end Table

end TapeLang
