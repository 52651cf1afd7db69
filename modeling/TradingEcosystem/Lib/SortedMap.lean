import Mathlib.Data.List.Pairwise
import Mathlib.Order.Lattice
import Mathlib.Data.Nat.Basic
import Mathlib.Order.Nat

/-!
# Maps Kept in the Order of their Keys

A map as the list of its entries, by strictly ascending key: what an iteration over an ordered
map visits.  Writing a key that is there replaces its value.

- `SortedMap.mem_insert` : the entries after a write
- `SortedMap.insert_of_forall_lt` : a key beyond the last one goes to the end
- `SortedMap.enum` : the map of a list with its positions as keys
-/

namespace Lib

universe u v

/-- The entries of a map, strictly ascending by key. -/
@[ext] structure SortedMap (κ : Type u) (α : Type v) [LinearOrder κ] where
  entries : List (κ × α)
  ascending : entries.Pairwise fun p q => p.1 < q.1
  deriving DecidableEq

namespace SortedMap

variable {κ : Type u} {α : Type v} [LinearOrder κ] {k : κ} {v : α} {p : κ × α}
  {l : List (κ × α)} {m : SortedMap κ α}

/-! ## Writing an entry -/

/-- Write an entry into a list that is sorted by key. -/
def insertEntry (k : κ) (v : α) : List (κ × α) → List (κ × α)
  | [] => [(k, v)]
  | p :: l =>
    if k < p.1 then
      (k, v) :: p :: l
    else if p.1 < k then
      p :: insertEntry k v l
    else
      (k, v) :: l

/-- The new entry, and the old ones with another key. -/
theorem mem_insertEntry (hl : l.Pairwise fun p q => p.1 < q.1) :
    p ∈ insertEntry k v l ↔ p = (k, v) ∨ p ∈ l ∧ p.1 ≠ k := by
  induction l with
  | nil => simp [insertEntry]
  | cons q l ih =>
    obtain ⟨hq, hl⟩ := List.pairwise_cons.mp hl
    rw [insertEntry]
    split
    · next hlt =>
      -- all the old keys are greater
      have hne : ∀ r ∈ q :: l, r.1 ≠ k := by
        intro r hr
        rcases List.mem_cons.mp hr with rfl | hr
        · exact hlt.ne'
        · exact (hlt.trans (hq r hr)).ne'
      rw [List.mem_cons]
      exact or_congr_right ⟨fun h => ⟨h, hne p h⟩, fun h => h.1⟩
    · split
      · next hlt =>
        rw [List.mem_cons, ih hl, List.mem_cons]
        constructor
        · rintro (rfl | rfl | h)
          · exact .inr ⟨.inl rfl, hlt.ne⟩
          · exact .inl rfl
          · exact .inr ⟨.inr h.1, h.2⟩
        · rintro (rfl | ⟨rfl | h, hne⟩)
          · exact .inr (.inl rfl)
          · exact .inl rfl
          · exact .inr (.inr ⟨h, hne⟩)
      · next hnlt hngt =>
        have hk : q.1 = k := le_antisymm (not_lt.mp hnlt) (not_lt.mp hngt)
        have hne : ∀ r ∈ l, r.1 ≠ k := by
          intro r hr
          rw [← hk]
          exact (hq r hr).ne'
        rw [List.mem_cons, List.mem_cons]
        constructor
        · rintro (rfl | h)
          · exact .inl rfl
          · exact .inr ⟨.inr h, hne p h⟩
        · rintro (rfl | ⟨rfl | h, hp⟩)
          · exact .inl rfl
          · exact absurd hk hp
          · exact .inr h

theorem ascending_insertEntry (hl : l.Pairwise fun p q => p.1 < q.1) :
    (insertEntry k v l).Pairwise fun p q => p.1 < q.1 := by
  induction l with
  | nil => exact List.pairwise_singleton ..
  | cons q l ih =>
    obtain ⟨hq, htail⟩ := List.pairwise_cons.mp hl
    rw [insertEntry]
    split
    · next hlt =>
      refine List.pairwise_cons.mpr ⟨?_, hl⟩
      intro r hr
      rcases List.mem_cons.mp hr with rfl | hr
      · exact hlt
      · exact hlt.trans (hq r hr)
    · split
      · next hlt =>
        refine List.pairwise_cons.mpr ⟨?_, ih htail⟩
        intro r hr
        rcases (mem_insertEntry htail).mp hr with rfl | ⟨hr, -⟩
        · exact hlt
        · exact hq r hr
      · next hnlt hngt =>
        refine List.pairwise_cons.mpr ⟨?_, htail⟩
        intro r hr
        exact lt_of_le_of_lt (not_lt.mp hngt) (hq r hr)

/-- A key beyond all the others goes to the end. -/
theorem insertEntry_of_forall_lt (h : ∀ p ∈ l, p.1 < k) :
    insertEntry k v l = l ++ [(k, v)] := by
  induction l with
  | nil => rfl
  | cons q l ih =>
    obtain ⟨hq, hl⟩ := List.forall_mem_cons.mp h
    rw [insertEntry, if_neg hq.not_gt, if_pos hq, ih hl, List.cons_append]

/-! ## The operations of a map -/

def empty : SortedMap κ α := ⟨[], List.Pairwise.nil⟩

def insert (m : SortedMap κ α) (k : κ) (v : α) : SortedMap κ α :=
  ⟨insertEntry k v m.entries, ascending_insertEntry m.ascending⟩

def contains (m : SortedMap κ α) (k : κ) : Bool :=
  m.entries.any fun p => decide (p.1 = k)

theorem mem_insert : p ∈ (m.insert k v).entries ↔ p = (k, v) ∨ p ∈ m.entries ∧ p.1 ≠ k :=
  mem_insertEntry m.ascending

theorem insert_of_forall_lt (h : ∀ p ∈ m.entries, p.1 < k) :
    (m.insert k v).entries = m.entries ++ [(k, v)] :=
  insertEntry_of_forall_lt h

theorem contains_iff : m.contains k = true ↔ ∃ p ∈ m.entries, p.1 = k := by
  simp [contains]

/-! ## The positions of a list as keys -/

theorem keys_zipIdx (vs : List α) (first : ℕ) :
    ((vs.zipIdx first).map Prod.swap).map Prod.fst = List.range' first vs.length := by
  rw [List.map_map]
  exact List.zipIdx_map_snd ..

/-- Each value under its position, counted from 0. -/
def enum (vs : List α) : SortedMap ℕ α :=
  ⟨vs.zipIdx.map Prod.swap, List.pairwise_map.mp (keys_zipIdx vs 0 ▸ List.pairwise_lt_range')⟩

variable {vs : List α} {n : ℕ}

theorem keys_enum : (enum vs).entries.map Prod.fst = List.range' 0 vs.length := keys_zipIdx vs 0

@[simp] theorem length_enum : (enum vs).entries.length = vs.length := by
  simp [enum]

theorem contains_enum : (enum vs).contains n = true ↔ n < vs.length := by
  have hkeys : (enum vs).contains n = true ↔ n ∈ (enum vs).entries.map Prod.fst := by
    simp [contains_iff]
  rw [hkeys, keys_enum]
  simp

theorem lt_of_mem_enum {q : ℕ × α} (hq : q ∈ (enum vs).entries) : q.1 < vs.length :=
  contains_enum.mp (contains_iff.mpr ⟨q, hq, rfl⟩)

/-- Writing the next position appends. -/
theorem insert_enum (vs : List α) (v : α) : (enum vs).insert vs.length v = enum (vs ++ [v]) := by
  apply SortedMap.ext
  rw [insert_of_forall_lt fun q hq => lt_of_mem_enum hq]
  simp [enum, List.zipIdx_append]

end SortedMap

end Lib
