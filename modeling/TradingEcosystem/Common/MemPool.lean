import TradingEcosystem.Common.Types
import Mathlib.Data.Finset.Card
import Mathlib.Data.Finset.Range

/-!
# Memory Pool

`common/mem_pool.h`: a vector of blocks, each with an in-use flag, and the index of the block
the next allocation takes.  A pointer to an object is the index of its block.  `deallocate`
clears the flag and leaves the object as it is, so a dangling pointer still reads it.

The specification speaks of the blocks in use (`used`): `allocate` adds the block it returns,
`deallocate` removes it, and no other object changes.
-/

namespace TradingEcosystem

structure ObjectBlock (T : Type) where
  object_ : T
  is_free_ : Bool

/-- `store_` is total; only the indices below `size`, which is `store_.size()`, are blocks. -/
structure MemPool (T : Type) where
  store_ : ℕ → ObjectBlock T
  size : ℕ
  next_free_index_ : ℕ

namespace MemPool

variable {T : Type}

/-! ## Operations -/

/-- `MemPool(num_elems)`: every block free and holding a default object. -/
def new (num_elems : ℕ) (default : T) : MemPool T where
  store_ := fun _ => ⟨default, true⟩
  size := num_elems
  next_free_index_ := 0

/-- The object a pointer into the pool designates. -/
def get (pool : MemPool T) (p : ℕ) : T := (pool.store_ p).object_

/-- Write through a pointer into the pool. -/
def modify (pool : MemPool T) (p : ℕ) (f : T → T) : MemPool T :=
  { pool with
    store_ := fun q =>
      if q = p then ⟨f (pool.get p), (pool.store_ p).is_free_⟩ else pool.store_ q }

def setFree (pool : MemPool T) (p : ℕ) (is_free : Bool) : MemPool T :=
  { pool with
    store_ := fun q => if q = p then ⟨pool.get p, is_free⟩ else pool.store_ q }

/-- The circular search of `updateNextFreeIndex`; `fuel` bounds the loop. -/
def searchFree (pool : MemPool T) (initial_free_index : ℕ) : ℕ → ℕ → Except Fault ℕ
  | 0, _ => .error .diverges
  | fuel + 1, next =>
    if (pool.store_ next).is_free_ then
      .ok next
    else
      let next := if next + 1 = pool.size then 0 else next + 1
      -- a whole round without a free block
      if initial_free_index = next then
        .error .outOfSpace
      else
        searchFree pool initial_free_index fuel next

def updateNextFreeIndex (pool : MemPool T) : Except Fault (MemPool T) := do
  let next ← pool.searchFree pool.next_free_index_ (pool.size + 1) pool.next_free_index_
  .ok { pool with next_free_index_ := next }

def allocate (pool : MemPool T) (object : T) : Except Fault (ℕ × MemPool T) := do
  let p := pool.next_free_index_
  if !(pool.store_ p).is_free_ then
    .error .assert
  else
    let pool ← ((pool.modify p fun _ => object).setFree p false).updateNextFreeIndex
    .ok (p, pool)

def deallocate (pool : MemPool T) (p : ℕ) : Except Fault (MemPool T) :=
  if pool.size ≤ p then
    .error .assert
  else if (pool.store_ p).is_free_ then
    .error .assert
  else
    .ok (pool.setFree p true)

/-! ## Blocks in use -/

/-- The blocks in use. -/
def used (pool : MemPool T) : Finset ℕ :=
  (Finset.range pool.size).filter fun p => (pool.store_ p).is_free_ = false

theorem mem_used {pool : MemPool T} {p : ℕ} :
    p ∈ pool.used ↔ p < pool.size ∧ (pool.store_ p).is_free_ = false := by
  simp [used]

/-- `next_free_index_` designates a free block. -/
def WF (pool : MemPool T) : Prop :=
  pool.next_free_index_ < pool.size ∧ (pool.store_ pool.next_free_index_).is_free_ = true

@[simp] theorem get_modify (pool : MemPool T) (p q : ℕ) (f : T → T) :
    (pool.modify p f).get q = if q = p then f (pool.get p) else pool.get q := by
  by_cases h : q = p
  · simp [modify, get, h]
  · simp [modify, get, h]

@[simp] theorem used_modify (pool : MemPool T) (p : ℕ) (f : T → T) :
    (pool.modify p f).used = pool.used := by
  ext q
  by_cases h : q = p
  · simp [mem_used, modify, h]
  · simp [mem_used, modify, h]

@[simp] theorem size_modify (pool : MemPool T) (p : ℕ) (f : T → T) :
    (pool.modify p f).size = pool.size := rfl

theorem WF.modify {pool : MemPool T} (h : pool.WF) (p : ℕ) (f : T → T) :
    (pool.modify p f).WF := by
  refine ⟨h.1, ?_⟩
  by_cases heq : pool.next_free_index_ = p
  · simpa [MemPool.modify, heq] using h.2
  · simpa [MemPool.modify, heq] using h.2

@[simp] theorem get_setFree (pool : MemPool T) (p q : ℕ) (b : Bool) :
    (pool.setFree p b).get q = pool.get q := by
  by_cases h : q = p
  · simp [setFree, get, h]
  · simp [setFree, get, h]

/-- What pointers designate after an allocation, whatever the pool. -/
theorem get_allocate {pool pool' : MemPool T} {object : T} {p : ℕ}
    (h : pool.allocate object = .ok (p, pool')) (q : ℕ) :
    pool'.get q = if q = p then object else pool.get q := by
  unfold allocate at h
  simp only at h
  split at h
  · cases h
  · obtain ⟨pool₁, hpool₁, heq⟩ := bind_eq_ok.mp h
    cases heq
    obtain ⟨next, -, heq⟩ := bind_eq_ok.mp hpool₁
    cases heq
    show ((pool.modify pool.next_free_index_ fun _ => object).setFree _ false).get q = _
    rw [get_setFree, get_modify]

theorem get_deallocate {pool pool' : MemPool T} {p : ℕ} (h : pool.deallocate p = .ok pool')
    (q : ℕ) : pool'.get q = pool.get q := by
  unfold deallocate at h
  split at h
  · cases h
  · split at h
    · cases h
    · cases h
      exact get_setFree ..

theorem WF.new {num_elems : ℕ} (default : T) (h : 0 < num_elems) :
    (MemPool.new num_elems default).WF := ⟨h, rfl⟩

@[simp] theorem used_new (num_elems : ℕ) (default : T) :
    (MemPool.new num_elems default).used = ∅ := by
  ext p
  simp [mem_used, MemPool.new]

/-- A free block is left over. -/
theorem WF.used_card_lt {pool : MemPool T} (h : pool.WF) : pool.used.card < pool.size := by
  have hsub : pool.used ⊂ Finset.range pool.size := by
    refine Finset.ssubset_iff_subset_ne.mpr ⟨Finset.filter_subset _ _, fun heq => ?_⟩
    have hmem : pool.next_free_index_ ∈ pool.used := heq ▸ Finset.mem_range.mpr h.1
    rw [mem_used, h.2] at hmem
    cases hmem.2
  simpa using Finset.card_lt_card hsub

/-! ## The circular search -/

/-- The search stops at a free block, or reports that there is none in the part of the circle
it still had to visit. `d` is the distance to go until the search is back where it began. -/
theorem searchFree_spec (pool : MemPool T) (initial : ℕ) (hinit : initial < pool.size) :
    ∀ (d fuel : ℕ) (next : ℕ), next < pool.size → d < fuel →
      (next + d + 1 = initial ∨ next + d + 1 = initial + pool.size) →
      d < pool.size →
      (∃ p, pool.searchFree initial fuel next = .ok p ∧ p < pool.size ∧
        (pool.store_ p).is_free_ = true) ∨
      (pool.searchFree initial fuel next = .error .outOfSpace ∧
        ∀ k ≤ d, (pool.store_ ((next + k) % pool.size)).is_free_ = false) := by
  intro d
  induction d with
  | zero =>
    intro fuel next hnext hfuel hback hd
    obtain ⟨n, rfl⟩ : ∃ n, fuel = n + 1 := ⟨fuel - 1, by omega⟩
    by_cases hfree : (pool.store_ next).is_free_ = true
    · exact .inl ⟨next, by simp [searchFree, hfree], hnext, hfree⟩
    · -- the last block of the round, and not a free one
      right
      have hwrap : initial = if next + 1 = pool.size then 0 else next + 1 := by
        split <;> omega
      refine ⟨by simp [searchFree, hfree, ← hwrap], ?_⟩
      intro k hk
      have hk0 : k = 0 := by omega
      subst hk0
      simpa [Nat.mod_eq_of_lt hnext] using hfree
  | succ d ih =>
    intro fuel next hnext hfuel hback hd
    obtain ⟨n, rfl⟩ : ∃ n, fuel = n + 1 := ⟨fuel - 1, by omega⟩
    by_cases hfree : (pool.store_ next).is_free_ = true
    · exact .inl ⟨next, by simp [searchFree, hfree], hnext, hfree⟩
    · -- one block nearer to where the search began
      have hne : initial ≠ if next + 1 = pool.size then 0 else next + 1 := by
        split <;> omega
      have hstep : pool.searchFree initial (n + 1) next =
          pool.searchFree initial n (if next + 1 = pool.size then 0 else next + 1) := by
        simp [searchFree, hfree, hne]
      rw [hstep]
      have hnext' : (if next + 1 = pool.size then 0 else next + 1) < pool.size := by
        split <;> omega
      have hback' : (if next + 1 = pool.size then 0 else next + 1) + d + 1 = initial ∨
          (if next + 1 = pool.size then 0 else next + 1) + d + 1 = initial + pool.size := by
        split <;> omega
      rcases ih n _ hnext' (by omega) hback' (by omega) with hok | ⟨herr, hall⟩
      · exact .inl hok
      · right
        refine ⟨herr, ?_⟩
        intro k hk
        cases k with
        | zero => simpa [Nat.mod_eq_of_lt hnext] using hfree
        | succ k =>
          have hk' := hall k (by omega)
          have hmod : ((if next + 1 = pool.size then 0 else next + 1) + k) % pool.size =
              (next + (k + 1)) % pool.size := by
            split
            · next heq =>
              have : next + (k + 1) = k + pool.size := by omega
              rw [this, Nat.add_mod_right, Nat.zero_add]
            · congr 1
              omega
          rwa [hmod] at hk'

/-- From a block in use, the search finds a free block or every block is in use. -/
theorem updateNextFreeIndex_spec (pool : MemPool T) (hn : pool.next_free_index_ < pool.size) :
    (∃ p, pool.updateNextFreeIndex = .ok { pool with next_free_index_ := p } ∧ p < pool.size ∧
      (pool.store_ p).is_free_ = true) ∨
    (pool.updateNextFreeIndex = .error .outOfSpace ∧
      ∀ p < pool.size, (pool.store_ p).is_free_ = false) := by
  rcases searchFree_spec pool pool.next_free_index_ hn (pool.size - 1) (pool.size + 1)
      pool.next_free_index_ hn (by omega) (.inr (by omega)) (by omega) with
    ⟨p, hp, hlt, hfree⟩ | ⟨herr, hall⟩
  · exact .inl ⟨p, by simp [updateNextFreeIndex, hp], hlt, hfree⟩
  · right
    refine ⟨by simp [updateNextFreeIndex, herr], ?_⟩
    intro p hp
    have hk := hall ((p + pool.size - pool.next_free_index_) % pool.size) (by
      have := Nat.mod_lt (p + pool.size - pool.next_free_index_) (by omega : 0 < pool.size)
      omega)
    have hidx : (pool.next_free_index_ + (p + pool.size - pool.next_free_index_) % pool.size) %
        pool.size = p := by
      rw [Nat.add_mod_mod]
      have : pool.next_free_index_ + (p + pool.size - pool.next_free_index_) = p + pool.size := by
        omega
      rw [this, Nat.add_mod_right, Nat.mod_eq_of_lt hp]
    rwa [hidx] at hk

/-! ## Specification of `allocate` and `deallocate` -/

/-- What an allocation that succeeds did to the pool. -/
structure Allocated (pool : MemPool T) (object : T) (p : ℕ) (pool' : MemPool T) : Prop where
  fresh : p ∉ pool.used
  used : pool'.used = insert p pool.used
  size : pool'.size = pool.size
  wf : pool'.WF
  get : ∀ q, pool'.get q = if q = p then object else pool.get q

/-- `allocate` takes a fresh block, or the pool has one free block only and reports
"out of space". -/
theorem allocate_spec {pool : MemPool T} (h : pool.WF) (object : T) :
    (∃ p pool', pool.allocate object = .ok (p, pool') ∧ Allocated pool object p pool') ∨
    (pool.allocate object = .error .outOfSpace ∧ pool.used.card + 1 = pool.size) := by
  obtain ⟨hlt, hfree⟩ := h
  set p := pool.next_free_index_ with hp
  set pool₁ := (pool.modify p fun _ => object).setFree p false with hpool₁
  have hused : ∀ q, q ∈ pool₁.used ↔ q ∈ insert p pool.used := by
    intro q
    simp only [hpool₁, mem_used, setFree, modify, Finset.mem_insert]
    by_cases hq : q = p
    · simp [hq, hlt]
    · simp [hq]
  have hfresh : p ∉ pool.used := by
    simp [mem_used, hfree]
  have hget : ∀ q, pool₁.get q = if q = p then object else pool.get q := by
    intro q
    simp [hpool₁]
  -- the block is taken before the next one is looked for
  rcases updateNextFreeIndex_spec pool₁ hlt with ⟨n, hn, hnlt, hnfree⟩ | ⟨herr, hall⟩
  · left
    refine ⟨p, { pool₁ with next_free_index_ := n }, ?_, ?_⟩
    · simp [allocate, ← hp, hfree, ← hpool₁, hn]
    · exact ⟨hfresh, by ext q; exact hused q, rfl, ⟨hnlt, hnfree⟩, hget⟩
  · -- it was the last one
    right
    refine ⟨by simp [allocate, ← hp, hfree, ← hpool₁, herr], ?_⟩
    have hrange : insert p pool.used = Finset.range pool.size := by
      ext q
      rw [← hused, mem_used, Finset.mem_range]
      exact ⟨fun hq => hq.1, fun hq => ⟨hq, hall q hq⟩⟩
    have hcard := congrArg Finset.card hrange
    rwa [Finset.card_insert_of_notMem hfresh, Finset.card_range] at hcard

/-- Blocks in use can be given back. -/
theorem deallocate_used {pool : MemPool T} {p : ℕ} (hp : p ∈ pool.used) :
    pool.deallocate p = .ok (pool.setFree p true) := by
  obtain ⟨hlt, hin⟩ := mem_used.mp hp
  simp [deallocate, Nat.not_le.mpr hlt, hin]

theorem used_setFree (pool : MemPool T) (p : ℕ) :
    (pool.setFree p true).used = pool.used.erase p := by
  ext q
  simp only [mem_used, setFree, Finset.mem_erase]
  by_cases hq : q = p
  · simp [hq]
  · simp [hq]

/-- `deallocate` of a block in use frees it and keeps every object. -/
theorem deallocate_spec {pool : MemPool T} (h : pool.WF) {p : ℕ} (hp : p ∈ pool.used) :
    pool.deallocate p = .ok (pool.setFree p true) ∧ (pool.setFree p true).WF ∧
      (pool.setFree p true).used = pool.used.erase p := by
  refine ⟨deallocate_used hp, ⟨h.1, ?_⟩, used_setFree pool p⟩
  by_cases heq : pool.next_free_index_ = p
  · simp [setFree, heq]
  · simpa [setFree, heq] using h.2

end MemPool

end TradingEcosystem
