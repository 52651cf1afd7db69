import TradingEcosystem.Book.Rep

/-!
# The Circular List of Levels

`addOrdersAtPrice` and `removeOrdersAtPrice` on a list of one side, whatever else the book
holds: no level need have orders, and other levels may share the price slots.

`LevelList` is `LevelsRep` with the levels being blocks of the pool in use, which is what makes
the walk end within the size of the pool and lets a removed level go back to it.
-/

namespace TradingEcosystem

open Lib.Ring Lib.SortedInsert

namespace LimitBook

variable {I K : Type} {b b' : LimitBook I K} {s : Side} {ls : List ℕ}

/-- `ls` is a circular doubly linked list of levels in use, of trading side `s` and strictly
ordered, best price first. -/
structure LevelList (b : LimitBook I K) (s : Side) (ls : List ℕ) : Prop extends
    LevelsRep b s ls where
  trading : s.IsTrading
  used : ∀ l ∈ ls, l ∈ b.orders_at_price_pool_.used

/-- The lists of a book. -/
theorem Linked.levelList_levels [OrderInfo I K] {sh : Shape} (h : Linked b sh) (hs : s.IsTrading) :
    LevelList b s (sh.levels s) where
  toLevelsRep := h.levels s hs
  trading := hs
  used := fun l hl => (h.level_used l).mpr (Shape.mem_all.mpr ⟨s, hs, hl⟩)

/-- In a book every listed level is found in its price slot. -/
theorem Linked.level_in_slot [OrderInfo I K] {sh : Shape} (h : Linked b sh)
    (hs : s.IsTrading) {l : ℕ} (hl : l ∈ sh.levels s) :
    b.getOrdersAtPrice (b.level l).price_ = some l :=
  (h.slots _ l).mpr ⟨Shape.mem_all.mpr ⟨s, hs, hl⟩, rfl⟩

namespace LevelList

/-- A list is no longer than the pool. -/
theorem length_le (h : LevelList b s ls) : ls.length ≤ b.orders_at_price_pool_.size := by
  have hsub : ls.toFinset ⊆ Finset.range b.orders_at_price_pool_.size := by
    intro l hl
    have hused := h.used l (List.mem_toFinset.mp hl)
    exact Finset.mem_range.mpr (MemPool.mem_used.mp hused).1
  have hcard := Finset.card_le_card hsub
  rwa [List.toFinset_card_of_nodup h.nodup, Finset.card_range] at hcard

/-- A level of a new price is not in the list. -/
theorem notMem_of_price {new : ℕ} (hprice : ∀ l ∈ ls, (b.level l).price_ ≠ (b.level new).price_) :
    new ∉ ls :=
  fun hmem => hprice new hmem rfl

/-- The head of a list is the one level that is better than all others. -/
theorem best_eq_iff {L R : List ℕ} {new : ℕ} (h : LevelList b s (L ++ new :: R)) :
    b.best s = some new ↔
      ∀ l ∈ L ++ R, s.better (b.level new).price_ (b.level l).price_ = true := by
  have hsorted := List.pairwise_append.mp h.sorted
  rw [h.head]
  cases L with
  | nil =>
    have hR : ∀ l ∈ R, s.better (b.level new).price_ (b.level l).price_ = true :=
      (List.pairwise_cons.mp hsorted.2.1).1
    simpa using hR
  | cons x L =>
    -- the head is better than the new level, which is then neither the head nor better
    have hx : s.better (b.level x).price_ (b.level new).price_ = true :=
      hsorted.2.2 x (List.mem_cons_self ..) new (List.mem_cons_self ..)
    constructor
    · intro hhead
      obtain rfl : x = new := by simpa using hhead
      rw [Side.better_irrefl] at hx
      cases hx
    · intro hall
      have hnew := hall x (by simp)
      rw [Side.better_asymm hx] at hnew
      cases hnew

end LevelList

/-! ## Adding -/

/-- `b'` is `b` with level `new` linked into list `L ++ R` between `L` and `R`. -/
structure InsertedLevel (b b' : LimitBook I K) (s : Side) (L R : List ℕ) (new : ℕ) : Prop where
  list : LevelList b' s (L ++ new :: R)
  /-- The head is moved exactly when the new price is the best. -/
  head : b'.best s =
    if ∀ l ∈ L ++ R, s.better (b.level new).price_ (b.level l).price_ = true then some new
    else b.best s
  frame : LevelFrame b b'
  best_other : ∀ s', s'.IsTrading → s' ≠ s → b'.best s' = b.best s'
  slots : b'.price_orders_at_price_ = fun i =>
    if i = priceToIndex (b.level new).price_ then some new else b.price_orders_at_price_ i
  level_other : ∀ l, l ≠ new → l ∉ L ++ R → b'.level l = b.level l

theorem LevelList.addOrdersAtPrice (h : LevelList b s ls) {new : ℕ}
    (hused : new ∈ b.orders_at_price_pool_.used) (hside : (b.level new).side_ = s)
    (hprice : ∀ l ∈ ls, (b.level l).price_ ≠ (b.level new).price_) :
    ∃ b' L R, b.addOrdersAtPrice new = .ok b' ∧ ls = L ++ R ∧ InsertedLevel b b' s L R new := by
  have hnew := notMem_of_price hprice
  obtain ⟨b', hrun, hadd⟩ := addOrdersAtPrice_spec h.trading h.toLevelsRep hside hnew hprice
    h.length_le
  obtain ⟨L, R, rfl, hins, hL, -⟩ := orderedInsert_split (r := b.Listed s) new ls
  have hlist : LevelList b' s (L ++ new :: R) := by
    refine ⟨hins ▸ hadd.rep, h.trading, fun l hl => ?_⟩
    rw [hadd.frame.used]
    have hl' : l = new ∨ l ∈ L ++ R := by
      simp only [List.mem_append, List.mem_cons] at hl ⊢
      tauto
    rcases hl' with rfl | hl'
    · exact hused
    · exact h.used l hl'
  refine ⟨b', L, R, hrun, rfl, hlist, ?_, hadd.frame, hadd.best_other, hadd.slots,
    hadd.level_other⟩
  -- whether the new level is the head is decided by the prices alone
  have hbest := hlist.best_eq_iff
  simp only [hadd.frame.price] at hbest
  by_cases hall : ∀ l ∈ L ++ R, s.better (b.level new).price_ (b.level l).price_ = true
  · rw [if_pos hall]
    exact hbest.mpr hall
  · rw [if_neg hall, hlist.head, h.head]
    cases L with
    | nil =>
      have hhead : b'.best s = some new := hlist.head
      exact absurd (hbest.mp hhead) hall
    | cons x L => rfl

/-! ## Removing -/

/-- `b'` is `b` with level `l` unlinked from list `ls` and back in the pool, and price slot `p`
cleared. -/
structure ErasedLevel (b b' : LimitBook I K) (s : Side) (ls : List ℕ) (l : ℕ) (p : ℤ) : Prop where
  list : LevelList b' s (ls.erase l)
  order_pool : b'.order_pool_ = b.order_pool_
  keys : b'.key_to_order_ = b.key_to_order_
  used : b'.orders_at_price_pool_.used = b.orders_at_price_pool_.used.erase l
  side : ∀ k, (b'.level k).side_ = (b.level k).side_
  price : ∀ k, (b'.level k).price_ = (b.level k).price_
  first : ∀ k, (b'.level k).first_order_ = (b.level k).first_order_
  best_other : ∀ s', s'.IsTrading → s' ≠ s → b'.best s' = b.best s'
  slots : b'.price_orders_at_price_ = fun i =>
    if i = priceToIndex p then none else b.price_orders_at_price_ i
  level_other : ∀ k, k ∉ ls → b'.level k = b.level k

/-- A call removes the level its price slot leads to. -/
theorem LevelList.removeOrdersAtPrice (h : LevelList b s ls) {l : ℕ} {price : ℤ} (hl : l ∈ ls)
    (hslot : b.getOrdersAtPrice price = some l) :
    ∃ b', b.removeOrdersAtPrice s price = .ok b' ∧ ErasedLevel b b' s ls l price := by
  obtain ⟨b₁, h₁, hrun⟩ :=
    removeOrdersAtPrice_eq h.trading h.toLevelsRep hl hslot (h.used l hl)
  set b₂ : LimitBook I K := { b₁.setOrdersAtPrice price none with
    orders_at_price_pool_ := b₁.orders_at_price_pool_.setFree l true }
  have hlevel : ∀ k, b₂.level k = b₁.level k := fun k => MemPool.get_setFree ..
  have hused₂ : b₂.orders_at_price_pool_.used = b.orders_at_price_pool_.used.erase l := by
    rw [← h₁.frame.used]
    exact MemPool.used_setFree ..
  refine ⟨b₂, hrun, ?_, h₁.frame.order_pool, h₁.frame.keys, hused₂, ?_, ?_, ?_, h₁.best_other,
    ?_, ?_⟩
  · refine ⟨h₁.rep.congr rfl fun k _ => hlevel k, h.trading, fun k hk => ?_⟩
    rw [hused₂, Finset.mem_erase]
    have hne : k ≠ l := fun he => h.nodup.not_mem_erase (he ▸ hk)
    exact ⟨hne, h.used k (List.mem_of_mem_erase hk)⟩
  · intro k
    rw [hlevel, h₁.frame.side]
  · intro k
    rw [hlevel, h₁.frame.price]
  · intro k
    rw [hlevel, h₁.frame.first]
  · rw [← h₁.slots]
    rfl
  · intro k hk
    rw [hlevel, h₁.level_other k hk]

/-! ## Both -/

/-- `b''` has list `ls` of `b` back, link by link, and the price slot of `new` empty. -/
structure RestoredLevels (b b'' : LimitBook I K) (s : Side) (ls : List ℕ) (new : ℕ) : Prop where
  list : LevelList b'' s ls
  best : ∀ s', s'.IsTrading → b''.best s' = b.best s'
  level : ∀ l, l ≠ new → b''.level l = b.level l
  slots : b''.price_orders_at_price_ = fun i =>
    if i = priceToIndex (b.level new).price_ then none else b.price_orders_at_price_ i

theorem LevelList.restored {L R : List ℕ} {new : ℕ} {b'' : LimitBook I K}
    (h : LevelList b s (L ++ R)) (hnew : new ∉ L ++ R) (hadd : InsertedLevel b b' s L R new)
    (hremove : ErasedLevel b' b'' s (L ++ new :: R) new (b.level new).price_) :
    RestoredLevels b b'' s (L ++ R) new := by
  have hnL : new ∉ L := fun hmem => hnew (List.mem_append_left _ hmem)
  have hlist : LevelList b'' s (L ++ R) := by
    have herase : (L ++ new :: R).erase new = L ++ R := by
      rw [List.erase_append_right _ hnL, List.erase_cons_head]
    exact herase ▸ hremove.list
  refine ⟨hlist, ?_, ?_, ?_⟩
  · intro s' hs'
    by_cases hss : s' = s
    · rw [hss, hlist.head, h.head]
    · rw [hremove.best_other s' hs' hss, hadd.best_other s' hs' hss]
  · intro l hl
    by_cases hmem : l ∈ L ++ R
    · -- the links follow from the list, the data was never written
      have hlinks := h.ring.links_eq hlist.ring hmem
      exact OrdersAtPrice.ext ((hremove.side l).trans (hadd.frame.side l))
        ((hremove.price l).trans (hadd.frame.price l))
        ((hremove.first l).trans (hadd.frame.first l)) hlinks.2 hlinks.1
    · have hmem' : l ∉ L ++ new :: R := by
        simp only [List.mem_append, List.mem_cons] at hmem ⊢
        tauto
      rw [hremove.level_other l hmem', hadd.level_other l hl hmem]
  · rw [hremove.slots, hadd.slots]
    funext i
    by_cases hi : i = priceToIndex (b.level new).price_
    · simp [hi]
    · simp [hi]

/-- **Sorted insertion and removal** on a list of any length: a level of a new price goes to its
place, the removal of a level leaves the others in order, and the two undo each other. -/
theorem LevelList.sorted_insert_remove (h : LevelList b s ls) :
    (∀ new ∈ b.orders_at_price_pool_.used, (b.level new).side_ = s →
      (∀ l ∈ ls, (b.level l).price_ ≠ (b.level new).price_) →
      ∃ b' L R, b.addOrdersAtPrice new = .ok b' ∧ ls = L ++ R ∧ InsertedLevel b b' s L R new ∧
        ∃ b'', b'.removeOrdersAtPrice s (b.level new).price_ = .ok b'' ∧
          RestoredLevels b b'' s ls new) ∧
    (∀ l ∈ ls, ∀ price, b.getOrdersAtPrice price = some l →
      ∃ b', b.removeOrdersAtPrice s price = .ok b' ∧ ErasedLevel b b' s ls l price) := by
  refine ⟨fun new hused hside hprice => ?_, fun l hl price hslot =>
    h.removeOrdersAtPrice hl hslot⟩
  obtain ⟨b', L, R, hrun, rfl, hadd⟩ := h.addOrdersAtPrice hused hside hprice
  -- the new level is in its slot, whatever was there before
  have hslot : b'.getOrdersAtPrice (b.level new).price_ = some new := by
    simp [getOrdersAtPrice, hadd.slots]
  obtain ⟨b'', hrun', hremove⟩ := hadd.list.removeOrdersAtPrice (by simp) hslot
  exact ⟨b', L, R, hrun, rfl, hadd, b'', hrun',
    h.restored (notMem_of_price hprice) hadd hremove⟩

/-- Bids at 10 and 8 in blocks 0 and 1; block 2 is allocated for a level at 9. -/
def bidsAtTenAndEight : LimitBook Unit Unit where
  key_to_order_ := fun _ => none
  orders_at_price_pool_ :=
    { store_ := fun p =>
        if p = 0 then ⟨⟨.BUY, 10, none, some 1, some 1⟩, false⟩
        else if p = 1 then ⟨⟨.BUY, 8, none, some 0, some 0⟩, false⟩
        else if p = 2 then ⟨⟨.BUY, 9, none, none, none⟩, false⟩
        else ⟨{}, true⟩
      size := 4
      next_free_index_ := 3 }
  bids_by_price_ := some 0
  asks_by_price_ := none
  price_orders_at_price_ := fun i => if i = 10 then some 0 else if i = 8 then some 1 else none
  order_pool_ := MemPool.new 1 ⟨(), none, none⟩

theorem bidsAtTenAndEight_levelList : LevelList bidsAtTenAndEight .BUY [0, 1] where
  head := rfl
  ring := by
    unfold IsRing
    decide
  side := by decide
  sorted := by decide
  trading := .inl rfl
  used := by decide

theorem LevelList.sorted_insert_remove_nine :
    (∃ b' L R, bidsAtTenAndEight.addOrdersAtPrice 2 = .ok b' ∧ [0, 1] = L ++ R ∧
      InsertedLevel bidsAtTenAndEight b' .BUY L R 2 ∧
      ∃ b'', b'.removeOrdersAtPrice .BUY 9 = .ok b'' ∧
        RestoredLevels bidsAtTenAndEight b'' .BUY [0, 1] 2) ∧
    ∃ b', bidsAtTenAndEight.removeOrdersAtPrice .BUY 10 = .ok b' ∧
      ErasedLevel bidsAtTenAndEight b' .BUY [0, 1] 0 10 :=
  ⟨(LevelList.sorted_insert_remove bidsAtTenAndEight_levelList).1 2 (by decide) rfl (by decide),
   (LevelList.sorted_insert_remove bidsAtTenAndEight_levelList).2 0 (by decide) 10 rfl⟩

end LimitBook

end TradingEcosystem
