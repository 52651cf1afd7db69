import TradingEcosystem.Book.Frames
import Mathlib.Data.Finset.Image

/-!
# How Many Levels a Book Can Hold

Every price slot that is occupied leads to a level of its own, whatever calls are made: slots may be
shared by prices and lists may be linked wrongly.  As the pool always keeps one block free, there is
always a slot that is not occupied.

- `SlotsHeld` : the occupied slots lead to different levels in use
- `SlotsHeld.insertOrder`, `SlotsHeld.removeOrder` : the operations on orders keep this
- `SlotsHeld.exists_free_slot` : not all slots are occupied
-/

namespace TradingEcosystem.LimitBook

variable {I K : Type} {b b' : LimitBook I K}

/-! ## Slots -/

theorem slots_linkAfter {new target : ℕ} (hrun : b.linkAfter new target = .ok b') :
    b'.price_orders_at_price_ = b.price_orders_at_price_ := by
  obtain ⟨_, -, hrun⟩ := bind_eq_ok.mp hrun
  cases hrun
  rfl

theorem slots_linkBefore {new target : ℕ} (hrun : b.linkBefore new target = .ok b') :
    b'.price_orders_at_price_ = b.price_orders_at_price_ := by
  obtain ⟨_, -, hrun⟩ := bind_eq_ok.mp hrun
  cases hrun
  rfl

/-- A level that is added goes into the slot of its price. -/
theorem slots_addOrdersAtPrice {new : ℕ} (hrun : b.addOrdersAtPrice new = .ok b') :
    b'.price_orders_at_price_ =
      (b.setOrdersAtPrice (b.level new).price_ (some new)).price_orders_at_price_ := by
  unfold addOrdersAtPrice at hrun
  simp only at hrun
  split at hrun
  · cases hrun
    exact setBest_slots ..
  · next best _ =>
    obtain ⟨⟨target, add_after⟩, -, hrun⟩ := bind_eq_ok.mp hrun
    simp only at hrun
    split at hrun
    · split at hrun
      · obtain ⟨target', -, hrun⟩ := bind_eq_ok.mp hrun
        exact slots_linkAfter hrun
      · exact slots_linkAfter hrun
    · obtain ⟨b₁, hlink, hrun⟩ := bind_eq_ok.mp hrun
      have hslots := slots_linkBefore hlink
      split at hrun
      · cases hrun
        exact (setBest_slots ..).trans hslots
      · cases hrun
        exact hslots

theorem slots_unlinkLevel {side : Side} {l : ℕ} (hrun : b.unlinkLevel side l = .ok b') :
    b'.price_orders_at_price_ = b.price_orders_at_price_ := by
  unfold unlinkLevel at hrun
  simp only at hrun
  split at hrun
  · cases hrun
    exact setBest_slots ..
  · obtain ⟨prev, -, hrun⟩ := bind_eq_ok.mp hrun
    obtain ⟨next, -, hrun⟩ := bind_eq_ok.mp hrun
    cases hrun
    split
    · exact setBest_slots ..
    · rfl

/-! ## What every operation keeps -/

/-- Every occupied slot leads to a level in use, and no two slots to the same one. -/
structure SlotsHeld (n : ℕ) (b : LimitBook I K) : Prop where
  wf : b.orders_at_price_pool_.WF
  size : b.orders_at_price_pool_.size = n
  used : ∀ i l, b.price_orders_at_price_ i = some l → l ∈ b.orders_at_price_pool_.used
  inj : ∀ i j l, b.price_orders_at_price_ i = some l → b.price_orders_at_price_ j = some l → i = j

namespace SlotsHeld

variable {n : ℕ}

/-- Only the pool of the levels and the slots matter. -/
theorem of_eq (h : SlotsHeld n b) (hpool : b'.orders_at_price_pool_ = b.orders_at_price_pool_)
    (hslots : b'.price_orders_at_price_ = b.price_orders_at_price_) : SlotsHeld n b' where
  wf := hpool ▸ h.wf
  size := by rw [hpool, h.size]
  used := by
    rw [hpool, hslots]
    exact h.used
  inj := by
    rw [hslots]
    exact h.inj

theorem modLevel (h : SlotsHeld n b) (l : ℕ) (f : OrdersAtPrice → OrdersAtPrice) :
    SlotsHeld n (b.modLevel l f) where
  wf := h.wf.modify l f
  size := h.size
  used := fun i k hk => by
    rw [show (b.modLevel l f).orders_at_price_pool_.used = _ from MemPool.used_modify ..]
    exact h.used i k hk
  inj := h.inj

theorem modOrder (h : SlotsHeld n b) (o : ℕ) (f : QueuedOrder I → QueuedOrder I) :
    SlotsHeld n (b.modOrder o f) :=
  h.of_eq rfl rfl

theorem linkOrder (h : SlotsHeld n b) {first o : ℕ} (hrun : b.linkOrder first o = .ok b') :
    SlotsHeld n b' := by
  obtain ⟨last, -, hrun⟩ := bind_eq_ok.mp hrun
  cases hrun
  iterate 4 refine SlotsHeld.modOrder ?_ _ _
  exact h

/-- **A level is removed** together with the slot that leads to it. -/
theorem removeOrdersAtPrice (h : SlotsHeld n b) {side : Side} {price : ℤ}
    (hrun : b.removeOrdersAtPrice side price = .ok b') : SlotsHeld n b' := by
  obtain ⟨l, hl, hrun⟩ := bind_eq_ok.mp hrun
  obtain ⟨b₁, hunlink, hrun⟩ := bind_eq_ok.mp hrun
  obtain ⟨pool, hpool, hrun⟩ := bind_eq_ok.mp hrun
  cases hrun
  have hl : b.price_orders_at_price_ (priceToIndex price) = some l := deref_eq_ok.mp hl
  have hframe := unlinkLevel_frame hunlink
  have hslots := slots_unlinkLevel hunlink
  obtain ⟨hfree, hwf, hused⟩ := MemPool.deallocate_spec (hframe.wf h.wf)
    (hframe.used ▸ h.used _ l hl : l ∈ b₁.orders_at_price_pool_.used)
  obtain rfl := Except.ok.inj (hpool.symm.trans hfree)
  -- a slot that is still occupied was so before, and is another one
  have hstill : ∀ {i k}, (b₁.setOrdersAtPrice price none).price_orders_at_price_ i = some k →
      i ≠ priceToIndex price ∧ b.price_orders_at_price_ i = some k := by
    intro i k hk
    have hk : (if i = priceToIndex price then none else b₁.price_orders_at_price_ i) = some k := hk
    split at hk
    · cases hk
    · next hi => exact ⟨hi, hslots ▸ hk⟩
  refine ⟨hwf, hframe.size.trans h.size, fun i k hk => ?_, fun i j k hi hj => ?_⟩
  · obtain ⟨hi, hk⟩ := hstill hk
    show k ∈ (b₁.orders_at_price_pool_.setFree l true).used
    rw [hused, hframe.used]
    refine Finset.mem_erase.mpr ⟨fun heq => ?_, h.used i k hk⟩
    exact hi (h.inj _ _ l (heq ▸ hk) hl)
  · exact h.inj i j k (hstill hi).2 (hstill hj).2

/-- **A level is added** to a slot that is free. -/
theorem addOrdersAtPrice (h : SlotsHeld n b) {object : OrdersAtPrice} {l : ℕ}
    {pool : MemPool OrdersAtPrice} (hpool : b.orders_at_price_pool_.allocate object = .ok (l, pool))
    (hrun : LimitBook.addOrdersAtPrice { b with orders_at_price_pool_ := pool } l = .ok b') :
    SlotsHeld n b' := by
  rcases MemPool.allocate_spec h.wf object with ⟨p, pool', hrun', ha⟩ | ⟨herr, -⟩
  · obtain ⟨rfl, rfl⟩ := Prod.mk.inj (Except.ok.inj (hpool.symm.trans hrun'))
    have hframe := addOrdersAtPrice_frame hrun
    have hslots := slots_addOrdersAtPrice hrun
    have hcases : ∀ {i k}, b'.price_orders_at_price_ i = some k →
        (i = priceToIndex (LimitBook.level { b with orders_at_price_pool_ := pool } l).price_ ∧
          k = l) ∨ b.price_orders_at_price_ i = some k := by
      intro i k hk
      rw [hslots] at hk
      have hk : (if i = priceToIndex
        (LimitBook.level { b with orders_at_price_pool_ := pool } l).price_ then some l
          else b.price_orders_at_price_ i) = some k := hk
      split at hk
      · next hi => exact .inl ⟨hi, (Option.some.inj hk).symm⟩
      · exact .inr hk
    have hfresh : ∀ {i}, b.price_orders_at_price_ i ≠ some l := fun hi => ha.fresh (h.used _ l hi)
    refine ⟨hframe.wf ha.wf, hframe.size.trans (ha.size.trans h.size), fun i k hk => ?_,
      fun i j k hi hj => ?_⟩
    · rw [hframe.used]
      show k ∈ pool.used
      rw [ha.used]
      rcases hcases hk with ⟨-, rfl⟩ | hk
      · exact Finset.mem_insert_self ..
      · exact Finset.mem_insert_of_mem (h.used i k hk)
    · rcases hcases hi with ⟨hi, rfl⟩ | hi
      · rcases hcases hj with ⟨hj, -⟩ | hj
        · exact hi.trans hj.symm
        · exact absurd hj hfresh
      · rcases hcases hj with ⟨-, rfl⟩ | hj
        · exact absurd hi hfresh
        · exact h.inj i j k hi hj
  · cases herr.symm.trans hpool

/-- **Some slot is free**: a block of the pool is. -/
theorem exists_free_slot (h : SlotsHeld n b) : ∃ i < n, b.price_orders_at_price_ i = none := by
  by_contra hfull
  have hsome : ∀ i < n, ∃ l, b.price_orders_at_price_ i = some l := by
    intro i hi
    exact Option.ne_none_iff_exists'.mp fun hnone => hfull ⟨i, hi, hnone⟩
  choose! level hlevel using hsome
  have hmaps : ((Finset.range n).image level) ⊆ b.orders_at_price_pool_.used := by
    intro l hl
    obtain ⟨i, hi, rfl⟩ := Finset.mem_image.mp hl
    exact h.used i _ (hlevel i (Finset.mem_range.mp hi))
  have hcard : ((Finset.range n).image level).card = n := by
    rw [Finset.card_image_of_injOn, Finset.card_range]
    intro i hi j hj heq
    have hi := hlevel i (Finset.mem_range.mp hi)
    have hj := hlevel j (Finset.mem_range.mp hj)
    exact h.inj i j _ hi (heq ▸ hj)
  have hle := Finset.card_le_card hmaps
  have hlt := h.wf.used_card_lt
  rw [hcard] at hle
  rw [h.size] at hlt
  exact absurd hle (Nat.not_le.mpr hlt)

variable [OrderInfo I K] [DecidableEq K]

theorem setKey (h : SlotsHeld n b) {k : K} {o : Option ℕ} (hrun : b.setKey k o = .ok b') :
    SlotsHeld n b' := by
  unfold LimitBook.setKey at hrun
  split at hrun
  · cases hrun
    exact h.of_eq rfl rfl
  · cases hrun

omit [DecidableEq K] in
theorem unlinkOrder (h : SlotsHeld n b) {o : ℕ} (hrun : b.unlinkOrder o = .ok b') :
    SlotsHeld n b' := by
  obtain ⟨before, -, hrun⟩ := bind_eq_ok.mp hrun
  obtain ⟨after, -, hrun⟩ := bind_eq_ok.mp hrun
  obtain ⟨l, -, hrun⟩ := bind_eq_ok.mp hrun
  cases hrun
  refine SlotsHeld.modOrder ?_ _ _
  have hlinks := (h.modOrder before fun e =>
    { e with next_order_ := (b.order o).next_order_ }).modOrder after fun e =>
      { e with prev_order_ := some before }
  split
  · exact hlinks.modLevel l _
  · exact hlinks

theorem removeOrder (h : SlotsHeld n b) {o : ℕ} (hrun : b.removeOrder o = .ok b') :
    SlotsHeld n b' := by
  have hrest : ∀ {b₁ : LimitBook I K}, SlotsHeld n b₁ → (do
      let b ← b₁.setKey (OrderInfo.key (b₁.order o).info) none
      let pool ← b.order_pool_.deallocate o
      .ok { b with order_pool_ := pool }) = .ok b' → SlotsHeld n b' := by
    intro b₁ h₁ hrun
    obtain ⟨b₂, hkey, hrun⟩ := bind_eq_ok.mp hrun
    obtain ⟨pool, -, hrun⟩ := bind_eq_ok.mp hrun
    cases hrun
    exact (h₁.setKey hkey).of_eq rfl rfl
  unfold LimitBook.removeOrder at hrun
  split at hrun
  · obtain ⟨b₁, hremove, hrun⟩ := bind_eq_ok.mp hrun
    exact hrest (h.removeOrdersAtPrice hremove) hrun
  · obtain ⟨b₁, hunlink, hrun⟩ := bind_eq_ok.mp hrun
    exact hrest (h.unlinkOrder hunlink) hrun

theorem insertOrder (h : SlotsHeld n b) {info : I} (hrun : b.insertOrder info = .ok b') :
    SlotsHeld n b' := by
  obtain ⟨⟨o, orders⟩, -, hrun⟩ := bind_eq_ok.mp hrun
  unfold addOrder at hrun
  simp only at hrun
  split at hrun
  · -- the order opens a level
    obtain ⟨⟨l, pool⟩, hpool, hrun⟩ := bind_eq_ok.mp hrun
    obtain ⟨b₁, hplace, hkey⟩ := bind_eq_ok.mp hrun
    have h₀ : SlotsHeld n (LimitBook.modOrder { b with order_pool_ := orders } o fun e =>
        { e with prev_order_ := some o, next_order_ := some o }) := h.of_eq rfl rfl
    exact (h₀.addOrdersAtPrice hpool hplace).setKey hkey
  · obtain ⟨first, -, hrun⟩ := bind_eq_ok.mp hrun
    obtain ⟨b₁, hlink, hkey⟩ := bind_eq_ok.mp hrun
    have h₀ : SlotsHeld n { b with order_pool_ := orders } := h.of_eq rfl rfl
    exact (h₀.linkOrder hlink).setKey hkey

end SlotsHeld

end TradingEcosystem.LimitBook
