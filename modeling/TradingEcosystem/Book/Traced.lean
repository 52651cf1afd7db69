import TradingEcosystem.Book.Frames

/-!
# Pointers that Lead to Orders

What can be said of a book's memory when nothing is known of its shape.  The lists may be linked
wrongly, an order may have been deallocated and the pointer to it kept: a pointer that is found
anywhere still leads to the data of an order that was once put into the book.

- `Traced` : every pointer leads to data with a property
- `Traced.insertOrder`, `Traced.removeOrder`, `Traced.modInfo` : the operations on orders only
  hand pointers on
-/

namespace TradingEcosystem.LimitBook

variable {I K : Type} {Good : I → Prop} {b b' : LimitBook I K}

/-- Every pointer to an order, in the order map, in a level or in an order, in use or not, leads
to data with the property `Good`. -/
structure Traced (Good : I → Prop) (b : LimitBook I K) : Prop where
  key : ∀ k p, b.key_to_order_ k = some p → Good (b.order p).info
  first : ∀ l p, (b.level l).first_order_ = some p → Good (b.order p).info
  prev : ∀ o p, (b.order o).prev_order_ = some p → Good (b.order p).info
  next : ∀ o p, (b.order o).next_order_ = some p → Good (b.order p).info

namespace Traced

theorem mono {Good' : I → Prop} (h : Traced Good b) (himp : ∀ i, Good i → Good' i) :
    Traced Good' b where
  key := fun k p hp => himp _ (h.key k p hp)
  first := fun l p hp => himp _ (h.first l p hp)
  prev := fun o p hp => himp _ (h.prev o p hp)
  next := fun o p hp => himp _ (h.next o p hp)

/-- Links between levels lead to no order. -/
theorem frame (h : Traced Good b) (hframe : LevelFrame b b') : Traced Good b' where
  key := fun k p hp => by
    rw [hframe.keys] at hp
    rw [hframe.order]
    exact h.key k p hp
  first := fun l p hp => by
    rw [hframe.first] at hp
    rw [hframe.order]
    exact h.first l p hp
  prev := fun o p hp => by
    rw [hframe.order] at hp ⊢
    exact h.prev o p hp
  next := fun o p hp => by
    rw [hframe.order] at hp ⊢
    exact h.next o p hp

/-- Data that is good stays good when an order is written that stays good. -/
theorem good_modOrder {o p : ℕ} {f : QueuedOrder I → QueuedOrder I}
    (hinfo : Good (b.order o).info → Good (f (b.order o)).info) (hp : Good (b.order p).info) :
    Good ((b.modOrder o f).order p).info := by
  rw [order_modOrder]
  split
  · next heq =>
    subst heq
    exact hinfo hp
  · exact hp

/-- Writing pointers that lead to good data into an order. -/
theorem modOrder (h : Traced Good b) {o : ℕ} {f : QueuedOrder I → QueuedOrder I}
    (hinfo : Good (b.order o).info → Good (f (b.order o)).info)
    (hprev : ∀ p, (f (b.order o)).prev_order_ = some p → Good (b.order p).info)
    (hnext : ∀ p, (f (b.order o)).next_order_ = some p → Good (b.order p).info) :
    Traced Good (b.modOrder o f) where
  key := fun k p hp => good_modOrder hinfo (h.key k p hp)
  first := fun l p hp => good_modOrder hinfo (h.first l p hp)
  prev := fun q p hp => by
    apply good_modOrder hinfo
    rw [order_modOrder] at hp
    split at hp
    · exact hprev p hp
    · exact h.prev q p hp
  next := fun q p hp => by
    apply good_modOrder hinfo
    rw [order_modOrder] at hp
    split at hp
    · exact hnext p hp
    · exact h.next q p hp

/-- Writing data that stays good. -/
theorem modInfo (h : Traced Good b) {o : ℕ} {f : I → I}
    (hinfo : Good (b.order o).info → Good (f (b.order o).info)) : Traced Good (b.modInfo o f) :=
  h.modOrder hinfo (h.prev o) (h.next o)

/-- Writing a pointer that leads to good data into a level. -/
theorem modLevel (h : Traced Good b) {l : ℕ} {f : OrdersAtPrice → OrdersAtPrice}
    (hfirst : ∀ p, (f (b.level l)).first_order_ = some p → Good (b.order p).info) :
    Traced Good (b.modLevel l f) where
  key := h.key
  first := fun k p hp => by
    rw [level_modLevel] at hp
    split at hp
    · exact hfirst p hp
    · exact h.first k p hp
  prev := h.prev
  next := h.next

theorem setKey [OrderInfo I K] [DecidableEq K] (h : Traced Good b) {k : K} {o : Option ℕ}
    (hgood : ∀ p, o = some p → Good (b.order p).info) (hrun : b.setKey k o = .ok b') :
    Traced Good b' := by
  unfold LimitBook.setKey at hrun
  split at hrun
  · cases hrun
    refine ⟨fun k' p hp => ?_, h.first, h.prev, h.next⟩
    simp only at hp
    split at hp
    · exact hgood p hp
    · exact h.key k' p hp
  · cases hrun

/-- A pool of levels that holds the same levels. -/
theorem setLevelPool (h : Traced Good b) {pool : MemPool OrdersAtPrice}
    (hfirst : ∀ l p, (pool.get l).first_order_ = some p → Good (b.order p).info) :
    Traced Good { b with orders_at_price_pool_ := pool } where
  key := h.key
  first := hfirst
  prev := h.prev
  next := h.next

/-- A pool of orders that holds the same orders. -/
theorem setOrderPool (h : Traced Good b) {pool : MemPool (QueuedOrder I)}
    (hget : ∀ q, pool.get q = b.order q) : Traced Good { b with order_pool_ := pool } where
  key := fun k p hp => by
    show Good (pool.get p).info
    rw [hget]
    exact h.key k p hp
  first := fun l p hp => by
    show Good (pool.get p).info
    rw [hget]
    exact h.first l p hp
  prev := fun o p hp => by
    show Good (pool.get p).info
    rw [hget]
    apply h.prev o
    rw [← hget]
    exact hp
  next := fun o p hp => by
    show Good (pool.get p).info
    rw [hget]
    apply h.next o
    rw [← hget]
    exact hp

/-- A new order is stored with its links null. -/
theorem allocate (h : Traced Good b) {info : I} (hinfo : Good info) {o : ℕ}
    {pool : MemPool (QueuedOrder I)} (hrun : b.order_pool_.allocate ⟨info, none, none⟩ = .ok (o, pool)) :
    Traced Good { b with order_pool_ := pool } ∧ Good (pool.get o).info := by
  have hget := MemPool.get_allocate hrun
  have hgood : ∀ p, Good (b.order p).info → Good (pool.get p).info := by
    intro p hp
    rw [hget]
    split
    · exact hinfo
    · exact hp
  refine ⟨⟨fun k p hp => hgood p (h.key k p hp), fun l p hp => hgood p (h.first l p hp),
    fun q p hp => ?_, fun q p hp => ?_⟩, ?_⟩
  · have hp' : (pool.get q).prev_order_ = some p := hp
    rw [hget] at hp'
    split at hp'
    · cases hp'
    · exact hgood p (h.prev q p hp')
  · have hp' : (pool.get q).next_order_ = some p := hp
    rw [hget] at hp'
    split at hp'
    · cases hp'
    · exact hgood p (h.next q p hp')
  · rw [hget, if_pos rfl]
    exact hinfo

end Traced

/-! ## Removing and inserting orders -/

theorem Traced.removeOrdersAtPrice (h : Traced Good b) {side : Side} {price : ℤ}
    (hrun : b.removeOrdersAtPrice side price = .ok b') : Traced Good b' := by
  obtain ⟨l, -, hrun⟩ := bind_eq_ok.mp hrun
  obtain ⟨b₁, hunlink, hrun⟩ := bind_eq_ok.mp hrun
  obtain ⟨pool, hpool, hrun⟩ := bind_eq_ok.mp hrun
  cases hrun
  have h₁ := (h.frame (unlinkLevel_frame hunlink)).frame (LevelFrame.setOrdersAtPrice b₁ price none)
  apply h₁.setLevelPool
  intro l' p hp
  rw [MemPool.get_deallocate hpool] at hp
  exact h₁.first l' p hp

variable [OrderInfo I K] [DecidableEq K]

omit [DecidableEq K] in
theorem Traced.unlinkOrder (h : Traced Good b) {o : ℕ} (hrun : b.unlinkOrder o = .ok b') :
    Traced Good b' := by
  obtain ⟨before, hbefore, hrun⟩ := bind_eq_ok.mp hrun
  obtain ⟨after, hafter, hrun⟩ := bind_eq_ok.mp hrun
  obtain ⟨l, -, hrun⟩ := bind_eq_ok.mp hrun
  cases hrun
  have hgood_before := h.prev o before (deref_eq_ok.mp hbefore)
  have hgood_after := h.next o after (deref_eq_ok.mp hafter)
  set b₁ := b.modOrder before fun e => { e with next_order_ := (b.order o).next_order_ } with hb₁
  have h₁ : Traced Good b₁ := h.modOrder id (h.prev before) (h.next o)
  set b₂ := b₁.modOrder after fun e => { e with prev_order_ := some before } with hb₂
  have h₂ : Traced Good b₂ := by
    refine h₁.modOrder id (fun p hp => ?_) (h₁.next after)
    obtain rfl := Option.some.inj hp
    exact good_modOrder id hgood_before
  have hmoved : Good (b₂.order after).info := good_modOrder id (good_modOrder id hgood_after)
  refine Traced.modOrder ?_ id (fun p hp => by cases hp) (fun p hp => by cases hp)
  -- the order behind becomes the first of its level
  split
  · refine h₂.modLevel fun p hp => ?_
    obtain rfl := Option.some.inj hp
    exact hmoved
  · exact h₂

theorem Traced.removeOrder (h : Traced Good b) {o : ℕ} (hrun : b.removeOrder o = .ok b') :
    Traced Good b' := by
  -- what is left to do when the order is unlinked
  have hrest : ∀ {b₁ : LimitBook I K}, Traced Good b₁ → (do
      let b ← b₁.setKey (OrderInfo.key (b₁.order o).info) none
      let pool ← b.order_pool_.deallocate o
      .ok { b with order_pool_ := pool }) = .ok b' → Traced Good b' := by
    intro b₁ h₁ hrun
    obtain ⟨b₂, hkey, hrun⟩ := bind_eq_ok.mp hrun
    obtain ⟨pool, hpool, hrun⟩ := bind_eq_ok.mp hrun
    cases hrun
    have h₂ := h₁.setKey (fun p hp => by cases hp) hkey
    exact h₂.setOrderPool (MemPool.get_deallocate hpool)
  unfold LimitBook.removeOrder at hrun
  split at hrun
  · obtain ⟨b₁, hunlink, hrun⟩ := bind_eq_ok.mp hrun
    exact hrest (h.removeOrdersAtPrice hunlink) hrun
  · obtain ⟨b₁, hunlink, hrun⟩ := bind_eq_ok.mp hrun
    exact hrest (h.unlinkOrder hunlink) hrun

omit [OrderInfo I K] [DecidableEq K] in
theorem Traced.linkOrder (h : Traced Good b) {first o : ℕ} (ho : Good (b.order o).info)
    (hfirst : Good (b.order first).info) (hrun : b.linkOrder first o = .ok b') :
    Traced Good b' ∧ ∀ p, Good (b.order p).info → Good (b'.order p).info := by
  obtain ⟨last, hlast, hrun⟩ := bind_eq_ok.mp hrun
  cases hrun
  set b₁ := b.modOrder last fun e => { e with next_order_ := some o } with hb₁
  have hgood₁ : ∀ p, Good (b.order p).info → Good (b₁.order p).info := fun p => good_modOrder id
  have h₁ : Traced Good b₁ := by
    refine h.modOrder id (h.prev last) fun p hp => ?_
    obtain rfl := Option.some.inj hp
    exact ho
  set b₂ := b₁.modOrder o fun e => { e with prev_order_ := (b₁.order first).prev_order_ } with hb₂
  have hgood₂ : ∀ p, Good (b₁.order p).info → Good (b₂.order p).info := fun p => good_modOrder id
  have h₂ : Traced Good b₂ := h₁.modOrder id (h₁.prev first) (h₁.next o)
  set b₃ := b₂.modOrder o fun e => { e with next_order_ := some first } with hb₃
  have hgood₃ : ∀ p, Good (b₂.order p).info → Good (b₃.order p).info := fun p => good_modOrder id
  have h₃ : Traced Good b₃ := by
    refine h₂.modOrder id (h₂.prev o) fun p hp => ?_
    obtain rfl := Option.some.inj hp
    exact hgood₂ _ (hgood₁ _ hfirst)
  refine ⟨?_, fun p hp => good_modOrder id (hgood₃ p (hgood₂ p (hgood₁ p hp)))⟩
  refine h₃.modOrder id (fun p hp => ?_) (h₃.next first)
  obtain rfl := Option.some.inj hp
  exact hgood₃ _ (hgood₂ _ (hgood₁ _ ho))

theorem Traced.addOrder (h : Traced Good b) {o : ℕ} (ho : Good (b.order o).info)
    (hrun : b.addOrder o = .ok b') : Traced Good b' := by
  have hrest : ∀ {b₁ : LimitBook I K} {k : K}, Traced Good b₁ → Good (b₁.order o).info →
      b₁.setKey k (some o) = .ok b' → Traced Good b' := by
    intro b₁ k h₁ ho₁ hkey
    refine h₁.setKey (fun p hp => ?_) hkey
    obtain rfl := Option.some.inj hp
    exact ho₁
  unfold LimitBook.addOrder at hrun
  simp only at hrun
  split at hrun
  · -- the order opens a level and is alone in it
    obtain ⟨⟨l, pool⟩, hpool, hrun⟩ := bind_eq_ok.mp hrun
    obtain ⟨b₁, hplace, hkey⟩ := bind_eq_ok.mp hrun
    set b₀ := b.modOrder o fun e => { e with prev_order_ := some o, next_order_ := some o }
    have ho₀ : Good (b₀.order o).info := good_modOrder id ho
    have h₀ : Traced Good b₀ := by
      refine h.modOrder id (fun p hp => ?_) fun p hp => ?_
      · obtain rfl := Option.some.inj hp
        exact ho
      · obtain rfl := Option.some.inj hp
        exact ho
    have hopened : Traced Good { b₀ with orders_at_price_pool_ := pool } := by
      refine h₀.setLevelPool fun k p hp => ?_
      rw [MemPool.get_allocate hpool] at hp
      split at hp
      · obtain rfl := Option.some.inj hp
        exact ho₀
      · exact h₀.first k p hp
    have hframe := addOrdersAtPrice_frame hplace
    refine hrest (hopened.frame hframe) ?_ hkey
    rw [hframe.order]
    exact ho₀
  · -- it goes behind the orders of its level
    next l _ =>
    obtain ⟨first, hfirst, hrun⟩ := bind_eq_ok.mp hrun
    obtain ⟨b₁, hlink, hkey⟩ := bind_eq_ok.mp hrun
    obtain ⟨h₁, hgood⟩ := h.linkOrder ho (h.first l first (deref_eq_ok.mp hfirst)) hlink
    exact hrest h₁ (hgood o ho) hkey

/-- **A new order with good data** leaves every pointer leading to good data. -/
theorem Traced.insertOrder (h : Traced Good b) {info : I} (hinfo : Good info)
    (hrun : b.insertOrder info = .ok b') : Traced Good b' := by
  obtain ⟨⟨o, pool⟩, hpool, hadd⟩ := bind_eq_ok.mp hrun
  obtain ⟨h₁, ho⟩ := h.allocate hinfo hpool
  exact h₁.addOrder ho hadd

end TradingEcosystem.LimitBook
