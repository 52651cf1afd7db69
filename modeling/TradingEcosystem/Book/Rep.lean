import TradingEcosystem.Book.Levels

/-!
# Representation of a Limit Order Book

`BookRep b sh` says that the memory `b` holds a book of shape `sh`: which levels each side
lists, best first, and which orders each level queues, first in first out.  It ties together
the two lists of levels, the queues, the two maps and the two pools.

The three operations of a book are specified by the orders of each side, read in priority
order (`infos`):
- `insertOrder_spec` : sorted insertion, behind the orders of the same price
- `removeOrder_spec` : the order is erased
- `modInfo_spec` : one order's data is rewritten in place
-/

namespace TradingEcosystem

open Lib.Ring Lib.SortedInsert

/-- Which levels are listed and which orders they queue. -/
structure Shape where
  bids : List ℕ
  asks : List ℕ
  queue : ℕ → List ℕ

namespace Shape

def empty : Shape := ⟨[], [], fun _ => []⟩

def levels (sh : Shape) (s : Side) : List ℕ := if s = .BUY then sh.bids else sh.asks

/-- All levels. -/
def all (sh : Shape) : List ℕ := sh.bids ++ sh.asks

/-- The orders of one side in priority order. -/
def flat (sh : Shape) (s : Side) : List ℕ := (sh.levels s).flatMap sh.queue

/-- All orders. -/
def orders (sh : Shape) : List ℕ := sh.flat .BUY ++ sh.flat .SELL

theorem mem_all {sh : Shape} {l : ℕ} : l ∈ sh.all ↔ ∃ s, s.IsTrading ∧ l ∈ sh.levels s :=
  Side.mem_append_iff (f := sh.levels)

theorem mem_flat {sh : Shape} {s : Side} {o : ℕ} :
    o ∈ sh.flat s ↔ ∃ l ∈ sh.levels s, o ∈ sh.queue l := by
  simp [flat]

theorem mem_orders {sh : Shape} {o : ℕ} : o ∈ sh.orders ↔ ∃ l ∈ sh.all, o ∈ sh.queue l := by
  simp only [orders, List.mem_append, mem_flat, all, levels]
  constructor
  · rintro (⟨l, hl, ho⟩ | ⟨l, hl, ho⟩)
    · exact ⟨l, .inl hl, ho⟩
    · exact ⟨l, .inr hl, ho⟩
  · rintro ⟨l, hl | hl, ho⟩
    · exact .inl ⟨l, hl, ho⟩
    · exact .inr ⟨l, hl, ho⟩

theorem length_levels_le {sh : Shape} {s : Side} (hs : s.IsTrading) :
    (sh.levels s).length ≤ sh.all.length := by
  rw [all, List.length_append]
  rcases hs with rfl | rfl
  · exact Nat.le_add_right ..
  · exact Nat.le_add_left ..

theorem length_flat_le {sh : Shape} {s : Side} (hs : s.IsTrading) :
    (sh.flat s).length ≤ sh.orders.length := by
  rw [orders, List.length_append]
  rcases hs with rfl | rfl
  · exact Nat.le_add_right ..
  · exact Nat.le_add_left ..

end Shape

namespace LimitBook

variable {I K : Type} [OrderInfo I K] {b b' : LimitBook I K} {sh : Shape}

/-- Next order in the queue. -/
def nextOrder (b : LimitBook I K) (o : ℕ) : Option ℕ := (b.order o).next_order_

/-- Previous order in the queue. -/
def prevOrder (b : LimitBook I K) (o : ℕ) : Option ℕ := (b.order o).prev_order_

/-- The queue of level `l` holds the orders `os` of side `s` and price `p`. -/
structure QueueRep (b : LimitBook I K) (s : Side) (p : ℤ) (first : Option ℕ) (os : List ℕ) :
    Prop where
  ne_nil : os ≠ []
  first : first = os.head?
  ring : IsRing b.nextOrder b.prevOrder os
  nodup : os.Nodup
  side : ∀ o ∈ os, OrderInfo.side (b.order o).info = s
  price : ∀ o ∈ os, OrderInfo.price (b.order o).info = p

/-- The lists of `b` have shape `sh`, and the price slots and the level pool agree with it. -/
structure Linked (b : LimitBook I K) (sh : Shape) : Prop where
  levels : ∀ s, s.IsTrading → LevelsRep b s (sh.levels s)
  queues : ∀ s, s.IsTrading → ∀ l ∈ sh.levels s,
    QueueRep b s (b.level l).price_ (b.level l).first_order_ (sh.queue l)
  slots : ∀ i l, b.price_orders_at_price_ i = some l ↔
    l ∈ sh.all ∧ priceToIndex (b.level l).price_ = i
  level_wf : b.orders_at_price_pool_.WF
  level_used : ∀ l, l ∈ b.orders_at_price_pool_.used ↔ l ∈ sh.all

/-- The memory `b` holds a book of shape `sh`. -/
structure BookRep (b : LimitBook I K) (sh : Shape) : Prop extends Linked b sh where
  keys : ∀ k o, b.key_to_order_ k = some o ↔
    o ∈ sh.orders ∧ OrderInfo.key (b.order o).info = k
  keys_inRange : ∀ o ∈ sh.orders, OrderInfo.inRange (I := I) (OrderInfo.key (b.order o).info) = true
  order_wf : b.order_pool_.WF
  order_used : ∀ o, o ∈ b.order_pool_.used ↔ o ∈ sh.orders

/-- `BookRep` for a book whose keys may repeat: a key then finds some order that carries it, or
none.  If they do not repeat (`unique`), this is `BookRep`. -/
structure Stored (unique : Prop) (b : LimitBook I K) (sh : Shape) : Prop extends Linked b sh where
  live : ∀ k o, b.key_to_order_ k = some o → o ∈ sh.orders ∧ OrderInfo.key (b.order o).info = k
  found : unique → ∀ o ∈ sh.orders, b.key_to_order_ (OrderInfo.key (b.order o).info) = some o
  keys_inRange : ∀ o ∈ sh.orders, OrderInfo.inRange (I := I) (OrderInfo.key (b.order o).info) = true
  order_wf : b.order_pool_.WF
  order_used : ∀ o, o ∈ b.order_pool_.used ↔ o ∈ sh.orders

theorem BookRep.stored (h : BookRep b sh) (unique : Prop) : Stored unique b sh where
  toLinked := h.toLinked
  live := fun k o => (h.keys k o).mp
  found := fun _ o ho => (h.keys _ o).mpr ⟨ho, rfl⟩
  keys_inRange := h.keys_inRange
  order_wf := h.order_wf
  order_used := h.order_used

theorem Stored.bookRep {unique : Prop} (h : Stored unique b sh) (hunique : unique) :
    BookRep b sh where
  toLinked := h.toLinked
  keys := by
    intro k o
    constructor
    · exact h.live k o
    · rintro ⟨ho, rfl⟩
      exact h.found hunique o ho
  keys_inRange := h.keys_inRange
  order_wf := h.order_wf
  order_used := h.order_used

/-- The orders of side `s`, best price first and first in first out within a price. -/
def infos (b : LimitBook I K) (sh : Shape) (s : Side) : List I :=
  (sh.flat s).map fun o => (b.order o).info

namespace Linked

/-- A level is listed on one side only. -/
theorem side_unique (h : Linked b sh) {s s' : Side} (hs : s.IsTrading) (hs' : s'.IsTrading)
    {l : ℕ} (hl : l ∈ sh.levels s) (hl' : l ∈ sh.levels s') : s = s' := by
  rw [← (h.levels s hs).side l hl, (h.levels s' hs').side l hl']

theorem all_nodup (h : Linked b sh) : sh.all.Nodup := by
  rw [Shape.all, List.nodup_append]
  refine ⟨(h.levels .BUY (.inl rfl)).nodup, (h.levels .SELL (.inr rfl)).nodup, ?_⟩
  rintro l hl _ hl' rfl
  cases h.side_unique (.inl rfl) (.inr rfl) hl hl'

/-- A listed level is the one its price slot holds. -/
theorem slot_of_mem (h : Linked b sh) {l : ℕ} (hl : l ∈ sh.all) :
    b.getOrdersAtPrice (b.level l).price_ = some l :=
  (h.slots _ _).mpr ⟨hl, rfl⟩

theorem queue_rep (h : Linked b sh) {l : ℕ} (hl : l ∈ sh.all) :
    ∃ s, s.IsTrading ∧ l ∈ sh.levels s ∧
      QueueRep b s (b.level l).price_ (b.level l).first_order_ (sh.queue l) := by
  obtain ⟨s, hs, hls⟩ := Shape.mem_all.mp hl
  exact ⟨s, hs, hls, h.queues s hs l hls⟩

/-- The level of a queued order is the one the slot of its price holds. -/
theorem level_of_order (h : Linked b sh) {l o : ℕ} (hl : l ∈ sh.all) (ho : o ∈ sh.queue l) :
    b.getOrdersAtPrice (OrderInfo.price (b.order o).info) = some l := by
  obtain ⟨s, _, _, hq⟩ := h.queue_rep hl
  rw [hq.price o ho]
  exact h.slot_of_mem hl

/-- An order is queued on one level only. -/
theorem level_unique (h : Linked b sh) {l l' o : ℕ} (hl : l ∈ sh.all) (hl' : l' ∈ sh.all)
    (ho : o ∈ sh.queue l) (ho' : o ∈ sh.queue l') : l = l' := by
  have heq := (h.level_of_order hl ho).symm.trans (h.level_of_order hl' ho')
  simpa using heq

theorem flat_nodup (h : Linked b sh) {s : Side} (hs : s.IsTrading) : (sh.flat s).Nodup := by
  rw [Shape.flat, List.nodup_flatMap]
  refine ⟨fun l hl => (h.queues s hs l hl).nodup, ?_⟩
  refine (h.levels s hs).nodup.imp_of_mem ?_
  intro l l' hl hl' hne o ho ho'
  exact hne (h.level_unique (Shape.mem_all.mpr ⟨s, hs, hl⟩) (Shape.mem_all.mpr ⟨s, hs, hl'⟩) ho ho')

theorem orders_nodup (h : Linked b sh) : sh.orders.Nodup := by
  rw [Shape.orders, List.nodup_append]
  refine ⟨h.flat_nodup (.inl rfl), h.flat_nodup (.inr rfl), ?_⟩
  rintro o ho _ ho' rfl
  obtain ⟨l, hl, hol⟩ := Shape.mem_flat.mp ho
  obtain ⟨l', hl', hol'⟩ := Shape.mem_flat.mp ho'
  have heq := h.level_unique (Shape.mem_all.mpr ⟨_, .inl rfl, hl⟩)
    (Shape.mem_all.mpr ⟨_, .inr rfl, hl'⟩) hol hol'
  subst heq
  cases h.side_unique (.inl rfl) (.inr rfl) hl hl'

theorem mem_orders_of_flat {s : Side} (hs : s.IsTrading) {o : ℕ} (ho : o ∈ sh.flat s) :
    o ∈ sh.orders := by
  rcases hs with rfl | rfl
  · exact List.mem_append_left _ ho
  · exact List.mem_append_right _ ho

/-- The orders of a side have that side. -/
theorem side_of_mem_flat (h : Linked b sh) {s : Side} (hs : s.IsTrading) {o : ℕ}
    (ho : o ∈ sh.flat s) : OrderInfo.side (b.order o).info = s := by
  obtain ⟨l, hl, hol⟩ := Shape.mem_flat.mp ho
  exact (h.queues s hs l hl).side o hol

theorem level_card (h : Linked b sh) : b.orders_at_price_pool_.used.card = sh.all.length := by
  have : b.orders_at_price_pool_.used = sh.all.toFinset := by
    ext l
    rw [h.level_used, List.mem_toFinset]
  rw [this, List.toFinset_card_of_nodup h.all_nodup]

/-- The first order of a side is the first one of its best level. -/
theorem front (h : Linked b sh) {s : Side} (hs : s.IsTrading) {o : ℕ} {os : List ℕ}
    (hflat : sh.flat s = o :: os) :
    ∃ l, b.best s = some l ∧ (b.level l).first_order_ = some o := by
  have hrep := h.levels s hs
  cases hls : sh.levels s with
  | nil => simp [Shape.flat, hls] at hflat
  | cons l ls =>
    have hq := h.queues s hs l (by simp [hls])
    obtain ⟨x, xs, hx⟩ := List.exists_cons_of_ne_nil hq.ne_nil
    have hxo : x = o := by
      simp only [Shape.flat, hls, List.flatMap_cons, hx, List.cons_append] at hflat
      exact (List.cons.inj hflat).1
    exact ⟨l, by rw [hrep.head, hls]; rfl, by rw [hq.first, hx, hxo]; rfl⟩

/-- A side without orders has no best level. -/
theorem best_none (h : Linked b sh) {s : Side} (hs : s.IsTrading) (hflat : sh.flat s = []) :
    b.best s = none := by
  have hrep := h.levels s hs
  cases hls : sh.levels s with
  | nil => rw [hrep.head, hls]; rfl
  | cons l ls =>
    have hq := h.queues s hs l (by simp [hls])
    simp only [Shape.flat, hls, List.flatMap_cons, List.append_eq_nil_iff] at hflat
    exact absurd hflat.1 hq.ne_nil

end Linked

namespace Stored

variable {unique : Prop}

theorem order_card (h : Stored unique b sh) : b.order_pool_.used.card = sh.orders.length := by
  have : b.order_pool_.used = sh.orders.toFinset := by
    ext o
    rw [h.order_used, List.mem_toFinset]
  rw [this, List.toFinset_card_of_nodup h.toLinked.orders_nodup]

/-- With unique keys, two linked orders with one key are one order. -/
theorem key_inj (h : Stored unique b sh) (hunique : unique) {o o' : ℕ} (ho : o ∈ sh.orders)
    (ho' : o' ∈ sh.orders)
    (heq : OrderInfo.key (b.order o).info = OrderInfo.key (b.order o').info) : o = o' := by
  have h1 := h.found hunique o ho
  have h2 := h.found hunique o' ho'
  rw [heq, h2] at h1
  exact (Option.some.inj h1).symm

end Stored

namespace BookRep

/-- A book without levels and orders. -/
theorem empty (hbids : b.bids_by_price_ = none) (hasks : b.asks_by_price_ = none)
    (hslots : ∀ i, b.price_orders_at_price_ i = none) (hkeys : ∀ k, b.key_to_order_ k = none)
    (hlwf : b.orders_at_price_pool_.WF) (howf : b.order_pool_.WF)
    (hlused : b.orders_at_price_pool_.used = ∅) (housed : b.order_pool_.used = ∅) :
    BookRep b Shape.empty where
  levels := fun s hs => by
    have hbest : b.best s = none := by
      rw [best, hbids, hasks, ite_self]
    rcases hs with rfl | rfl <;> exact ⟨hbest, IsRing.nil, by simp [Shape.levels, Shape.empty],
      by simp [Shape.levels, Shape.empty]⟩
  queues := fun s _ l hl => by simp [Shape.levels, Shape.empty] at hl
  slots := fun i l => by simp [hslots, Shape.all, Shape.empty]
  level_wf := hlwf
  level_used := fun l => by simp [hlused, Shape.all, Shape.empty]
  keys := fun k o => by simp [hkeys, Shape.orders, Shape.flat, Shape.levels, Shape.empty]
  keys_inRange := fun o ho => by simp [Shape.orders, Shape.flat, Shape.levels, Shape.empty] at ho
  order_wf := howf
  order_used := fun o => by simp [housed, Shape.orders, Shape.flat, Shape.levels, Shape.empty]

/-- Two linked orders with one key are one order. -/
theorem key_inj (h : BookRep b sh) {o o' : ℕ} (ho : o ∈ sh.orders) (ho' : o' ∈ sh.orders)
    (heq : OrderInfo.key (b.order o).info = OrderInfo.key (b.order o').info) : o = o' :=
  (h.stored True).key_inj trivial ho ho' heq

theorem order_card (h : BookRep b sh) : b.order_pool_.used.card = sh.orders.length :=
  (h.stored True).order_card

end BookRep

/-! ## Linking and unlinking an order -/

/-- A queue whose orders an operation did not touch. -/
theorem QueueRep.congr {s : Side} {p : ℤ} {first : Option ℕ} {os : List ℕ}
    (h : QueueRep b s p first os) (horder : ∀ o ∈ os, b'.order o = b.order o) :
    QueueRep b' s p first os where
  ne_nil := h.ne_nil
  first := h.first
  ring := h.ring.congr (fun o ho => by simp only [nextOrder, horder o ho])
    (fun o ho => by simp only [prevOrder, horder o ho])
  nodup := h.nodup
  side := fun o ho => by rw [horder o ho]; exact h.side o ho
  price := fun o ho => by rw [horder o ho]; exact h.price o ho

/-- `b'` differs from `b` at most in the links between orders. -/
structure OrderFrame (b b' : LimitBook I K) : Prop where
  level_pool : b'.orders_at_price_pool_ = b.orders_at_price_pool_
  bids : b'.bids_by_price_ = b.bids_by_price_
  asks : b'.asks_by_price_ = b.asks_by_price_
  slots : b'.price_orders_at_price_ = b.price_orders_at_price_
  keys : b'.key_to_order_ = b.key_to_order_
  used : b'.order_pool_.used = b.order_pool_.used
  size : b'.order_pool_.size = b.order_pool_.size
  wf : b.order_pool_.WF → b'.order_pool_.WF
  info : ∀ o, (b'.order o).info = (b.order o).info

namespace OrderFrame

omit [OrderInfo I K]

theorem refl (b : LimitBook I K) : OrderFrame b b :=
  ⟨rfl, rfl, rfl, rfl, rfl, rfl, rfl, id, fun _ => rfl⟩

theorem modOrder (h : OrderFrame b b') {o : ℕ} {f : QueuedOrder I → QueuedOrder I}
    (hinfo : ∀ e, (f e).info = e.info) : OrderFrame b (b'.modOrder o f) where
  level_pool := h.level_pool
  bids := h.bids
  asks := h.asks
  slots := h.slots
  keys := h.keys
  used := (MemPool.used_modify ..).trans h.used
  size := h.size
  wf := fun hwf => (h.wf hwf).modify o f
  info := fun k => by
    by_cases hk : k = o
    · simp [hk, hinfo, h.info]
    · simp [hk, h.info]

theorem level (h : OrderFrame b b') (l : ℕ) : b'.level l = b.level l := by
  simp only [LimitBook.level, h.level_pool]

theorem best (h : OrderFrame b b') (s : Side) : b'.best s = b.best s := by
  simp only [LimitBook.best, h.bids, h.asks]

end OrderFrame

omit [OrderInfo I K] in
/-- Linking an order behind the last one of a ring of orders. -/
theorem linkOrder_spec {x o : ℕ} {xs : List ℕ} (hring : IsRing b.nextOrder b.prevOrder (x :: xs))
    (hnd : (x :: xs).Nodup) (ho : o ∉ x :: xs) :
    ∃ b', b.linkOrder x o = .ok b' ∧ OrderFrame b b' ∧
      IsRing b'.nextOrder b'.prevOrder (x :: xs ++ [o]) ∧
      ∀ k, k ≠ o → k ∉ x :: xs → b'.order k = b.order k := by
  obtain ⟨-, -, init, u, -, hu, -, hu_mem⟩ := exists_ends (List.cons_ne_nil x xs)
  have hprev : (b.order x).prev_order_ = some u := (hring.closing hu).2
  have huo : u ≠ o := fun he => ho (he ▸ hu_mem)
  have hxo : x ≠ o := fun he => ho (by simp [he])
  set b₁ := b.modOrder u fun e => { e with next_order_ := some o } with hb₁
  have hprev₁ : (b₁.order x).prev_order_ = some u := by
    by_cases hxu : x = u
    · subst hxu
      simpa [hb₁] using hprev
    · simpa [hb₁, hxu] using hprev
  set b₂ := b₁.modOrder o fun e => { e with prev_order_ := (b₁.order x).prev_order_ } with hb₂
  set b₃ := b₂.modOrder o fun e => { e with next_order_ := some x } with hb₃
  set b₄ := b₃.modOrder x fun e => { e with prev_order_ := some o } with hb₄
  have hnext₄ : ∀ k, b₄.nextOrder k =
      if k = u then some o else if k = o then some x else b.nextOrder k := by
    intro k
    simp only [nextOrder, hb₄, hb₃, hb₂, hb₁, order_modOrder]
    grind
  have hprev₄ : ∀ k, b₄.prevOrder k =
      if k = x then some o else if k = o then some u else b.prevOrder k := by
    intro k
    simp only [prevOrder, hb₄, hb₃, hb₂, hprev₁, order_modOrder]
    simp only [hb₁, order_modOrder]
    grind
  refine ⟨b₄, ?_, ?_, ?_, ?_⟩
  · simp only [linkOrder, hprev, deref_some, ok_bind]
    rfl
  · iterate 4 refine OrderFrame.modOrder ?_ (fun _ => rfl)
    exact OrderFrame.refl b
  · refine hring.snoc hnd hu ho ?_ ?_ ?_ ?_ ?_ ?_
    · simp [hnext₄]
    · simp [hnext₄, huo.symm]
    · simp [hprev₄, hxo.symm]
    · simp [hprev₄]
    · intro k hku hko
      simp [hnext₄, hku, hko]
    · intro k hkx hko
      simp [hprev₄, hkx, hko]
  · intro k hko hk
    have hkx : k ≠ x := fun he => hk (by simp [he])
    have hku : k ≠ u := fun he => hk (he ▸ hu_mem)
    simp [hb₄, hb₃, hb₂, hb₁, hkx, hko, hku]

/-- What unlinking order `o` from the queue `os` of level `l` did. -/
structure UnlinkedOrder (b b' : LimitBook I K) (l : ℕ) (os : List ℕ) (o : ℕ) : Prop where
  bids : b'.bids_by_price_ = b.bids_by_price_
  asks : b'.asks_by_price_ = b.asks_by_price_
  slots : b'.price_orders_at_price_ = b.price_orders_at_price_
  keys : b'.key_to_order_ = b.key_to_order_
  order_used : b'.order_pool_.used = b.order_pool_.used
  order_size : b'.order_pool_.size = b.order_pool_.size
  order_wf : b.order_pool_.WF → b'.order_pool_.WF
  level_used : b'.orders_at_price_pool_.used = b.orders_at_price_pool_.used
  level_size : b'.orders_at_price_pool_.size = b.orders_at_price_pool_.size
  level_wf : b.orders_at_price_pool_.WF → b'.orders_at_price_pool_.WF
  info : ∀ k, (b'.order k).info = (b.order k).info
  level : ∀ k, b'.level k =
    if k = l then { b.level l with first_order_ := (os.erase o).head? } else b.level k
  ring : IsRing b'.nextOrder b'.prevOrder (os.erase o)
  order_other : ∀ k, k ∉ os → b'.order k = b.order k

/-- Unlinking an order from a queue of at least two. -/
theorem unlinkOrder_spec {l o : ℕ} {os : List ℕ} (hring : IsRing b.nextOrder b.prevOrder os)
    (hnd : os.Nodup) (ho : o ∈ os) (hne : os.erase o ≠ [])
    (hlevel : b.getOrdersAtPrice (OrderInfo.price (b.order o).info) = some l)
    (hfirst : (b.level l).first_order_ = os.head?) :
    ∃ b', b.unlinkOrder o = .ok b' ∧ UnlinkedOrder b b' l os o := by
  obtain ⟨u, v, h⟩ := hring.exists_unlinking hnd ho hne
  have hnext : (b.order o).next_order_ = some v := h.next_eq
  have hprev : (b.order o).prev_order_ = some u := h.prev_eq
  have ho_not : o ∉ os.erase o := hnd.not_mem_erase
  have hou : o ≠ u := fun he => ho_not (he ▸ h.prev_mem)
  have hov : o ≠ v := fun he => ho_not (he ▸ h.next_mem)
  -- the four writes of the code, the third only when the level's first order is unlinked
  set b₁ := b.modOrder u fun e => { e with next_order_ := some v } with hb₁
  set b₂ := b₁.modOrder v fun e => { e with prev_order_ := some u } with hb₂
  set b₃ := if (b₂.level l).first_order_ = some o then
      b₂.modLevel l fun e => { e with first_order_ := some v } else b₂ with hb₃
  set b₄ := b₃.modOrder o fun e => { e with prev_order_ := none, next_order_ := none } with hb₄
  have hframe₂ : OrderFrame b b₂ := by
    iterate 2 refine OrderFrame.modOrder ?_ (fun _ => rfl)
    exact OrderFrame.refl b
  have horder₃ : ∀ k, b₃.order k = b₂.order k := by
    intro k
    rw [hb₃]
    split <;> rfl
  have hnext₄ : ∀ k, k ≠ o → b₄.nextOrder k = if k = u then some v else b.nextOrder k := by
    intro k hk
    simp only [nextOrder, hb₄, order_modOrder, hk, if_false, horder₃, hb₂, hb₁]
    grind
  have hprev₄ : ∀ k, k ≠ o → b₄.prevOrder k = if k = v then some u else b.prevOrder k := by
    intro k hk
    simp only [prevOrder, hb₄, order_modOrder, hk, if_false, horder₃, hb₂, hb₁]
    grind
  refine ⟨b₄, ?_, ?_⟩
  · simp only [unlinkOrder, hnext, hprev, hlevel, deref_some, ok_bind]
    rfl
  have h₃ : b₃.bids_by_price_ = b.bids_by_price_ ∧ b₃.asks_by_price_ = b.asks_by_price_ ∧
      b₃.price_orders_at_price_ = b.price_orders_at_price_ ∧
      b₃.key_to_order_ = b.key_to_order_ ∧ b₃.order_pool_ = b₂.order_pool_ ∧
      b₃.orders_at_price_pool_.used = b.orders_at_price_pool_.used ∧
      b₃.orders_at_price_pool_.size = b.orders_at_price_pool_.size ∧
      (b.orders_at_price_pool_.WF → b₃.orders_at_price_pool_.WF) := by
    rw [hb₃]
    split
    · exact ⟨rfl, rfl, rfl, rfl, rfl, MemPool.used_modify .., rfl, fun h => h.modify _ _⟩
    · exact ⟨rfl, rfl, rfl, rfl, rfl, rfl, rfl, id⟩
  obtain ⟨hbids, hasks, hslots, hkeys, hpool, hused, hsize, hwf⟩ := h₃
  have hinfo : ∀ k, (b₄.order k).info = (b.order k).info := by
    intro k
    by_cases hk : k = o
    · simp [hb₄, hk, horder₃, hframe₂.info]
    · simp [hb₄, hk, horder₃, hframe₂.info]
  refine ⟨hbids, hasks, hslots, hkeys, ?_, ?_, ?_, hused, hsize, hwf, hinfo, ?_, ?_, ?_⟩
  · exact (MemPool.used_modify ..).trans (hpool ▸ hframe₂.used)
  · exact (congrArg MemPool.size hpool).trans hframe₂.size
  · exact fun h => MemPool.WF.modify (hpool ▸ hframe₂.wf h) _ _
  · intro k
    rw [hb₄, level_modOrder, hb₃]
    by_cases hf : (b.level l).first_order_ = some o
    · rw [if_pos (by rw [hframe₂.level]; exact hf), level_modLevel, h.head (hfirst ▸ hf),
        hframe₂.level, hframe₂.level]
    · rw [if_neg (by rw [hframe₂.level]; exact hf), h.head_other (hfirst ▸ hf), ← hfirst,
        hframe₂.level]
      by_cases hk : k = l
      · simp [hk]
      · simp [hk]
  · refine h.ring ?_ ?_ ?_ ?_
    · simp [hnext₄ u hou.symm]
    · simp [hprev₄ v hov.symm]
    · intro k hko hku
      simp [hnext₄ k hko, hku]
    · intro k hko hkv
      simp [hprev₄ k hko, hkv]
  · intro k hk
    have hko : k ≠ o := fun he => hk (he ▸ ho)
    have hku : k ≠ u := fun he => hk (he ▸ List.mem_of_mem_erase h.prev_mem)
    have hkv : k ≠ v := fun he => hk (he ▸ List.mem_of_mem_erase h.next_mem)
    simp [hb₄, hko, horder₃, hb₂, hb₁, hku, hkv]

end LimitBook

end TradingEcosystem
