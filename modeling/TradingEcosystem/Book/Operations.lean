import TradingEcosystem.Book.Rep

/-!
# Operations of a Limit Order Book

Specifications of `insertOrder` and `removeOrder` over the representation of `Rep.lean`.

Four lemmas say what the shape becomes when an order joins a queue (`Linked.appendOrder`), when
it opens a level (`Linked.openLevel`), when it leaves a queue (`Linked.leaveQueue`) and when it
closes its level (`Linked.closeLevel`).  The two maps and the order pool are added on top.
-/

namespace TradingEcosystem

open Lib.Ring Lib.SortedInsert

namespace Shape

def setLevels (sh : Shape) (s : Side) (ls : List ℕ) : Shape :=
  if s = .BUY then { sh with bids := ls } else { sh with asks := ls }

def setQueue (sh : Shape) (l : ℕ) (os : List ℕ) : Shape :=
  { sh with queue := fun k => if k = l then os else sh.queue k }

theorem levels_setLevels {sh : Shape} {s s' : Side} (hs : s.IsTrading) (hs' : s'.IsTrading)
    (ls : List ℕ) : (sh.setLevels s ls).levels s' = if s' = s then ls else sh.levels s' := by
  rcases hs with rfl | rfl <;> rcases hs' with rfl | rfl <;> rfl

@[simp] theorem queue_setLevels (sh : Shape) (s : Side) (ls : List ℕ) :
    (sh.setLevels s ls).queue = sh.queue := by
  unfold setLevels
  split <;> rfl

@[simp] theorem levels_setQueue (sh : Shape) (l : ℕ) (os : List ℕ) (s : Side) :
    (sh.setQueue l os).levels s = sh.levels s := rfl

@[simp] theorem all_setQueue (sh : Shape) (l : ℕ) (os : List ℕ) :
    (sh.setQueue l os).all = sh.all := rfl

theorem queue_setQueue (sh : Shape) (l : ℕ) (os : List ℕ) (k : ℕ) :
    (sh.setQueue l os).queue k = if k = l then os else sh.queue k := rfl

/-- A queue that is not on the list does not matter to the orders of a side. -/
theorem flatMap_setQueue {sh : Shape} {l : ℕ} {os ls : List ℕ} (hl : l ∉ ls) :
    ls.flatMap (sh.setQueue l os).queue = ls.flatMap sh.queue := by
  rw [List.flatMap_def, List.flatMap_def]
  congr 1
  refine List.map_congr_left fun k hk => ?_
  rw [queue_setQueue, if_neg]
  rintro rfl
  exact hl hk

theorem mem_orders_iff_flat {sh : Shape} {o : ℕ} :
    o ∈ sh.orders ↔ ∃ s, s.IsTrading ∧ o ∈ sh.flat s :=
  Side.mem_append_iff

end Shape

namespace LimitBook

variable {I K : Type} [OrderInfo I K] {b b' : LimitBook I K} {sh : Shape}

/-! ## Changes of shape -/

/-- `x` is served before `y` because of its price, on side `s`. -/
def Precedes (s : Side) (x y : I) : Prop :=
  s.better (OrderInfo.price x) (OrderInfo.price y) = true

instance (s : Side) : DecidableRel (Precedes (I := I) s) :=
  fun _ _ => inferInstanceAs (Decidable (_ = _))

namespace Linked

variable {s : Side} {l o : ℕ}

/-- Orders of a better level precede, orders of a worse level are preceded. -/
theorem better_of_split (h : Linked b sh) (hs : s.IsTrading) {L R : List ℕ}
    (hsplit : sh.levels s = L ++ l :: R) :
    (∀ x ∈ L.flatMap sh.queue, s.better (OrderInfo.price (b.order x).info) (b.level l).price_ = true) ∧
    (∀ x ∈ R.flatMap sh.queue, s.better (b.level l).price_ (OrderInfo.price (b.order x).info) = true) := by
  have hsorted := (h.levels s hs).sorted
  have hq := h.queues s hs
  rw [hsplit] at hsorted hq
  rw [List.pairwise_append] at hsorted
  constructor
  · intro x hx
    obtain ⟨k, hk, hxk⟩ := List.mem_flatMap.mp hx
    rw [(hq k (by simp [hk])).price x hxk]
    exact hsorted.2.2 k hk l (by simp)
  · intro x hx
    obtain ⟨k, hk, hxk⟩ := List.mem_flatMap.mp hx
    rw [(hq k (by simp [hk])).price x hxk]
    exact (List.pairwise_cons.mp hsorted.2.1).1 k hk

/-- An order joins the queue of its level. -/
theorem appendOrder (h : Linked b sh) (hs : s.IsTrading) (hl : l ∈ sh.levels s)
    (ho : o ∉ sh.orders) (hside : OrderInfo.side (b.order o).info = s)
    (hprice : OrderInfo.price (b.order o).info = (b.level l).price_)
    (hframe : OrderFrame b b') (hring : IsRing b'.nextOrder b'.prevOrder (sh.queue l ++ [o]))
    (hother : ∀ k, k ≠ o → k ∉ sh.queue l → b'.order k = b.order k) :
    Linked b' (sh.setQueue l (sh.queue l ++ [o])) where
  levels := fun s' hs' => (h.levels s' hs').congr (hframe.best s') fun k _ => hframe.level k
  queues := by
    intro s' hs' k hk
    rw [hframe.level, Shape.queue_setQueue]
    have hoq : o ∉ sh.queue k := fun hok =>
      ho (Shape.mem_orders.mpr ⟨k, Shape.mem_all.mpr ⟨s', hs', hk⟩, hok⟩)
    by_cases hkl : k = l
    · subst hkl
      obtain rfl : s' = s := h.side_unique hs' hs hk hl
      have hq := h.queues s' hs k hl
      rw [if_pos rfl]
      refine ⟨by simp, ?_, hring, ?_, ?_, ?_⟩
      · obtain ⟨x, xs, hx⟩ := List.exists_cons_of_ne_nil hq.ne_nil
        rw [hq.first, hx]
        rfl
      · exact List.nodup_append.mpr ⟨hq.nodup, by simp, by
          rintro x hx y hy rfl
          rw [List.mem_singleton] at hy
          exact hoq (hy ▸ hx)⟩
      · intro x hx
        rw [hframe.info]
        rcases List.mem_append.mp hx with hx | hx
        · exact hq.side x hx
        · rw [List.mem_singleton.mp hx]
          exact hside
      · intro x hx
        rw [hframe.info]
        rcases List.mem_append.mp hx with hx | hx
        · exact hq.price x hx
        · rw [List.mem_singleton.mp hx]
          exact hprice
    · rw [if_neg hkl]
      refine (h.queues s' hs' k hk).congr fun x hx => hother x ?_ ?_
      · rintro rfl
        exact hoq hx
      · intro hxl
        exact hkl (h.level_unique (Shape.mem_all.mpr ⟨s', hs', hk⟩)
          (Shape.mem_all.mpr ⟨s, hs, hl⟩) hx hxl)
  slots := fun i k => by
    rw [hframe.slots, hframe.level]
    exact h.slots i k
  level_wf := hframe.level_pool ▸ h.level_wf
  level_used := fun k => by rw [hframe.level_pool]; exact h.level_used k

/-- The orders of the sides after an order joined a queue. -/
theorem flat_appendOrder (h : Linked b sh) (hs : s.IsTrading) (hl : l ∈ sh.levels s)
    (hprice : OrderInfo.price (b.order o).info = (b.level l).price_) {s' : Side}
    (hs' : s'.IsTrading) :
    ((sh.setQueue l (sh.queue l ++ [o])).flat s').map (fun x => (b.order x).info) =
      if s' = s then (infos b sh s).orderedInsert (Precedes s) (b.order o).info
      else infos b sh s' := by
  have hnd := (h.levels s hs).nodup
  obtain ⟨L, R, hsplit⟩ := List.append_of_mem hl
  rw [hsplit] at hnd
  have hlL : l ∉ L := fun h => (List.nodup_append.mp hnd).2.2 l h l (by simp) rfl
  have hlR : l ∉ R := (List.nodup_cons.mp (List.nodup_append.mp hnd).2.1).1
  by_cases hss : s' = s
  · subst hss
    obtain ⟨hbefore, hafter⟩ := h.better_of_split hs hsplit
    have hq := h.queues s' hs l hl
    rw [if_pos rfl]
    simp only [infos, Shape.flat, Shape.levels_setQueue, hsplit, List.flatMap_append,
      List.flatMap_cons, Shape.flatMap_setQueue hlL, Shape.flatMap_setQueue hlR,
      Shape.queue_setQueue, if_true, List.map_append, List.map_cons,
      List.append_assoc, List.singleton_append]
    rw [← List.append_assoc, ← List.append_assoc]
    -- behind the orders of its own level as well, which have its price
    refine (orderedInsert_append ?_ ?_).symm
    · intro x hx
      rw [← List.map_append, List.mem_map] at hx
      obtain ⟨y, hy, rfl⟩ := hx
      simp only [Precedes, hprice, Bool.not_eq_true]
      rcases List.mem_append.mp hy with hy | hy
      · exact Side.better_asymm (hbefore y hy)
      · rw [hq.price y hy]
        exact Side.better_irrefl ..
    · intro x hx
      obtain ⟨y, hy, rfl⟩ := List.mem_map.mp (List.mem_of_mem_head? hx)
      simp only [Precedes, hprice]
      exact hafter y hy
  · rw [if_neg hss, infos, Shape.flat, Shape.levels_setQueue, Shape.flatMap_setQueue]
    · rfl
    · intro hl'
      exact hss (h.side_unique hs' hs hl' hl)

end Linked

/-- The memory when `addOrdersAtPrice` is called for order `o`: it is linked to itself and level
`l` has been allocated for it. -/
def placeOrder (b : LimitBook I K) (o : ℕ) (pool : MemPool OrdersAtPrice) : LimitBook I K :=
  { b.modOrder o fun e => { e with prev_order_ := some o, next_order_ := some o } with
    orders_at_price_pool_ := pool }

/-- The level allocated for order `o`. -/
def levelFor (b : LimitBook I K) (o : ℕ) : OrdersAtPrice where
  side_ := OrderInfo.side (b.order o).info
  price_ := OrderInfo.price (b.order o).info
  first_order_ := some o

namespace Linked

variable {s : Side} {l o : ℕ} {pool : MemPool OrdersAtPrice}

/-- The shape after order `o` opened level `l`. -/
theorem mem_levels_insert {ls : List ℕ} {r : ℕ → ℕ → Prop} [DecidableRel r] (hs : s.IsTrading)
    {s' : Side} (hs' : s'.IsTrading) {k : ℕ} (hls : sh.levels s = ls) :
    k ∈ ((sh.setLevels s (ls.orderedInsert r l)).setQueue l [o]).levels s' ↔
      (k = l ∧ s' = s) ∨ k ∈ sh.levels s' := by
  rw [Shape.levels_setQueue, Shape.levels_setLevels hs hs']
  by_cases hss : s' = s
  · subst hss
    simp [List.mem_orderedInsert, hls]
  · simp [hss]

theorem mem_all_insert {ls : List ℕ} {r : ℕ → ℕ → Prop} [DecidableRel r] (hs : s.IsTrading)
    (hls : sh.levels s = ls) (k : ℕ) :
    k ∈ ((sh.setLevels s (ls.orderedInsert r l)).setQueue l [o]).all ↔ k = l ∨ k ∈ sh.all := by
  simp only [Shape.mem_all]
  constructor
  · rintro ⟨s', hs', hk⟩
    rcases (mem_levels_insert hs hs' hls).mp hk with ⟨rfl, -⟩ | hk
    · exact .inl rfl
    · exact .inr ⟨s', hs', hk⟩
  · rintro (rfl | ⟨s', hs', hk⟩)
    · exact ⟨s, hs, (mem_levels_insert hs hs hls).mpr (.inl ⟨rfl, rfl⟩)⟩
    · exact ⟨s', hs', (mem_levels_insert hs hs' hls).mpr (.inr hk)⟩

/-- No listed level uses an empty price slot. -/
theorem slot_empty (h : Linked b sh) {p : ℤ} (hslot : b.getOrdersAtPrice p = none) {k : ℕ}
    (hk : k ∈ sh.all) : priceToIndex (b.level k).price_ ≠ priceToIndex p := by
  intro heq
  have hsome : b.getOrdersAtPrice p = some k := (h.slots _ k).mpr ⟨hk, heq⟩
  rw [hslot] at hsome
  cases hsome

/-- The level allocated for an order whose price slot is empty is added to the list of its side. -/
theorem place (h : Linked b sh) (hs : s.IsTrading) (hside : OrderInfo.side (b.order o).info = s)
    (hslot : b.getOrdersAtPrice (OrderInfo.price (b.order o).info) = none)
    (halloc : MemPool.Allocated b.orders_at_price_pool_ (b.levelFor o) l pool) :
    ∃ b₁, (b.placeOrder o pool).addOrdersAtPrice l = .ok b₁ ∧
      AddedLevel (b.placeOrder o pool) b₁ s (sh.levels s) l ∧
      ∀ k, (b₁.order k).info = (b.order k).info := by
  have hl : l ∉ sh.all := fun hl => halloc.fresh ((h.level_used l).mpr hl)
  have hlevel : ∀ k, (b.placeOrder o pool).level k = if k = l then b.levelFor o else b.level k :=
    halloc.get
  have hnew : (b.placeOrder o pool).level l = b.levelFor o := by rw [hlevel, if_pos rfl]
  have hne : ∀ k ∈ sh.levels s, k ≠ l := fun k hk he => hl (Shape.mem_all.mpr ⟨s, hs, he ▸ hk⟩)
  have hlevels : LevelsRep (b.placeOrder o pool) s (sh.levels s) :=
    (h.levels s hs).congr rfl fun k hk => by rw [hlevel, if_neg (hne k hk)]
  have hprice : ∀ k ∈ sh.levels s, ((b.placeOrder o pool).level k).price_ ≠
      ((b.placeOrder o pool).level l).price_ := by
    intro k hk heq
    rw [hlevel, if_neg (hne k hk), hnew] at heq
    exact h.slot_empty hslot (Shape.mem_all.mpr ⟨s, hs, hk⟩) (congrArg priceToIndex heq)
  have hsize : (sh.levels s).length ≤ (b.placeOrder o pool).orders_at_price_pool_.size := by
    have hall : (sh.levels s).length ≤ sh.all.length := Shape.length_levels_le hs
    rw [show (b.placeOrder o pool).orders_at_price_pool_.size = b.orders_at_price_pool_.size from
      halloc.size]
    exact hall.trans (h.level_card ▸ h.level_wf.used_card_lt).le
  obtain ⟨b₁, hrun, hadd⟩ := addOrdersAtPrice_spec hs hlevels (by rw [hnew]; exact hside)
    (fun hk => hne l hk rfl) hprice hsize
  refine ⟨b₁, hrun, hadd, fun k => ?_⟩
  rw [hadd.frame.order]
  by_cases hk : k = o
  · simp [placeOrder, LimitBook.order, LimitBook.modOrder, hk]
  · simp [placeOrder, LimitBook.order, LimitBook.modOrder, hk]

/-- An order opens a level of its own. -/
theorem openLevel (h : Linked b sh) (hs : s.IsTrading) (ho : o ∉ sh.orders)
    (hside : OrderInfo.side (b.order o).info = s)
    (hslot : b.getOrdersAtPrice (OrderInfo.price (b.order o).info) = none)
    (halloc : MemPool.Allocated b.orders_at_price_pool_ (b.levelFor o) l pool)
    (hadd : AddedLevel (b.placeOrder o pool) b' s (sh.levels s) l) :
    Linked b' ((sh.setLevels s
      ((sh.levels s).orderedInsert ((b.placeOrder o pool).Listed s) l)).setQueue l [o]) := by
  have hl : l ∉ sh.all := fun hl => halloc.fresh ((h.level_used l).mpr hl)
  have hlevel : ∀ k, (b.placeOrder o pool).level k = if k = l then b.levelFor o else b.level k :=
    halloc.get
  have horder : ∀ k, k ≠ o → b'.order k = b.order k := fun k hk => by
    rw [hadd.frame.order]
    simp [placeOrder, LimitBook.order, LimitBook.modOrder, hk]
  have hself : b'.order o = ⟨(b.order o).info, some o, some o⟩ := by
    rw [hadd.frame.order]
    simp [placeOrder, LimitBook.order, LimitBook.modOrder]
  have hprice : ∀ k, (b'.level k).price_ =
      if k = l then OrderInfo.price (b.order o).info else (b.level k).price_ := by
    intro k
    rw [hadd.frame.price, hlevel]
    split <;> rfl
  have hfirst : ∀ k, (b'.level k).first_order_ =
      if k = l then some o else (b.level k).first_order_ := by
    intro k
    rw [hadd.frame.first, hlevel]
    split <;> rfl
  have hall := mem_all_insert (r := (b.placeOrder o pool).Listed s) (l := l) (o := o) hs
    (rfl : sh.levels s = _)
  refine ⟨?levels, ?queues, ?slots, hadd.frame.wf halloc.wf, ?used⟩
  case levels =>
    intro s' hs'
    rw [Shape.levels_setQueue, Shape.levels_setLevels hs hs']
    by_cases hss : s' = s
    · subst hss
      rw [if_pos rfl]
      exact hadd.rep
    · rw [if_neg hss]
      refine (h.levels s' hs').congr (hadd.best_other s' hs' hss) ?_
      intro k hk
      have hkl : k ≠ l := fun he => hl (Shape.mem_all.mpr ⟨s', hs', he ▸ hk⟩)
      have hks : k ∉ sh.levels s := fun hks => hss (h.side_unique hs' hs hk hks)
      rw [hadd.level_other k hkl hks, hlevel, if_neg hkl]
  case queues =>
    intro s' hs' k hk
    rw [hprice, hfirst, Shape.queue_setQueue]
    rcases (mem_levels_insert hs hs' rfl).mp hk with ⟨rfl, rfl⟩ | hold
    · -- the new level: a ring of the one order
      rw [if_pos rfl, if_pos rfl, if_pos rfl]
      refine ⟨by simp, rfl, ?_, by simp, ?_, ?_⟩
      · rw [IsRing.singleton_iff]
        simp [nextOrder, prevOrder, hself]
      · intro x hx
        rw [List.mem_singleton.mp hx, hself]
        exact hside
      · intro x hx
        rw [List.mem_singleton.mp hx, hself]
    · have hkl : k ≠ l := fun he => hl (Shape.mem_all.mpr ⟨s', hs', he ▸ hold⟩)
      rw [if_neg hkl, if_neg hkl, if_neg hkl, Shape.queue_setLevels]
      refine (h.queues s' hs' k hold).congr fun x hx => horder x ?_
      rintro rfl
      exact ho (Shape.mem_orders.mpr ⟨k, Shape.mem_all.mpr ⟨s', hs', hold⟩, hx⟩)
  case slots =>
    intro i k
    rw [hall, hprice, hadd.slots, hlevel, if_pos rfl]
    change (if i = priceToIndex (OrderInfo.price (b.order o).info) then some l
      else b.price_orders_at_price_ i) = some k ↔ _
    by_cases hi : i = priceToIndex (OrderInfo.price (b.order o).info)
    · subst hi
      rw [if_pos rfl, Option.some.injEq]
      by_cases hkl : k = l
      · simp [hkl]
      · rw [if_neg hkl]
        simp only [hkl, false_or]
        -- the slot was empty, so no listed level leads to it
        exact ⟨fun he => absurd he.symm hkl, fun hk => absurd hk.2 (h.slot_empty hslot hk.1)⟩
    · rw [if_neg hi, h.slots]
      by_cases hkl : k = l
      · subst hkl
        simp [hl, Ne.symm hi]
      · simp [hkl]
  case used =>
    intro k
    rw [hall, hadd.frame.used]
    change k ∈ pool.used ↔ _
    rw [halloc.used, Finset.mem_insert, h.level_used]

/-- The orders of the sides after an order opened a level. -/
theorem flat_openLevel (h : Linked b sh) (hs : s.IsTrading)
    (halloc : MemPool.Allocated b.orders_at_price_pool_ (b.levelFor o) l pool) {s' : Side}
    (hs' : s'.IsTrading) :
    (((sh.setLevels s ((sh.levels s).orderedInsert
      ((b.placeOrder o pool).Listed s) l)).setQueue l [o]).flat s').map (fun x => (b.order x).info) =
      if s' = s then (infos b sh s).orderedInsert (Precedes s) (b.order o).info
      else infos b sh s' := by
  have hl : l ∉ sh.all := fun hl => halloc.fresh ((h.level_used l).mpr hl)
  have hlevel : ∀ k, (b.placeOrder o pool).level k = if k = l then b.levelFor o else b.level k :=
    halloc.get
  rw [Shape.flat, Shape.levels_setQueue, Shape.levels_setLevels hs hs']
  by_cases hss : s' = s
  · subst hss
    rw [if_pos rfl, if_pos rfl]
    have hls : l ∉ sh.levels s' := fun hk => hl (Shape.mem_all.mpr ⟨s', hs', hk⟩)
    obtain ⟨L, R, hsplit, hins, hL, hR⟩ :=
      orderedInsert_split (r := (b.placeOrder o pool).Listed s') l (sh.levels s')
    rw [hsplit] at hls
    have hlL : l ∉ L := fun hk => hls (List.mem_append_left _ hk)
    have hlR : l ∉ R := fun hk => hls (List.mem_append_right _ hk)
    have hlisted : ∀ k, k ≠ l → ((b.placeOrder o pool).Listed s' l k ↔
        s'.better (OrderInfo.price (b.order o).info) (b.level k).price_ = true) := by
      intro k hk
      simp only [Listed, hlevel, if_true, if_neg hk]
      rfl
    have hq : ∀ k ∈ L ++ R, QueueRep b s' (b.level k).price_ (b.level k).first_order_ (sh.queue k) :=
      fun k hk => h.queues s' hs' k (hsplit ▸ hk)
    rw [hins]
    simp only [infos, Shape.flat, hsplit, List.flatMap_append, List.flatMap_cons,
      Shape.flatMap_setQueue hlL, Shape.flatMap_setQueue hlR, Shape.queue_setLevels,
      Shape.queue_setQueue, if_true, List.map_append, List.map_cons, List.singleton_append]
    -- the orders of the better levels come before the new one, those of the worse levels after it
    refine (orderedInsert_append ?_ ?_).symm
    · intro x hx
      obtain ⟨y, hy, rfl⟩ := List.mem_map.mp hx
      obtain ⟨k, hk, hyk⟩ := List.mem_flatMap.mp hy
      have hkl : k ≠ l := fun he => hlL (he ▸ hk)
      rw [Precedes, (hq k (List.mem_append_left _ hk)).price y hyk, ← hlisted k hkl]
      exact hL k hk
    · intro x hx
      cases R with
      | nil => simp at hx
      | cons r R =>
        have hrl : r ≠ l := fun he => hlR (by simp [he])
        have hqr := hq r (by simp)
        obtain ⟨y, ys, hy⟩ := List.exists_cons_of_ne_nil hqr.ne_nil
        obtain rfl : (b.order y).info = x := by simpa [hy] using hx
        rw [Precedes, hqr.price y (by simp [hy]), ← hlisted r hrl]
        exact hR r rfl
  · rw [if_neg hss, if_neg hss, Shape.flatMap_setQueue, Shape.queue_setLevels]
    · rfl
    · exact fun hk => hl (Shape.mem_all.mpr ⟨s', hs', hk⟩)

/-- An order leaves a queue it shares with others. -/
theorem leaveQueue (h : Linked b sh) (hs : s.IsTrading) (hl : l ∈ sh.levels s)
    (hne : (sh.queue l).erase o ≠ []) (hun : UnlinkedOrder b b' l (sh.queue l) o) :
    Linked b' (sh.setQueue l ((sh.queue l).erase o)) := by
  have hfields : ∀ k, (b'.level k).side_ = (b.level k).side_ ∧
      (b'.level k).price_ = (b.level k).price_ ∧ (b'.level k).next_entry_ = (b.level k).next_entry_ ∧
      (b'.level k).prev_entry_ = (b.level k).prev_entry_ := by
    intro k
    rw [hun.level]
    split
    · next hk => simp [hk]
    · simp
  refine ⟨?levels, ?queues, ?slots, hun.level_wf h.level_wf, ?used⟩
  case levels =>
    intro s' hs'
    refine (h.levels s' hs').congr_links ?_ fun k _ => hfields k
    simp only [LimitBook.best, hun.bids, hun.asks]
  case queues =>
    intro s' hs' k hk
    rw [(hfields k).2.1, hun.level, Shape.queue_setQueue]
    have hq := h.queues s' hs' k hk
    by_cases hkl : k = l
    · subst hkl
      rw [if_pos rfl, if_pos rfl]
      refine ⟨hne, rfl, hun.ring, hq.nodup.erase o, ?_, ?_⟩
      · intro x hx
        rw [hun.info]
        exact hq.side x (List.mem_of_mem_erase hx)
      · intro x hx
        rw [hun.info]
        exact hq.price x (List.mem_of_mem_erase hx)
    · -- the queues of the other levels have no order in common with it
      rw [if_neg hkl, if_neg hkl]
      refine hq.congr fun x hx => hun.order_other x fun hxl => hkl ?_
      exact h.level_unique (Shape.mem_all.mpr ⟨s', hs', hk⟩) (Shape.mem_all.mpr ⟨s, hs, hl⟩) hx hxl
  case slots =>
    intro i k
    rw [hun.slots, (hfields k).2.1]
    exact h.slots i k
  case used =>
    intro k
    rw [hun.level_used]
    exact h.level_used k

/-- A level divides the levels of its side, and its orders are not those of the levels before. -/
theorem levels_split (h : Linked b sh) (hs : s.IsTrading) (hl : l ∈ sh.levels s)
    (ho : o ∈ sh.queue l) :
    ∃ L R, sh.levels s = L ++ l :: R ∧ l ∉ L ∧ l ∉ R ∧ o ∉ L.flatMap sh.queue := by
  obtain ⟨L, R, hsplit⟩ := List.append_of_mem hl
  have hnd := (h.levels s hs).nodup
  have hflat := h.flat_nodup hs
  rw [hsplit, List.nodup_append] at hnd
  rw [Shape.flat, hsplit, List.flatMap_append, List.flatMap_cons, List.nodup_append] at hflat
  refine ⟨L, R, hsplit, ?_, (List.nodup_cons.mp hnd.2.1).1, ?_⟩
  · intro hlL
    exact hnd.2.2 l hlL l (List.mem_cons_self ..) rfl
  · intro hoL
    exact hflat.2.2 o hoL o (List.mem_append_left _ ho) rfl

/-- The orders of the sides after an order left a queue. -/
theorem flat_leaveQueue (h : Linked b sh) (hs : s.IsTrading) (hl : l ∈ sh.levels s)
    (ho : o ∈ sh.queue l) {s' : Side} (hs' : s'.IsTrading) :
    (sh.setQueue l ((sh.queue l).erase o)).flat s' =
      if s' = s then (sh.flat s).erase o else sh.flat s' := by
  by_cases hss : s' = s
  · subst hss
    obtain ⟨L, R, hsplit, hlL, hlR, hoL⟩ := h.levels_split hs hl ho
    rw [if_pos rfl]
    simp only [Shape.flat, Shape.levels_setQueue, hsplit, List.flatMap_append, List.flatMap_cons,
      Shape.flatMap_setQueue hlL, Shape.flatMap_setQueue hlR, Shape.queue_setQueue, if_true]
    rw [List.erase_append_right _ hoL, List.erase_append_left _ ho]
  · rw [if_neg hss, Shape.flat, Shape.levels_setQueue, Shape.flatMap_setQueue]
    · rfl
    · exact fun hk => hss (h.side_unique hs' hs hk hl)

/-- An order that is alone on its level closes it. -/
theorem closeLevel (h : Linked b sh) (hs : s.IsTrading) (hl : l ∈ sh.levels s)
    (hrem : RemovedLevel b b' s (sh.levels s) l) :
    Linked b' (sh.setLevels s ((sh.levels s).erase l)) := by
  have hnd := (h.levels s hs).nodup
  have hlevels : ∀ s', s'.IsTrading → ∀ k,
      k ∈ (sh.setLevels s ((sh.levels s).erase l)).levels s' ↔ k ∈ sh.levels s' ∧ k ≠ l := by
    intro s' hs' k
    rw [Shape.levels_setLevels hs hs']
    by_cases hss : s' = s
    · subst hss
      rw [if_pos rfl, hnd.mem_erase_iff]
      exact and_comm
    · rw [if_neg hss]
      refine ⟨fun hk => ⟨hk, ?_⟩, And.left⟩
      rintro rfl
      exact hss (h.side_unique hs' hs hk hl)
  have hall : ∀ k, k ∈ (sh.setLevels s ((sh.levels s).erase l)).all ↔ k ∈ sh.all ∧ k ≠ l := by
    intro k
    simp only [Shape.mem_all]
    constructor
    · rintro ⟨s', hs', hk⟩
      obtain ⟨hk, hkl⟩ := (hlevels s' hs' k).mp hk
      exact ⟨⟨s', hs', hk⟩, hkl⟩
    · rintro ⟨⟨s', hs', hk⟩, hkl⟩
      exact ⟨s', hs', (hlevels s' hs' k).mpr ⟨hk, hkl⟩⟩
  have horder : ∀ k, b'.order k = b.order k := fun k => by
    simp only [LimitBook.order, hrem.order_pool]
  have hlall : l ∈ sh.all := Shape.mem_all.mpr ⟨s, hs, hl⟩
  refine ⟨?levels, ?queues, ?slots, hrem.wf, ?used⟩
  case levels =>
    intro s' hs'
    rw [Shape.levels_setLevels hs hs']
    by_cases hss : s' = s
    · subst hss
      rw [if_pos rfl]
      exact hrem.rep
    · rw [if_neg hss]
      refine (h.levels s' hs').congr (hrem.best_other s' hs' hss) fun k hk => hrem.level_other k ?_
      exact fun hks => hss (h.side_unique hs' hs hk hks)
  case queues =>
    intro s' hs' k hk
    obtain ⟨hk, hkl⟩ := (hlevels s' hs' k).mp hk
    rw [hrem.price, hrem.first, Shape.queue_setLevels]
    exact (h.queues s' hs' k hk).congr fun x _ => horder x
  case slots =>
    intro i k
    rw [hall, hrem.price, hrem.slots]
    change (if i = priceToIndex (b.level l).price_ then none
      else b.price_orders_at_price_ i) = some k ↔ _
    by_cases hi : i = priceToIndex (b.level l).price_
    · -- no other level uses the slot
      rw [if_pos hi]
      simp only [reduceCtorEq, false_iff, not_and]
      rintro ⟨hk, hkl⟩ heq
      have hslot := h.slot_of_mem hlall
      have hslot' := h.slot_of_mem hk
      simp only [getOrdersAtPrice, heq, hi] at hslot hslot'
      rw [hslot] at hslot'
      exact hkl (by simpa using hslot'.symm)
    · rw [if_neg hi, h.slots]
      constructor
      · rintro ⟨hk, rfl⟩
        exact ⟨⟨hk, fun he => hi (by rw [he])⟩, rfl⟩
      · rintro ⟨⟨hk, -⟩, heq⟩
        exact ⟨hk, heq⟩
  case used =>
    intro k
    rw [hall, hrem.used, Finset.mem_erase, h.level_used]
    exact and_comm

/-- The orders of the sides after an order closed its level. -/
theorem flat_closeLevel (h : Linked b sh) (hs : s.IsTrading) (hl : l ∈ sh.levels s)
    (ho : sh.queue l = [o]) {s' : Side} (hs' : s'.IsTrading) :
    (sh.setLevels s ((sh.levels s).erase l)).flat s' =
      if s' = s then (sh.flat s).erase o else sh.flat s' := by
  rw [Shape.flat, Shape.levels_setLevels hs hs', Shape.queue_setLevels]
  by_cases hss : s' = s
  · subst hss
    obtain ⟨L, R, hsplit, hlL, _, hoL⟩ := h.levels_split hs hl (ho ▸ List.mem_singleton_self o)
    rw [if_pos rfl, if_pos rfl]
    simp only [Shape.flat, hsplit, List.flatMap_append, List.flatMap_cons, ho]
    rw [List.erase_append_right _ hlL, List.erase_append_right _ hoL, List.erase_cons_head,
      List.flatMap_append, List.singleton_append, List.erase_cons_head]
  · rw [if_neg hss, if_neg hss]
    rfl

end Linked

/-! ## Reading a book through its orders -/

/-- A key no order carries is not in the order map. -/
theorem Stored.key_free {unique : Prop} (h : Stored unique b sh) {k : K}
    (hfree : ∀ s, s.IsTrading → ∀ x ∈ infos b sh s, OrderInfo.key x ≠ k) :
    b.key_to_order_ k = none := by
  cases hk : b.key_to_order_ k with
  | none => rfl
  | some o =>
    obtain ⟨ho, heq⟩ := h.live k o hk
    obtain ⟨s, hs, hos⟩ := Shape.mem_orders_iff_flat.mp ho
    exact absurd heq (hfree s hs _ (List.mem_map.mpr ⟨o, hos, rfl⟩))

/-- The level in the slot of a price, when only orders of that price and side use the slot. -/
theorem Linked.slot_level (h : Linked b sh) {s : Side} {p : ℤ}
    (hslot : ∀ s', s'.IsTrading → ∀ x ∈ infos b sh s',
      priceToIndex (OrderInfo.price x) = priceToIndex p → OrderInfo.price x = p ∧ s' = s)
    {l : ℕ} (hl : b.getOrdersAtPrice p = some l) :
    l ∈ sh.levels s ∧ (b.level l).price_ = p := by
  obtain ⟨hall, hidx⟩ := (h.slots _ _).mp hl
  obtain ⟨s', hs', hls, hq⟩ := h.queue_rep hall
  obtain ⟨x, xs, hx⟩ := List.exists_cons_of_ne_nil hq.ne_nil
  have hxq : x ∈ sh.queue l := by simp [hx]
  have hmem : (b.order x).info ∈ infos b sh s' :=
    List.mem_map.mpr ⟨x, Shape.mem_flat.mpr ⟨l, hls, hxq⟩, rfl⟩
  have hprice := hq.price x hxq
  obtain ⟨heq, rfl⟩ := hslot s' hs' _ hmem (by rw [hprice]; exact hidx)
  exact ⟨hls, hprice ▸ heq⟩

/-! ## Inserting an order -/

/-- The order map and the free blocks of the order pool do not matter to the lists. -/
theorem Linked.congr (h : Linked b sh) (hbids : b'.bids_by_price_ = b.bids_by_price_)
    (hasks : b'.asks_by_price_ = b.asks_by_price_)
    (hslots : b'.price_orders_at_price_ = b.price_orders_at_price_)
    (hpool : b'.orders_at_price_pool_ = b.orders_at_price_pool_)
    (horder : ∀ o ∈ sh.orders, b'.order o = b.order o) : Linked b' sh := by
  have hlevel : ∀ l, b'.level l = b.level l := fun l => by simp only [LimitBook.level, hpool]
  refine ⟨?_, ?_, ?_, hpool ▸ h.level_wf, fun l => by rw [hpool]; exact h.level_used l⟩
  · intro s hs
    refine (h.levels s hs).congr ?_ fun l _ => hlevel l
    simp only [LimitBook.best, hbids, hasks]
  · intro s hs l hl
    rw [hlevel]
    exact (h.queues s hs l hl).congr fun o ho =>
      horder o (Shape.mem_orders.mpr ⟨l, Shape.mem_all.mpr ⟨s, hs, hl⟩, ho⟩)
  · intro i l
    rw [hslots, hlevel]
    exact h.slots i l

variable [DecidableEq K]

/-- What inserting an order did, as the orders of the sides show it. -/
structure Inserted (b b' : LimitBook I K) (sh sh' : Shape) (s : Side) (info : I) : Prop where
  infos : ∀ s', s'.IsTrading → infos b' sh' s' =
    if s' = s then (infos b sh s).orderedInsert (Precedes s) info else infos b sh s'
  level_size : b'.orders_at_price_pool_.size = b.orders_at_price_pool_.size
  order_size : b'.order_pool_.size = b.order_pool_.size

/-- The order map and the order pool after an order was linked. -/
theorem Linked.stored_insert {unique : Prop} {o : ℕ} {info : I} {b₁ : LimitBook I K} {sh' : Shape}
    {s : Side} (hrep : Stored unique b sh) (hlinked : Linked b₁ sh')
    (horders : ∀ k, k ∈ sh'.orders ↔ k = o ∨ k ∈ sh.orders)
    (hinfo : ∀ k, (b₁.order k).info = if k = o then info else (b.order k).info)
    (hkeys : b₁.key_to_order_ = b.key_to_order_) (hwf : b₁.order_pool_.WF)
    (hused : b₁.order_pool_.used = insert o b.order_pool_.used) (ho : o ∉ sh.orders)
    (hrange : OrderInfo.inRange (I := I) (OrderInfo.key info) = true)
    (hkey : unique → b.key_to_order_ (OrderInfo.key info) = none)
    (hflat : ∀ s', s'.IsTrading → (sh'.flat s').map (fun x => (b₁.order x).info) =
      if s' = s then (LimitBook.infos b sh s).orderedInsert (Precedes s) info
      else LimitBook.infos b sh s')
    (hlsize : b₁.orders_at_price_pool_.size = b.orders_at_price_pool_.size)
    (hosize : b₁.order_pool_.size = b.order_pool_.size) :
    ∃ b', b₁.setKey (OrderInfo.key info) (some o) = .ok b' ∧ Stored unique b' sh' ∧
      Inserted b b' sh sh' s info := by
  refine ⟨_, if_pos hrange, ?_, ⟨hflat, hlsize, hosize⟩⟩
  have hold : ∀ {k : ℕ}, k ∈ sh.orders → (b₁.order k).info = (b.order k).info := by
    intro k hk
    rw [hinfo, if_neg (fun he : k = o => ho (he ▸ hk))]
  have hnew : (b₁.order o).info = info := by
    rw [hinfo, if_pos rfl]
  refine ⟨hlinked.congr rfl rfl rfl rfl fun _ _ => rfl, ?live, ?found, ?inRange, hwf, ?used⟩
  case live =>
    intro k k' hk'
    change (if k = OrderInfo.key info then some o else b₁.key_to_order_ k) = some k' at hk'
    change k' ∈ sh'.orders ∧ OrderInfo.key (b₁.order k').info = k
    rw [horders]
    split at hk'
    · next hk =>
      obtain rfl := Option.some.inj hk'
      exact ⟨.inl rfl, by rw [hnew, hk]⟩
    · rw [hkeys] at hk'
      obtain ⟨hmem, heq⟩ := hrep.live k k' hk'
      exact ⟨.inr hmem, by rw [hold hmem, heq]⟩
  case found =>
    intro hunique k hk
    change (if OrderInfo.key (b₁.order k).info = OrderInfo.key info then some o
      else b₁.key_to_order_ (OrderInfo.key (b₁.order k).info)) = some k
    rcases (horders k).mp hk with rfl | hk'
    · rw [hnew, if_pos rfl]
    · -- the key of the new order was free
      have hfound := hrep.found hunique k hk'
      rw [hold hk', hkeys, if_neg, hfound]
      intro heq
      rw [heq, hkey hunique] at hfound
      cases hfound
  case inRange =>
    intro k hk
    change OrderInfo.inRange (I := I) (OrderInfo.key (b₁.order k).info) = true
    rcases (horders k).mp hk with rfl | hk'
    · rw [hnew]
      exact hrange
    · rw [hold hk']
      exact hrep.keys_inRange k hk'
  case used =>
    intro k
    change k ∈ b₁.order_pool_.used ↔ _
    rw [hused, Finset.mem_insert, hrep.order_used, horders]

theorem mem_orders_appendOrder {l o : ℕ} (hl : l ∈ sh.all) (k : ℕ) :
    k ∈ (sh.setQueue l (sh.queue l ++ [o])).orders ↔ k = o ∨ k ∈ sh.orders := by
  simp only [Shape.mem_orders, Shape.all_setQueue, Shape.queue_setQueue]
  constructor
  · rintro ⟨j, hj, hk⟩
    by_cases hjl : j = l
    · rw [if_pos hjl, List.mem_append, List.mem_singleton] at hk
      exact hk.symm.imp id fun hk => ⟨l, hl, hk⟩
    · rw [if_neg hjl] at hk
      exact .inr ⟨j, hj, hk⟩
  · rintro (rfl | ⟨j, hj, hk⟩)
    · exact ⟨l, hl, by simp⟩
    · refine ⟨j, hj, ?_⟩
      split
      · next hjl => simp [hjl ▸ hk]
      · exact hk

theorem mem_orders_openLevel {s : Side} {l o : ℕ} {r : ℕ → ℕ → Prop} [DecidableRel r]
    (hs : s.IsTrading) (hl : l ∉ sh.all) (k : ℕ) :
    k ∈ ((sh.setLevels s ((sh.levels s).orderedInsert r l)).setQueue l [o]).orders ↔
      k = o ∨ k ∈ sh.orders := by
  simp only [Shape.mem_orders_iff_flat, Shape.mem_flat, Shape.queue_setQueue, Shape.queue_setLevels]
  constructor
  · rintro ⟨s', hs', j, hj, hk⟩
    rcases (Linked.mem_levels_insert hs hs' rfl).mp hj with ⟨rfl, -⟩ | hj
    · rw [if_pos rfl, List.mem_singleton] at hk
      exact .inl hk
    · rw [if_neg (fun he : j = l => hl (Shape.mem_all.mpr ⟨s', hs', he ▸ hj⟩))] at hk
      exact .inr ⟨s', hs', j, hj, hk⟩
  · rintro (rfl | ⟨s', hs', j, hj, hk⟩)
    · exact ⟨s, hs, l, (Linked.mem_levels_insert hs hs rfl).mpr (.inl ⟨rfl, rfl⟩), by simp⟩
    · refine ⟨s', hs', j, (Linked.mem_levels_insert hs hs' rfl).mpr (.inr hj), ?_⟩
      rw [if_neg (fun he : j = l => hl (Shape.mem_all.mpr ⟨s', hs', he ▸ hj⟩))]
      exact hk

/-- `addOrder` on a book whose order pool already holds the order. -/
theorem addOrder_spec {unique : Prop} {info : I} {o : ℕ} {pool : MemPool (QueuedOrder I)}
    {s : Side} (h : Stored unique b sh) (hs : s.IsTrading) (hside : OrderInfo.side info = s)
    (hrange : OrderInfo.inRange (I := I) (OrderInfo.key info) = true)
    (hkey : unique → ∀ s', s'.IsTrading → ∀ x ∈ infos b sh s', OrderInfo.key x ≠ OrderInfo.key info)
    (hslot : ∀ s', s'.IsTrading → ∀ x ∈ infos b sh s',
      priceToIndex (OrderInfo.price x) = priceToIndex (OrderInfo.price info) →
        OrderInfo.price x = OrderInfo.price info ∧ s' = s)
    (halloc : MemPool.Allocated b.order_pool_ ⟨info, none, none⟩ o pool) :
    (∃ b' sh', { b with order_pool_ := pool }.addOrder o = .ok b' ∧ Stored unique b' sh' ∧
      Inserted b b' sh sh' s info) ∨
    ({ b with order_pool_ := pool }.addOrder o = .error .outOfSpace ∧
      b.getOrdersAtPrice (OrderInfo.price info) = none ∧
      sh.all.length + 1 = b.orders_at_price_pool_.size) := by
  have ho : o ∉ sh.orders := fun ho => halloc.fresh ((h.order_used o).mpr ho)
  set b₀ : LimitBook I K := { b with order_pool_ := pool } with hb₀
  have horder₀ : ∀ k, b₀.order k = if k = o then ⟨info, none, none⟩ else b.order k := halloc.get
  have hinfo₀ : (b₀.order o).info = info := by rw [horder₀, if_pos rfl]
  have hold : ∀ k ∈ sh.orders, b₀.order k = b.order k := fun k hk => by
    rw [horder₀, if_neg (fun he : k = o => ho (he ▸ hk))]
  have hlinked₀ : Linked b₀ sh := h.toLinked.congr rfl rfl rfl rfl hold
  have hinfos₀ : ∀ s', s'.IsTrading → infos b₀ sh s' = infos b sh s' := fun s' hs' =>
    List.map_congr_left fun k hk => by rw [hold k (Linked.mem_orders_of_flat hs' hk)]
  have hside₀ : OrderInfo.side (b₀.order o).info = s := by rw [hinfo₀, hside]
  have hinfo : ∀ {b₁ : LimitBook I K}, (∀ k, (b₁.order k).info = (b₀.order k).info) →
      ∀ k, (b₁.order k).info = if k = o then info else (b.order k).info := fun hb₁ k => by
    rw [hb₁, horder₀]
    split <;> rfl
  cases hget : b.getOrdersAtPrice (OrderInfo.price info) with
  | some l =>
    -- its level exists, and the order goes behind the last one of it
    left
    obtain ⟨hl, hprice⟩ := h.toLinked.slot_level hslot hget
    have hq := hlinked₀.queues s hs l hl
    obtain ⟨x, xs, hx⟩ := List.exists_cons_of_ne_nil hq.ne_nil
    have hfirst : (b₀.level l).first_order_ = some x := by rw [hq.first, hx]; rfl
    have hall : l ∈ sh.all := Shape.mem_all.mpr ⟨s, hs, hl⟩
    have hoq : o ∉ sh.queue l := fun hoq => ho (Shape.mem_orders.mpr ⟨l, hall, hoq⟩)
    have hprice₀ : OrderInfo.price (b₀.order o).info = (b₀.level l).price_ := by
      rw [hinfo₀, ← hprice]
      rfl
    obtain ⟨b₁, hrun, hframe, hring, hother⟩ :=
      linkOrder_spec (hx ▸ hq.ring) (hx ▸ hq.nodup) (hx ▸ hoq)
    rw [← hx] at hring hother
    obtain ⟨b', hset, hrep, hins⟩ := Linked.stored_insert h
      (hlinked₀.appendOrder hs hl ho hside₀ hprice₀ hframe hring hother)
      (mem_orders_appendOrder hall) (hinfo hframe.info) hframe.keys (hframe.wf halloc.wf)
      (hframe.used.trans halloc.used) ho hrange (fun hunique => h.key_free (hkey hunique)) (fun s' hs' => by
        simp only [hframe.info]
        rw [hlinked₀.flat_appendOrder hs hl hprice₀ hs', hinfos₀ s hs, hinfos₀ s' hs', hinfo₀])
      (congrArg MemPool.size hframe.level_pool) (hframe.size.trans halloc.size)
    refine ⟨b', _, ?_, hrep, hins⟩
    have hget₀ : b₀.getOrdersAtPrice (OrderInfo.price info) = some l := hget
    simp only [addOrder, hinfo₀, hget₀, hfirst, deref_some, ok_bind, hrun, hset]
  | none =>
    have hget₀ : b₀.getOrdersAtPrice (OrderInfo.price (b₀.order o).info) = none := by
      rw [hinfo₀]
      exact hget
    rcases MemPool.allocate_spec h.level_wf (b₀.levelFor o) with
      ⟨l, lpool, hok, hlalloc⟩ | ⟨herr, hcard⟩
    · -- a level is opened for it
      left
      have hl : l ∉ sh.all := fun hl => hlalloc.fresh ((h.level_used l).mpr hl)
      obtain ⟨b₁, hrun, hadd, hinfo₁⟩ := hlinked₀.place hs hside₀ hget₀ hlalloc
      have hpool₁ : b₁.order_pool_ = pool.modify o
          fun e => { e with prev_order_ := some o, next_order_ := some o } := hadd.frame.order_pool
      obtain ⟨b', hset, hrep, hins⟩ := Linked.stored_insert h
        (hlinked₀.openLevel hs ho hside₀ hget₀ hlalloc hadd)
        (mem_orders_openLevel hs hl) (hinfo hinfo₁) hadd.frame.keys
        (hpool₁ ▸ halloc.wf.modify _ _)
        (by rw [hpool₁, MemPool.used_modify, halloc.used]) ho hrange (fun hunique => h.key_free (hkey hunique))
        (fun s' hs' => by
          simp only [hinfo₁]
          rw [hlinked₀.flat_openLevel hs hlalloc hs', hinfos₀ s hs, hinfos₀ s' hs', hinfo₀])
        (hadd.frame.size.trans hlalloc.size) (by rw [hpool₁, MemPool.size_modify, halloc.size])
      refine ⟨b', _, ?_, hrep, hins⟩
      have hok' : (b₀.modOrder o fun e => { e with prev_order_ := some o, next_order_ := some o
          }).orders_at_price_pool_.allocate (b₀.levelFor o) = .ok (l, lpool) := hok
      have hset' := hinfo₀ ▸ hset
      rw [levelFor] at hok'
      simp only [addOrder, hget₀, hok', ok_bind]
      change (b₀.placeOrder o lpool).addOrdersAtPrice l >>= _ = _
      rw [hrun, ok_bind]
      exact hset'
    · -- the pool of levels is down to its last block
      right
      have herr' : (b₀.modOrder o fun e => { e with prev_order_ := some o, next_order_ := some o
          }).orders_at_price_pool_.allocate (b₀.levelFor o) = .error .outOfSpace := herr
      rw [levelFor] at herr'
      refine ⟨?_, rfl, h.level_card ▸ hcard⟩
      simp only [addOrder, hget₀, herr', error_bind]

/-- **`insertOrder` is sorted insertion** at a price whose slot no other price or side uses, of an
order with a fresh key if keys are to be unique; otherwise one of the pools is down to its last
block. -/
theorem insertOrder_stored {unique : Prop} {info : I} {s : Side} (h : Stored unique b sh)
    (hs : s.IsTrading) (hside : OrderInfo.side info = s)
    (hrange : OrderInfo.inRange (I := I) (OrderInfo.key info) = true)
    (hkey : unique →
      ∀ s', s'.IsTrading → ∀ x ∈ infos b sh s', OrderInfo.key x ≠ OrderInfo.key info)
    (hslot : ∀ s', s'.IsTrading → ∀ x ∈ infos b sh s',
      priceToIndex (OrderInfo.price x) = priceToIndex (OrderInfo.price info) →
        OrderInfo.price x = OrderInfo.price info ∧ s' = s) :
    (∃ b' sh', b.insertOrder info = .ok b' ∧ Stored unique b' sh' ∧
      Inserted b b' sh sh' s info) ∨
    (b.insertOrder info = .error .outOfSpace ∧
      (sh.orders.length + 1 = b.order_pool_.size ∨
        b.getOrdersAtPrice (OrderInfo.price info) = none ∧
          sh.all.length + 1 = b.orders_at_price_pool_.size)) := by
  rcases MemPool.allocate_spec h.order_wf ⟨info, none, none⟩ with
    ⟨o, pool, hok, halloc⟩ | ⟨herr, hcard⟩
  · rcases addOrder_spec h hs hside hrange hkey hslot halloc with
      ⟨b', sh', hrun, hrep, hins⟩ | ⟨hrun, hnone, hfull⟩
    · exact .inl ⟨b', sh', by simp [insertOrder, hok, hrun], hrep, hins⟩
    · exact .inr ⟨by simp [insertOrder, hok, hrun], .inr ⟨hnone, hfull⟩⟩
  · exact .inr ⟨by simp [insertOrder, herr], .inl (h.order_card ▸ hcard)⟩

theorem insertOrder_spec {info : I} {s : Side} (h : BookRep b sh) (hs : s.IsTrading)
    (hside : OrderInfo.side info = s)
    (hrange : OrderInfo.inRange (I := I) (OrderInfo.key info) = true)
    (hkey : ∀ s', s'.IsTrading → ∀ x ∈ infos b sh s', OrderInfo.key x ≠ OrderInfo.key info)
    (hslot : ∀ s', s'.IsTrading → ∀ x ∈ infos b sh s',
      priceToIndex (OrderInfo.price x) = priceToIndex (OrderInfo.price info) →
        OrderInfo.price x = OrderInfo.price info ∧ s' = s) :
    (∃ b' sh', b.insertOrder info = .ok b' ∧ BookRep b' sh' ∧ Inserted b b' sh sh' s info) ∨
    (b.insertOrder info = .error .outOfSpace ∧
      (sh.orders.length + 1 = b.order_pool_.size ∨
        b.getOrdersAtPrice (OrderInfo.price info) = none ∧
          sh.all.length + 1 = b.orders_at_price_pool_.size)) := by
  rcases insertOrder_stored (h.stored True) hs hside hrange (fun _ => hkey) hslot with
    ⟨b', sh', hrun, hrep, hins⟩ | hfull
  · exact .inl ⟨b', sh', hrun, hrep.bookRep trivial, hins⟩
  · exact .inr hfull

/-! ## Removing an order -/

/-- What removing order `o` did. -/
structure Removed (b b' : LimitBook I K) (sh sh' : Shape) (o : ℕ) : Prop where
  flat : ∀ s, s.IsTrading → sh'.flat s = (sh.flat s).erase o
  info : ∀ k, (b'.order k).info = (b.order k).info
  level_size : b'.orders_at_price_pool_.size = b.orders_at_price_pool_.size
  order_size : b'.order_pool_.size = b.order_pool_.size

/-- The order map and the order pool after an order was unlinked. -/
theorem Linked.stored_remove {unique : Prop} {o : ℕ} {b₁ : LimitBook I K} {sh' : Shape}
    (hrep : Stored unique b sh) (hlinked : Linked b₁ sh') (ho : o ∈ sh.orders)
    (hflat : ∀ s, s.IsTrading → sh'.flat s = (sh.flat s).erase o)
    (hinfo : ∀ k, (b₁.order k).info = (b.order k).info)
    (hkeys : b₁.key_to_order_ = b.key_to_order_) (hwf : b₁.order_pool_.WF)
    (hused : b₁.order_pool_.used = b.order_pool_.used)
    (hlsize : b₁.orders_at_price_pool_.size = b.orders_at_price_pool_.size)
    (hosize : b₁.order_pool_.size = b.order_pool_.size) :
    ∃ b', (do
        let b₂ ← b₁.setKey (OrderInfo.key (b₁.order o).info) none
        let pool ← b₂.order_pool_.deallocate o
        Except.ok { b₂ with order_pool_ := pool }) = .ok b' ∧
      Stored unique b' sh' ∧ Removed b b' sh sh' o := by
  have horders : ∀ k, k ∈ sh'.orders ↔ k ∈ sh.orders ∧ k ≠ o := by
    intro k
    simp only [Shape.mem_orders_iff_flat]
    constructor
    · rintro ⟨s, hs, hk⟩
      rw [hflat s hs, (hrep.flat_nodup hs).mem_erase_iff] at hk
      exact ⟨⟨s, hs, hk.2⟩, hk.1⟩
    · rintro ⟨⟨s, hs, hk⟩, hko⟩
      refine ⟨s, hs, ?_⟩
      rw [hflat s hs, (hrep.flat_nodup hs).mem_erase_iff]
      exact ⟨hko, hk⟩
  have hmem : o ∈ b₁.order_pool_.used := by
    rw [hused]
    exact (hrep.order_used o).mpr ho
  obtain ⟨hfree, hwf', hused'⟩ := MemPool.deallocate_spec hwf hmem
  have hrange := hrep.keys_inRange o ho
  rw [← hinfo] at hrange
  set b₂ : LimitBook I K := { b₁ with
    key_to_order_ := fun k' => if k' = OrderInfo.key (b₁.order o).info then none
      else b₁.key_to_order_ k' } with hb₂
  have hset : b₁.setKey (OrderInfo.key (b₁.order o).info) none = .ok b₂ := if_pos hrange
  have hfree₂ : b₂.order_pool_.deallocate o = .ok (b₁.order_pool_.setFree o true) := hfree
  set b₃ : LimitBook I K := { b₂ with order_pool_ := b₁.order_pool_.setFree o true } with hb₃
  have horder : ∀ k, b₃.order k = b₁.order k := fun k => MemPool.get_setFree ..
  refine ⟨b₃, by rw [hset, ok_bind, hfree₂]; rfl, ?_,
    hflat, fun k => by rw [horder, hinfo], hlsize, hosize⟩
  refine ⟨hlinked.congr rfl rfl rfl rfl fun k _ => horder k, ?live, ?found, ?inRange, hwf', ?used⟩
  case live =>
    intro k k' hk'
    change (if k = OrderInfo.key (b₁.order o).info then none else b₁.key_to_order_ k) = some k' at hk'
    rw [horder, horders, hinfo]
    split at hk'
    · cases hk'
    · next hk =>
      rw [hkeys] at hk'
      obtain ⟨hmem, heq⟩ := hrep.live k k' hk'
      refine ⟨⟨hmem, ?_⟩, heq⟩
      rintro rfl
      exact hk (by rw [hinfo, heq])
  case found =>
    intro hunique k hk
    change (if OrderInfo.key (b₃.order k).info = OrderInfo.key (b₁.order o).info then none
      else b₁.key_to_order_ (OrderInfo.key (b₃.order k).info)) = some k
    obtain ⟨hmem, hne⟩ := (horders k).mp hk
    rw [horder, hinfo, hinfo, hkeys, if_neg]
    · exact hrep.found hunique k hmem
    · -- the key of another order is another one
      intro heq
      exact hne (hrep.key_inj hunique hmem ho heq)
  case inRange =>
    intro k hk
    rw [horder, hinfo]
    exact hrep.keys_inRange k ((horders k).mp hk).1
  case used =>
    intro k
    change k ∈ (b₁.order_pool_.setFree o true).used ↔ _
    rw [hused', Finset.mem_erase, hused, hrep.order_used, horders]
    exact and_comm

/-- **`removeOrder` erases the order** from its side and frees it. -/
theorem removeOrder_stored {unique : Prop} {o : ℕ} (h : Stored unique b sh)
    (ho : o ∈ sh.orders) :
    ∃ b' sh', b.removeOrder o = .ok b' ∧ Stored unique b' sh' ∧ Removed b b' sh sh' o := by
  obtain ⟨l, hall, hol⟩ := Shape.mem_orders.mp ho
  obtain ⟨s, hs, hl, hq⟩ := h.toLinked.queue_rep hall
  have herase : ∀ {sh' : Shape}, (∀ s', s'.IsTrading → sh'.flat s' =
      if s' = s then (sh.flat s).erase o else sh.flat s') →
      ∀ s', s'.IsTrading → sh'.flat s' = (sh.flat s').erase o := by
    intro sh' hflat s' hs'
    rw [hflat s' hs']
    by_cases hss : s' = s
    · rw [if_pos hss, hss]
    · rw [if_neg hss, List.erase_of_not_mem]
      intro ho'
      obtain ⟨l', hl', hol'⟩ := Shape.mem_flat.mp ho'
      have heq := h.level_unique (Shape.mem_all.mpr ⟨s', hs', hl'⟩) hall hol' hol
      exact hss (h.side_unique hs' hs hl' (heq ▸ hl))
  obtain ⟨L, R, hsplit⟩ := List.append_of_mem hol
  have hself := IsRing.prev_self_iff (hsplit ▸ hq.ring) (hsplit ▸ hq.nodup)
  by_cases hprev : (b.order o).prev_order_ = some o
  · -- alone on its level
    obtain ⟨rfl, rfl⟩ := hself.mp hprev
    have hone : sh.queue l = [o] := hsplit
    obtain ⟨b₁, hrun, hrem⟩ := removeOrdersAtPrice_spec hs (h.levels s hs) hl
      (hq.price o hol).symm (h.level_of_order hall hol) h.level_wf ((h.level_used l).mpr hall)
    have hinfo : ∀ k, (b₁.order k).info = (b.order k).info := fun k => by
      simp only [LimitBook.order, hrem.order_pool]
    obtain ⟨b', hrun', hrep', hrem'⟩ := Linked.stored_remove h
      (h.toLinked.closeLevel hs hl hrem) ho
      (herase fun s' hs' => h.toLinked.flat_closeLevel hs hl hone hs') hinfo hrem.keys
      (hrem.order_pool ▸ h.order_wf) (by rw [hrem.order_pool]) hrem.size (by rw [hrem.order_pool])
    refine ⟨b', _, ?_, hrep', hrem'⟩
    simp only [removeOrder, hprev, if_true, hq.side o hol, hrun, ok_bind]
    exact hrun'
  · -- other orders stay
    have hne : (sh.queue l).erase o ≠ [] := by
      intro hnil
      have hoL : o ∉ L := fun hoL => by
        have hnd := hsplit ▸ hq.nodup
        exact (List.nodup_append.mp hnd).2.2 o hoL o (by simp) rfl
      rw [hsplit, List.erase_append_right _ hoL, List.erase_cons_head] at hnil
      exact hprev (hself.mpr (by simpa using hnil))
    obtain ⟨b₁, hrun, hun⟩ := unlinkOrder_spec hq.ring hq.nodup hol hne
      (h.level_of_order hall hol) hq.first
    obtain ⟨b', hrun', hrep', hrem'⟩ := Linked.stored_remove h
      (h.toLinked.leaveQueue hs hl hne hun) ho
      (herase fun s' hs' => h.toLinked.flat_leaveQueue hs hl hol hs') hun.info hun.keys
      (hun.order_wf h.order_wf) hun.order_used hun.level_size hun.order_size
    refine ⟨b', _, ?_, hrep', hrem'⟩
    simp only [removeOrder, hprev, if_false, hrun, ok_bind]
    exact hrun'

theorem removeOrder_spec {o : ℕ} (h : BookRep b sh) (ho : o ∈ sh.orders) :
    ∃ b' sh', b.removeOrder o = .ok b' ∧ BookRep b' sh' ∧ Removed b b' sh sh' o := by
  obtain ⟨b', sh', hrun, hrep, hrem⟩ := removeOrder_stored (h.stored True) ho
  exact ⟨b', sh', hrun, hrep.bookRep trivial, hrem⟩

/-- Removal in terms of the orders' data: the one with the key of `o` is filtered out. -/
theorem Removed.infos {b' : LimitBook I K} {sh' : Shape} {o : ℕ} (hrem : Removed b b' sh sh' o)
    (h : BookRep b sh) (ho : o ∈ sh.orders) {s : Side} (hs : s.IsTrading) :
    infos b' sh' s =
      (infos b sh s).filter fun x => decide (OrderInfo.key x ≠ OrderInfo.key (b.order o).info) := by
  simp only [LimitBook.infos, hrem.flat s hs, hrem.info]
  rw [(h.flat_nodup hs).erase_eq_filter, List.filter_map]
  congr 1
  refine List.filter_congr fun k hk => ?_
  have hk' := Linked.mem_orders_of_flat hs hk
  by_cases hko : k = o
  · simp [hko]
  · have hne : OrderInfo.key (b.order k).info ≠ OrderInfo.key (b.order o).info :=
      fun heq => hko (h.key_inj hk' ho heq)
    simp [hko, hne]

/-! ## Rewriting an order's data -/

omit [DecidableEq K] in
/-- **Rewriting an order in place** keeps the book when side, price and key stay. -/
theorem modInfo_stored {unique : Prop} {o : ℕ} (h : Stored unique b sh) {f : I → I}
    (hside : ∀ x, OrderInfo.side (f x) = OrderInfo.side x)
    (hprice : ∀ x, OrderInfo.price (f x) = OrderInfo.price x)
    (hkey : ∀ x, OrderInfo.key (f x) = OrderInfo.key x) :
    Stored unique (b.modInfo o f) sh ∧
      ∀ k, ((b.modInfo o f).order k).info =
        if k = o then f (b.order o).info else (b.order k).info := by
  set b' := b.modInfo o f with hb'
  have hinfo : ∀ k, (b'.order k).info = if k = o then f (b.order o).info else (b.order k).info := by
    intro k
    rw [hb', modInfo, order_modOrder]
    split <;> rfl
  have hlinks : ∀ k, b'.nextOrder k = b.nextOrder k ∧ b'.prevOrder k = b.prevOrder k := by
    intro k
    rw [hb', nextOrder, prevOrder, modInfo, order_modOrder]
    split
    · next hk => simp [hk, nextOrder, prevOrder]
    · exact ⟨rfl, rfl⟩
  have hdata : ∀ k, OrderInfo.side (b'.order k).info = OrderInfo.side (b.order k).info ∧
      OrderInfo.price (b'.order k).info = OrderInfo.price (b.order k).info ∧
      OrderInfo.key (b'.order k).info = OrderInfo.key (b.order k).info := by
    intro k
    rw [hinfo]
    split
    · next hk => simp [hk, hside, hprice, hkey]
    · simp
  refine ⟨⟨⟨?levels, ?queues, h.slots, h.level_wf, h.level_used⟩, ?live, ?found, ?inRange, ?wf, ?used⟩,
    hinfo⟩
  case levels =>
    exact fun s hs => (h.levels s hs).congr rfl fun _ _ => rfl
  case queues =>
    intro s hs l hl
    have hq := h.queues s hs l hl
    refine ⟨hq.ne_nil, hq.first, ?_, hq.nodup, ?_, ?_⟩
    · exact hq.ring.congr (fun k _ => (hlinks k).1) fun k _ => (hlinks k).2
    · intro k hk
      rw [(hdata k).1]
      exact hq.side k hk
    · intro k hk
      rw [(hdata k).2.1]
      exact hq.price k hk
  case live =>
    intro k k'
    rw [(hdata k').2.2]
    exact h.live k k'
  case found =>
    intro hunique k hk
    rw [(hdata k).2.2]
    exact h.found hunique k hk
  case inRange =>
    intro k hk
    rw [(hdata k).2.2]
    exact h.keys_inRange k hk
  case wf =>
    exact h.order_wf.modify _ _
  case used =>
    intro k
    change k ∈ (b.order_pool_.modify o _).used ↔ _
    rw [MemPool.used_modify]
    exact h.order_used k

omit [DecidableEq K] in
theorem modInfo_spec {o : ℕ} (h : BookRep b sh) {f : I → I}
    (hside : ∀ x, OrderInfo.side (f x) = OrderInfo.side x)
    (hprice : ∀ x, OrderInfo.price (f x) = OrderInfo.price x)
    (hkey : ∀ x, OrderInfo.key (f x) = OrderInfo.key x) :
    BookRep (b.modInfo o f) sh ∧
      ∀ k, ((b.modInfo o f).order k).info =
        if k = o then f (b.order o).info else (b.order k).info := by
  obtain ⟨hrep, hinfo⟩ := modInfo_stored (h.stored True) hside hprice hkey
  exact ⟨hrep.bookRep trivial, hinfo⟩

end LimitBook

end TradingEcosystem
