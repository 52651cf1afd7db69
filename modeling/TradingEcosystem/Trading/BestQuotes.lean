import TradingEcosystem.Lib.Runs
import TradingEcosystem.Trading.Quotes

/-!
# Best Bid and Offer

`bbo_` is written after an update only for a side that was flagged by a test made against the
book before the update.

- `Describes` : `bbo_` says of each side what its best level is
- `Quotes.top` : the best level, from the list of the quoted orders
- `top_apply_of_not_updated` : an update that is not flagged leaves the best level alone, unless it
  is the first order of a side or empties the book
- `describes_run_iff` : when `bbo_` goes on describing the book
-/

namespace TradingEcosystem

open LimitBook

/-- The entry of a side. -/
def BBO.quote (bbo : BBO) (s : Side) : ℤ × ℕ :=
  if s = .BUY then (bbo.bid_price_, bbo.bid_qty_) else (bbo.ask_price_, bbo.ask_qty_)

/-! ## The best level -/

/-- Price and total quantity of the first of the levels. -/
def bestLevel : List (ℤ × List MarketOrderInfo) → ℤ × ℕ
  | [] => (Price_INVALID, Qty_INVALID)
  | (price, orders) :: _ => (price, (orders.map MarketOrderInfo.qty_).sum)

/-- The quantities quoted at a price. -/
def qtyAt (price : ℤ) (xs : List MarketOrderInfo) : ℕ :=
  ((xs.filter fun x => decide (x.price_ = price)).map MarketOrderInfo.qty_).sum

/-- Price of the first order and total quantity at that price. -/
def topOf : List MarketOrderInfo → ℤ × ℕ
  | [] => (Price_INVALID, Qty_INVALID)
  | x :: xs => (x.price_, qtyAt x.price_ (x :: xs))

/-- The first level is made of the orders with the price of the first order. -/
theorem bestLevel_eq_topOf {groups : List (ℤ × List MarketOrderInfo)}
    (h : Grouped MarketOrderInfo.price_ groups) :
    bestLevel groups = topOf (groups.map Prod.snd).flatten := by
  cases groups with
  | nil => rfl
  | cons g groups =>
    obtain ⟨price, queue⟩ := g
    obtain ⟨x, xs, rfl⟩ := List.exists_cons_of_ne_nil (h.ne_nil _ (List.mem_cons_self ..))
    have hprice := h.price _ (List.mem_cons_self ..)
    have hx : x.price_ = price := hprice x (List.mem_cons_self ..)
    have hothers : ∀ y ∈ (groups.map Prod.snd).flatten, y.price_ ≠ price := by
      intro y hy heq
      obtain ⟨q, hq, hyq⟩ := List.mem_flatten.mp hy
      obtain ⟨g, hg, rfl⟩ := List.mem_map.mp hq
      have hne := (List.pairwise_cons.mp h.pairwise).1 g hg
      exact hne (heq.symm.trans (h.price g (List.mem_cons_of_mem _ hg) y hyq))
    have hqueue : (x :: xs).filter (fun y => decide (y.price_ = price)) = x :: xs :=
      List.filter_eq_self.mpr fun y hy => decide_eq_true (hprice y hy)
    have hrest : (groups.map Prod.snd).flatten.filter (fun y => decide (y.price_ = price)) = [] :=
      List.filter_eq_nil_iff.mpr fun y hy => by simpa using hothers y hy
    show (price, ((x :: xs).map MarketOrderInfo.qty_).sum) =
      (x.price_, qtyAt x.price_ ((x :: xs) ++ (groups.map Prod.snd).flatten))
    rw [hx, qtyAt, List.filter_append, hqueue, hrest, List.append_nil]

/-- Adding up in 32 bits is exact as long as the total fits. -/
theorem foldl_qty {xs : List MarketOrderInfo} :
    ∀ {qty : ℕ}, qty + (xs.map MarketOrderInfo.qty_).sum < 2 ^ 32 →
      xs.foldl (fun qty y => (qty + y.qty_) % 2 ^ 32) qty =
        qty + (xs.map MarketOrderInfo.qty_).sum := by
  induction xs with
  | nil =>
    intro qty _
    rfl
  | cons x xs ih =>
    intro qty hlt
    rw [List.map_cons, List.sum_cons] at hlt ⊢
    rw [List.foldl_cons, Nat.mod_eq_of_lt (by omega), ih (by omega), Nat.add_assoc]

namespace Quotes

/-- The best level of a side. -/
def top (Q : Quotes) (s : Side) : ℤ × ℕ := topOf (Q.side s)

/-- No order has the invalid price, and the quantities on a level add up to less than 2^32. -/
structure Sound (Q : Quotes) : Prop where
  price : ∀ s, s.IsTrading → ∀ x ∈ Q.side s, x.price_ ≠ Price_INVALID
  qty : ∀ s, s.IsTrading → ∀ price, qtyAt price (Q.side s) < 2 ^ 32

theorem Sound.top_qty {Q : Quotes} {s : Side} (h : Q.Sound) (hs : s.IsTrading) :
    (Q.top s).2 < 2 ^ 32 := by
  have hqty := h.qty s hs
  unfold top
  cases hside : Q.side s with
  | nil => decide
  | cons x xs =>
    rw [hside] at hqty
    exact hqty x.price_

/-- The updates the book is promised: an `ADD` is of a new order on a real side whose price slot
has no order of another price; a `MODIFY` or `CANCEL` is of an order of the book and carries its
side and price; a `CLEAR` is for no side. -/
def WellFormed (Q : Quotes) (u : MEMarketUpdate) : Prop :=
  (match u.type_ with
    | .ADD =>
      u.side_.IsTrading ∧ u.order_id_ < ME_MAX_ORDER_IDS ∧
        (∀ x ∈ Q.orders, x.order_id_ ≠ u.order_id_) ∧
        ∀ x ∈ Q.orders, priceToIndex x.price_ = priceToIndex u.price_ → x.price_ = u.price_
    | .MODIFY | .CANCEL =>
      ∃ x ∈ Q.orders, x.order_id_ = u.order_id_ ∧ x.side_ = u.side_ ∧ x.price_ = u.price_
    | .CLEAR => u.side_ = .INVALID
    | .TRADE | .INVALID | .SNAPSHOT_START | .SNAPSHOT_END => True) ∧
  (Q.apply u).Sound

/-- A new order is not at a price of the other side. -/
def Uncrossed (Q : Quotes) (u : MEMarketUpdate) : Prop :=
  u.type_ = .ADD → ∀ x ∈ Q.side u.side_.opposite, x.price_ ≠ u.price_

/-- A new order finds others on its side, and only an empty book is cleared. -/
def KeepsFlags (Q : Quotes) (u : MEMarketUpdate) : Prop :=
  (u.type_ = .ADD → Q.side u.side_ ≠ []) ∧ (u.type_ = .CLEAR → Q = empty)

end Quotes

namespace MarketOrderBook

/-- **`bbo_` describes the book**: for each side price and total quantity of its best level, both
invalid when it has none. -/
def Describes (m : MarketOrderBook) : Prop :=
  ∀ s, s.IsTrading → m.bbo_.quote s = bestLevel (m.book.levelsView s)

/-- The side is flagged by an update. -/
def updated (b : LimitBook MarketOrderInfo ℕ) (u : MEMarketUpdate) (s : Side) : Bool :=
  if s = .BUY then bidUpdated b u else askUpdated b u

section holds

variable {b b' : LimitBook MarketOrderInfo ℕ} {sh sh' : Shape} {Q : Quotes} {u : MEMarketUpdate}
  {s : Side}

theorem Holds.bestLevel_eq (h : Holds b sh Q) (hs : s.IsTrading) :
    bestLevel (b.levelsView s) = Q.top s := by
  have hgroups : Grouped MarketOrderInfo.price_ (b.levelsView s) := h.rep.grouped hs
  rw [bestLevel_eq_topOf hgroups, h.rep.flatten_levelsView hs, h.rep.orderList_eq hs, h.infos s hs]
  rfl

/-- What `updateBBO` computes for a side is its best level. -/
theorem Holds.bestQuote_eq (h : Holds b sh Q) (hQ : Q.Sound) (hs : s.IsTrading) :
    bestQuote (b.levelsView s) = Q.top s := by
  have hgroups : Grouped MarketOrderInfo.price_ (b.levelsView s) := h.rep.grouped hs
  have hbest := h.bestLevel_eq hs
  rw [← hbest]
  cases hview : b.levelsView s with
  | nil => rfl
  | cons g groups =>
    obtain ⟨price, queue⟩ := g
    rw [hview] at hgroups hbest
    obtain ⟨x, xs, rfl⟩ := List.exists_cons_of_ne_nil (hgroups.ne_nil _ (List.mem_cons_self ..))
    -- the total of the level is one of those that fit
    have hqty : x.qty_ + (xs.map MarketOrderInfo.qty_).sum < 2 ^ 32 := by
      have htotal : ((x :: xs).map MarketOrderInfo.qty_).sum = (Q.top s).2 :=
        congrArg Prod.snd hbest
      rw [List.map_cons, List.sum_cons] at htotal
      rw [htotal]
      exact hQ.top_qty hs
    show (price, _) = (price, _)
    rw [foldl_qty hqty]
    rfl

theorem Holds.side (h : Holds b sh Q) (hs : s.IsTrading) : ∀ x ∈ Q.side s, x.side_ = s := by
  intro x hx
  rw [← h.infos s hs] at hx
  obtain ⟨o, ho, rfl⟩ := List.mem_map.mp hx
  obtain ⟨l, hl, hol⟩ := Shape.mem_flat.mp ho
  exact (h.rep.queues s hs l hl).side o hol

theorem Holds.id_inj (h : Holds b sh Q) {x y : MarketOrderInfo} (hx : x ∈ Q.orders)
    (hy : y ∈ Q.orders) (hid : x.order_id_ = y.order_id_) : x = y := by
  rw [← h.orders_eq] at hx hy
  obtain ⟨o, ho, rfl⟩ := List.mem_map.mp hx
  obtain ⟨o', ho', rfl⟩ := List.mem_map.mp hy
  rw [h.rep.key_inj ho ho' hid]

/-- A side is flagged by the updates for it that are not at a worse price than its best level. -/
theorem updated_eq (b : LimitBook MarketOrderInfo ℕ) (u : MEMarketUpdate) (hs : s.IsTrading) :
    updated b u s = match b.best s with
      | none => false
      | some l => decide (u.side_ = s) && !s.better (b.level l).price_ u.price_ := by
  rcases hs with rfl | rfl
  · show bidUpdated b u = match b.bids_by_price_ with
      | none => false
      | some l => _
    unfold bidUpdated
    cases b.bids_by_price_ with
    | none => rfl
    | some l =>
      simp only [Side.better, show (Side.BUY == Side.SELL) = false from rfl, beq_self_eq_true, Bool.true_and,
        Bool.false_and, Bool.or_false, ← decide_not, not_lt, gt_iff_lt, ge_iff_le]
  · show askUpdated b u = match b.asks_by_price_ with
      | none => false
      | some l => _
    unfold askUpdated
    cases b.asks_by_price_ with
    | none => rfl
    | some l =>
      simp only [Side.better, show (Side.SELL == Side.BUY) = false from rfl, beq_self_eq_true, Bool.true_and,
        Bool.false_and, Bool.false_or, ← decide_not, not_lt, gt_iff_lt]

/-- A side without orders is never flagged. -/
theorem Holds.updated_of_nil (h : Holds b sh Q) (hs : s.IsTrading) (hnil : Q.side s = []) :
    updated b u s = false := by
  have hlevels : sh.levels s = [] := by
    cases hls : sh.levels s with
    | nil => rfl
    | cons l ls =>
      -- a level would have an order
      have hl : l ∈ sh.levels s := by simp [hls]
      obtain ⟨o, os, hos⟩ := List.exists_cons_of_ne_nil (h.rep.queues s hs l hl).ne_nil
      have hflat : o ∈ sh.flat s := Shape.mem_flat.mpr ⟨l, hl, by simp [hos]⟩
      have ho : (b.order o).info ∈ LimitBook.infos b sh s := List.mem_map_of_mem hflat
      rw [h.infos s hs, hnil] at ho
      cases ho
  rw [updated_eq b u hs, (h.rep.levels s hs).head, hlevels]
  rfl

/-- A side is flagged by the updates for it that are not at a worse price than its first order. -/
theorem Holds.updated_of_cons (h : Holds b sh Q) (hs : s.IsTrading) {x : MarketOrderInfo}
    {xs : List MarketOrderInfo} (hside : Q.side s = x :: xs) :
    updated b u s = (decide (u.side_ = s) && !s.better x.price_ u.price_) := by
  rw [updated_eq b u hs, (h.rep.levels s hs).head]
  have hinfos := h.infos s hs
  rw [hside, LimitBook.infos, Shape.flat] at hinfos
  cases hls : sh.levels s with
  | nil =>
    rw [hls] at hinfos
    cases hinfos
  | cons l ls =>
    have hl : l ∈ sh.levels s := by simp [hls]
    obtain ⟨o, os, hos⟩ := List.exists_cons_of_ne_nil (h.rep.queues s hs l hl).ne_nil
    rw [hls, List.flatMap_cons, hos, List.cons_append, List.map_cons] at hinfos
    have hprice : OrderInfo.price (b.order o).info = (b.level l).price_ :=
      (h.rep.queues s hs l hl).price o (by simp [hos])
    rw [← (List.cons.inj hinfos).1]
    simp only [List.head?_cons]
    rw [← hprice]
    rfl

end holds

end MarketOrderBook

namespace Quotes

variable {Q : Quotes} {u : MEMarketUpdate} {s : Side}

/-! ## The best level under an update -/

/-- Taking out or changing orders behind the first price leaves the best level alone. -/
theorem topOf_filter {xs : List MarketOrderInfo} {p : MarketOrderInfo → Bool}
    (h : ∀ x ∈ xs.head?, ∀ y ∈ xs, y.price_ = x.price_ → p y = true) :
    topOf (xs.filter p) = topOf xs := by
  cases xs with
  | nil => rfl
  | cons x xs =>
    have hx := h x rfl
    rw [List.filter_cons_of_pos (hx x (List.mem_cons_self ..) rfl)]
    show (x.price_, qtyAt x.price_ (x :: xs.filter p)) = (x.price_, qtyAt x.price_ (x :: xs))
    rw [← List.filter_cons_of_pos (hx x (List.mem_cons_self ..) rfl), qtyAt, qtyAt,
      List.filter_filter]
    congr 3
    apply List.filter_congr
    intro y hy
    by_cases hprice : y.price_ = x.price_
    · simp [hprice, hx y hy hprice]
    · simp [hprice]

theorem topOf_map {xs : List MarketOrderInfo} {f : MarketOrderInfo → MarketOrderInfo}
    (hf : ∀ x, (f x).price_ = x.price_)
    (h : ∀ x ∈ xs.head?, ∀ y ∈ xs, y.price_ = x.price_ → f y = y) :
    topOf (xs.map f) = topOf xs := by
  cases xs with
  | nil => rfl
  | cons x xs =>
    have hx := h x rfl
    show ((f x).price_, qtyAt (f x).price_ ((x :: xs).map f)) =
      (x.price_, qtyAt x.price_ (x :: xs))
    rw [hf, qtyAt, qtyAt, List.filter_map, List.map_map]
    have hfilter : (x :: xs).filter ((fun y => decide (y.price_ = x.price_)) ∘ f) =
        (x :: xs).filter fun y => decide (y.price_ = x.price_) := by
      apply List.filter_congr
      intro y _
      rw [Function.comp_apply, hf]
    rw [hfilter]
    congr 2
    apply List.map_congr_left
    intro y hy
    rw [List.mem_filter, decide_eq_true_iff] at hy
    rw [Function.comp_apply, hx y hy.1 hy.2]

/-- An order at a worse price goes behind the best level. -/
theorem topOf_orderedInsert {y x : MarketOrderInfo} {xs : List MarketOrderInfo}
    (h : s.better x.price_ y.price_ = true) :
    topOf ((x :: xs).orderedInsert (Precedes s) y) = topOf (x :: xs) := by
  have hbehind : ¬ Precedes s y x := by
    unfold Precedes
    rw [Bool.not_eq_true]
    exact Side.better_asymm h
  have hne : y.price_ ≠ x.price_ := by
    intro heq
    rw [heq, Side.better_irrefl] at h
    cases h
  have hperm := (List.perm_orderedInsert (Precedes s) y (x :: xs)).filter
    fun z => decide (z.price_ = x.price_)
  rw [List.filter_cons_of_neg (by simpa using hne)] at hperm
  have hqty : qtyAt x.price_ ((x :: xs).orderedInsert (Precedes s) y) = qtyAt x.price_ (x :: xs) :=
    (hperm.map MarketOrderInfo.qty_).sum_nat
  rw [List.orderedInsert_cons, if_neg hbehind] at hqty ⊢
  exact congrArg (Prod.mk x.price_) hqty

end Quotes

namespace MarketOrderBook

open Quotes

section step

variable {b : LimitBook MarketOrderInfo ℕ} {sh : Shape} {m m' : MarketOrderBook} {Q : Quotes}
  {u : MEMarketUpdate} {s : Side}

/-- An update of an order behind the best level, or of the other side, is of none of the orders at
the best price. -/
theorem Holds.id_ne_of_not_updated (h : Holds b sh Q) (hs : s.IsTrading)
    (hknown : ∃ x ∈ Q.orders, x.order_id_ = u.order_id_ ∧ x.side_ = u.side_ ∧ x.price_ = u.price_)
    (hflag : updated b u s = false) :
    ∀ x ∈ (Q.side s).head?, ∀ y ∈ Q.side s, y.price_ = x.price_ → y.order_id_ ≠ u.order_id_ := by
  intro x hx y hy hprice hid
  obtain ⟨z, hz, hzid, hzside, hzprice⟩ := hknown
  obtain rfl := h.id_inj (mem_orders.mpr ⟨s, hs, hy⟩) hz (hid.trans hzid.symm)
  -- the update is for this order, so for this side and at the best price
  have hside : u.side_ = s := hzside.symm.trans (h.side hs _ hy)
  cases hlist : Q.side s with
  | nil =>
    rw [hlist] at hy
    cases hy
  | cons x' xs =>
    rw [hlist, List.head?_cons] at hx
    obtain rfl := Option.some.inj hx
    rw [h.updated_of_cons hs hlist, hside, ← hzprice, hprice, Side.better_irrefl] at hflag
    simp at hflag

/-- **An update that is not flagged leaves the best level alone**, unless it is the first order of
a side or clears a book that is not empty. -/
theorem Holds.top_apply_of_not_updated (h : Holds b sh Q) (hs : s.IsTrading)
    (hwf : Q.WellFormed u) (hkeep : Q.KeepsFlags u) (hflag : updated b u s = false) :
    (Q.apply u).top s = Q.top s := by
  unfold top
  cases hu : u.type_ with
  | ADD =>
    have hside : u.side_.IsTrading := by
      have := hwf.1
      simp only [hu] at this
      exact this.1
    rw [side_apply_add hu hside hs]
    split
    · -- the side is not empty, and the new order is behind its best level
      rename_i heq
      subst heq
      obtain ⟨x, xs, hlist⟩ := List.exists_cons_of_ne_nil (hkeep.1 hu)
      rw [h.updated_of_cons hs hlist] at hflag
      rw [hlist]
      exact topOf_orderedInsert (by simpa [added] using hflag)
    · rfl
  | MODIFY =>
    have hknown := hwf.1
    simp only [hu] at hknown
    have hne := h.id_ne_of_not_updated hs hknown hflag
    simp only [Quotes.apply, hu]
    rw [side_map hs]
    -- no order of the best level has the id
    apply topOf_map
    · intro x
      split
      · rfl
      · rfl
    · intro x hx y hy hprice
      rw [if_neg (hne x hx y hy hprice)]
  | CANCEL =>
    have hknown := hwf.1
    simp only [hu] at hknown
    have hne := h.id_ne_of_not_updated hs hknown hflag
    simp only [Quotes.apply, hu]
    rw [side_map hs]
    apply topOf_filter
    intro x hx y hy hprice
    exact decide_eq_true (hne x hx y hy hprice)
  | CLEAR =>
    rw [hkeep.2 hu]
    simp only [Quotes.apply, hu]
  | TRADE | INVALID | SNAPSHOT_START | SNAPSHOT_END => simp only [Quotes.apply, hu]

/-- An update of another type that is promised is one the book can follow. -/
theorem admits_of_wellFormed (hwf : Q.WellFormed u) (hadd : u.type_ ≠ .ADD)
    (hclear : u.type_ = .CLEAR → Q = .empty) : Q.Admits u := by
  have hpromised := hwf.1
  unfold Admits
  cases hu : u.type_ with
  | ADD => exact absurd hu hadd
  | MODIFY | CANCEL =>
    simp only [hu] at hpromised
    obtain ⟨x, hx, hid, -, -⟩ := hpromised
    exact ⟨x, hx, hid⟩
  | CLEAR => exact hclear hu
  | TRADE | INVALID | SNAPSHOT_START | SNAPSHOT_END => trivial

/-- **What goes through is what the lists do.** -/
theorem Holds.applyUpdate_of_ok {b' : LimitBook MarketOrderInfo ℕ} (h : Holds b sh Q)
    (hwf : Q.WellFormed u) (hcross : Q.Uncrossed u) (hclear : u.type_ = .CLEAR → Q = .empty)
    (hrun : applyUpdate b u = .ok b') : ∃ sh', Holds b' sh' (Q.apply u) := by
  by_cases hu : u.type_ = .ADD
  · have hpromised := hwf.1
    simp only [hu] at hpromised
    obtain ⟨hside, hid, hfresh, hslot⟩ := hpromised
    -- an order in the price slot is at the same price, so not of the other side
    have hslot' : ∀ s, s.IsTrading → ∀ x ∈ Q.side s,
        priceToIndex x.price_ = priceToIndex u.price_ → x.price_ = u.price_ ∧ s = u.side_ := by
      intro s hs x hx hidx
      have hprice := hslot x (mem_orders.mpr ⟨s, hs, hx⟩) hidx
      refine ⟨hprice, ?_⟩
      rcases hside.eq_or_eq_opposite hs with heq | heq
      · exact heq
      · exact absurd hprice (hcross hu x (heq ▸ hx))
    rcases add_cases h hu hside hid hfresh hslot' with ⟨b'', sh', hrun', h'⟩ | ⟨herror, -⟩
    · obtain rfl := Except.ok.inj (hrun.symm.trans hrun')
      exact ⟨sh', h'⟩
    · rw [herror] at hrun
      cases hrun
  · obtain ⟨b'', sh', hrun', h'⟩ := applyUpdate_spec h (admits_of_wellFormed hwf hu hclear)
    obtain rfl := Except.ok.inj (hrun.symm.trans hrun')
    exact ⟨sh', h'⟩

/-- What an update leaves in the book and in `bbo_`. -/
theorem onMarketUpdate_of_ok (hother : u.type_ ≠ .TRADE) (hrun : m.onMarketUpdate u = .ok m') :
    ∃ book, applyUpdate m.book u = .ok book ∧
      ∃ m₁ : MarketOrderBook, MarketOrderBook.updateBBO { m with book := book }
          (bidUpdated m.book u) (askUpdated m.book u) = .ok m₁ ∧
        m'.book = m₁.book ∧ m'.bbo_ = m₁.bbo_ := by
  unfold onMarketUpdate at hrun
  simp only [if_neg hother] at hrun
  obtain ⟨book, hbook, hrun⟩ := bind_eq_ok.mp hrun
  obtain ⟨m₁, hm₁, hrun⟩ := bind_eq_ok.mp hrun
  cases hrun
  exact ⟨book, hbook, m₁, hm₁, rfl, rfl⟩

/-- `updateBBO` takes the best levels of the flagged sides. -/
theorem quote_updateBBO (h : BookRep m.book sh) {update_bid update_ask : Bool}
    (hrun : m.updateBBO update_bid update_ask = .ok m') :
    m'.book = m.book ∧ ∀ s, s.IsTrading → m'.bbo_.quote s =
      if (if s = .BUY then update_bid else update_ask) = true then
        bestQuote (m.book.levelsView s)
      else m.bbo_.quote s := by
  have hbid : topOfBook m.book m.book.bids_by_price_ =
      .ok (bestQuote (m.book.levelsView .BUY)) := topOfBook_spec h (.inl rfl)
  have hask : topOfBook m.book m.book.asks_by_price_ =
      .ok (bestQuote (m.book.levelsView .SELL)) := topOfBook_spec h (.inr rfl)
  cases update_bid <;> cases update_ask <;>
    simp only [updateBBO, updateBid, updateAsk, hbid, hask, ok_bind, Bool.false_eq_true, if_true,
      if_false, Except.ok.injEq] at hrun <;>
    subst hrun <;> refine ⟨rfl, fun s hs => ?_⟩ <;> rcases hs with rfl | rfl <;> rfl

/-- A flagged side is right after the update, whatever `bbo_` said of it before. -/
theorem quote_of_updated (h : Holds m.book sh Q) (hwf : Q.WellFormed u) (hcross : Q.Uncrossed u)
    (hclear : u.type_ = .CLEAR → Q = .empty) (hother : u.type_ ≠ .TRADE) (hs : s.IsTrading)
    (hflag : updated m.book u s = true) (hrun : m.onMarketUpdate u = .ok m') :
    m'.bbo_.quote s = bestLevel (m'.book.levelsView s) := by
  obtain ⟨book, hbook, m₁, hbbo, hbook', hbbo'⟩ := onMarketUpdate_of_ok hother hrun
  obtain ⟨sh', h'⟩ := h.applyUpdate_of_ok hwf hcross hclear hbook
  obtain ⟨hsame, hquote⟩ := quote_updateBBO (m := { m with book := book }) h'.rep hbbo
  rw [hbbo', hquote s hs, hbook', hsame, h'.bestLevel_eq hs]
  show (if updated m.book u s = true then _ else _) = _
  rw [if_pos hflag]
  exact h'.bestQuote_eq hwf.2 hs

/-- Flags or not, an update that is none of the two exceptions leaves `bbo_` right. -/
theorem describes_onMarketUpdate (h : Holds m.book sh Q) (hm : m.Describes)
    (hwf : Q.WellFormed u) (hcross : Q.Uncrossed u) (hkeep : Q.KeepsFlags u)
    (hrun : m.onMarketUpdate u = .ok m') :
    ∃ sh', Holds m'.book sh' (Q.apply u) ∧ m'.Describes := by
  by_cases htrade : u.type_ = .TRADE
  · -- a trade changes neither the orders nor `bbo_`
    refine ⟨sh, ?_⟩
    simp only [onMarketUpdate, htrade, if_true, Except.ok.injEq] at hrun
    subst hrun
    refine ⟨?_, hm⟩
    simpa only [Quotes.apply, htrade] using h
  · obtain ⟨book, hbook, m₁, hbbo, hbook', hbbo'⟩ := onMarketUpdate_of_ok htrade hrun
    obtain ⟨sh', h'⟩ := h.applyUpdate_of_ok hwf hcross hkeep.2 hbook
    obtain ⟨hsame, hquote⟩ := quote_updateBBO (m := { m with book := book }) h'.rep hbbo
    have hholds : Holds m'.book sh' (Q.apply u) := by
      rw [hbook', hsame]
      exact h'
    refine ⟨sh', hholds, fun s hs => ?_⟩
    rw [hholds.bestLevel_eq hs, hbbo', hquote s hs]
    show (if updated m.book u s = true then _ else _) = _
    cases hflag : updated m.book u s with
    | true => exact h'.bestQuote_eq hwf.2 hs
    | false =>
      rw [h.top_apply_of_not_updated hs hwf hkeep hflag]
      exact (hm s hs).trans (h.bestLevel_eq hs)

/-- Without a flag `bbo_` stays what it was. -/
theorem bbo_of_not_updated (hother : u.type_ ≠ .TRADE)
    (hflags : ∀ s, s.IsTrading → updated m.book u s = false) (hrun : m.onMarketUpdate u = .ok m') :
    m'.bbo_ = m.bbo_ ∧ applyUpdate m.book u = .ok m'.book := by
  obtain ⟨book, hbook, m₁, hbbo, hbook', hbbo'⟩ := onMarketUpdate_of_ok hother hrun
  have hbid : bidUpdated m.book u = false := hflags .BUY (.inl rfl)
  have hask : askUpdated m.book u = false := hflags .SELL (.inr rfl)
  rw [hbid, hask] at hbbo
  obtain rfl := Except.ok.inj hbbo
  rw [hbook', hbbo']
  exact ⟨rfl, hbook⟩

/-- A side with no order, or one the update is not about, is not flagged. -/
theorem Holds.not_updated (h : Holds m.book sh Q) (hs : s.IsTrading)
    (hne : Q.side s ≠ [] → u.side_ ≠ s) : updated m.book u s = false := by
  cases hlist : Q.side s with
  | nil => exact h.updated_of_nil hs hlist
  | cons x xs =>
    have hside : u.side_ ≠ s := hne (hlist ▸ List.cons_ne_nil x xs)
    rw [h.updated_of_cons hs hlist, decide_eq_false hside, Bool.false_and]

/-- **The first order of a side is not seen**: `bbo_` still says that the side is empty. -/
theorem not_describes_add (h : Holds m.book sh Q) (hm : m.Describes) (hwf : Q.WellFormed u)
    (hcross : Q.Uncrossed u) (hu : u.type_ = .ADD) (hempty : Q.side u.side_ = [])
    (hrun : m.onMarketUpdate u = .ok m') : ¬ m'.Describes := by
  have hside : u.side_.IsTrading := by
    have hpromised := hwf.1
    simp only [hu] at hpromised
    exact hpromised.1
  have hflags : ∀ s, s.IsTrading → updated m.book u s = false := by
    intro s hs
    apply h.not_updated hs
    rintro hsome rfl
    exact hsome hempty
  obtain ⟨hbbo, hbook⟩ := bbo_of_not_updated (by simp [hu]) hflags hrun
  obtain ⟨sh', h'⟩ := h.applyUpdate_of_ok hwf hcross (by simp [hu]) hbook
  intro hdescribes
  have hnew : m'.bbo_.quote u.side_ = (Q.apply u).top u.side_ :=
    (hdescribes _ hside).trans (h'.bestLevel_eq hside)
  have hold : m.bbo_.quote u.side_ = Q.top u.side_ := (hm _ hside).trans (h.bestLevel_eq hside)
  have hlist : (Q.apply u).side u.side_ = [added u] := by
    rw [side_apply_add hu hside hside, if_pos rfl, hempty]
    rfl
  rw [hbbo, hold, top, top, hempty, hlist] at hnew
  have hprice : Price_INVALID = u.price_ := congrArg Prod.fst hnew
  exact hwf.2.price _ hside (added u) (by simp [hlist]) hprice.symm

/-- **A cleared book is not seen**: `bbo_` still says what was quoted before. -/
theorem not_describes_clear (h : Holds m.book sh Q) (hQ : Q.Sound) (hm : m.Describes)
    (hwf : Q.WellFormed u) (hu : u.type_ = .CLEAR) (hsome : Q ≠ .empty)
    (hrun : m.onMarketUpdate u = .ok m') : ¬ m'.Describes := by
  have hinvalid : u.side_ = .INVALID := by
    have hpromised := hwf.1
    simpa only [hu] using hpromised
  have hflags : ∀ s, s.IsTrading → updated m.book u s = false := by
    intro s hs
    apply h.not_updated hs
    intro _
    rw [hinvalid]
    rcases hs with rfl | rfl <;> decide
  obtain ⟨hbbo, hbook⟩ := bbo_of_not_updated (by simp [hu]) hflags hrun
  -- some side had an order
  obtain ⟨s, hs, x, xs, hlist⟩ : ∃ s : Side, s.IsTrading ∧ ∃ x xs, Q.side s = x :: xs := by
    by_contra hnone
    apply hsome
    apply ext_side
    intro s hs
    cases hlist : Q.side s with
    | nil =>
      rcases hs with rfl | rfl <;> rfl
    | cons x xs => exact absurd ⟨s, hs, x, xs, hlist⟩ hnone
  obtain ⟨book, hclear, hcleared⟩ := clear_spec h.rep
  have happly : applyUpdate m.book u = clear m.book := by
    simp only [applyUpdate, hu]
  rw [happly, hclear] at hbook
  obtain rfl := Except.ok.inj hbook
  have hview : m'.book.levelsView s = [] := by
    have hbest : m'.book.best s = none := by
      rcases hs with rfl | rfl
      · exact hcleared.bids
      · exact hcleared.asks
    simp [levelsView, levelList, hbest]
  intro hdescribes
  have hnew := hdescribes s hs
  rw [hview, hbbo, (hm s hs).trans (h.bestLevel_eq hs), top, hlist] at hnew
  have hprice : x.price_ = Price_INVALID := congrArg Prod.fst hnew
  exact hQ.price s hs x (by simp [hlist]) hprice

/-! ## Runs -/

/-- After the update `bbo_` describes the book. -/
def LeavesDescribed (m : MarketOrderBook) (u : MEMarketUpdate) : Prop :=
  ∀ m', m.onMarketUpdate u = .ok m' → m'.Describes

/-- **The BBO describes the book** after every update of a run, from a new book or any other that
`bbo_` describes, exactly when no order is the first of its side and no book with orders is
cleared. -/
theorem describes_run_iff {us : List MEMarketUpdate} :
    ∀ {m m' : MarketOrderBook} {sh : Shape} {Q : Quotes}, Holds m.book sh Q → Q.Sound →
      m.Describes → Along WellFormed Q us → Along Uncrossed Q us → m.run us = .ok m' →
      (Lib.Runs.Along onMarketUpdate LeavesDescribed m us ↔ Along KeepsFlags Q us) := by
  induction us with
  | nil =>
    intro m m' sh Q _ _ _ _ _ _
    exact Iff.rfl
  | cons u us ih =>
    intro m m' sh Q h hQ hm hwf hcross hrun
    obtain ⟨m₁, hstep, hrest⟩ := Lib.Runs.foldlM_cons_eq_ok.mp hrun
    rw [Lib.Runs.along_cons_of_ok hstep]
    by_cases hkeep : Q.KeepsFlags u
    · obtain ⟨sh₁, h₁, hm₁⟩ := describes_onMarketUpdate h hm hwf.1 hcross.1 hkeep hstep
      rw [ih h₁ hwf.1.2 hm₁ hwf.2 hcross.2 hrest]
      refine and_congr_left fun _ => iff_of_true (fun m₁' hstep' => ?_) hkeep
      obtain rfl := Except.ok.inj (hstep.symm.trans hstep')
      exact hm₁
    · apply iff_of_false
      · intro hleaves
        have hm₁ := hleaves.1 m₁ hstep
        by_cases hadd : u.type_ = .ADD ∧ Q.side u.side_ = []
        · exact not_describes_add h hm hwf.1 hcross.1 hadd.1 hadd.2 hstep hm₁
        · -- the other exception: the book is cleared
          have hclear : u.type_ = .CLEAR ∧ Q ≠ .empty := by
            unfold KeepsFlags at hkeep
            by_contra hnot
            apply hkeep
            constructor
            · intro hu hnil
              exact hadd ⟨hu, hnil⟩
            · intro hu
              by_contra hne
              exact hnot ⟨hu, hne⟩
          exact not_describes_clear h hQ hm hwf.1 hclear.1 hclear.2 hstep hm₁
      · intro hall
        exact hkeep hall.1

end step

/-! ## A new book -/

theorem describes_new (ticker_id : ℕ) : (new ticker_id).Describes := by
  rintro s (rfl | rfl) <;> rfl

theorem sound_empty : Quotes.empty.Sound where
  price := fun s hs x hx => by rcases hs with rfl | rfl <;> cases hx
  qty := fun s hs price => by rcases hs with rfl | rfl <;> exact Nat.two_pow_pos 32

/-- The first bid of a book. -/
def firstBid : MEMarketUpdate where
  type_ := .ADD
  order_id_ := 1
  ticker_id_ := 0
  side_ := .BUY
  price_ := 100
  qty_ := 5
  priority_ := 1

theorem wellFormed_firstBid : Quotes.empty.WellFormed firstBid := by
  refine ⟨⟨.inl rfl, by decide, (fun x hx => by cases hx), (fun x hx => by cases hx)⟩, ?_, ?_⟩
  · intro s hs x hx
    rcases hs with rfl | rfl
    · obtain rfl := List.mem_singleton.mp hx
      decide
    · cases hx
  · intro s hs price
    rcases hs with rfl | rfl
    · show qtyAt price [added firstBid] < 2 ^ 32
      rw [qtyAt, List.filter_cons]
      split
      · simp [added, firstBid]
      · simp
    · exact Nat.two_pow_pos 32

theorem run_firstBid : ∃ m, (new 0).run [firstBid] = .ok m := by
  have hadm : Quotes.empty.AdmitsAll [firstBid] := by
    refine ⟨⟨.inl rfl, by decide, (fun x hx => by cases hx), ?_, by decide, by decide⟩, trivial⟩
    intro s hs x hx
    rcases hs with rfl | rfl <;> cases hx
  obtain ⟨m, -, hrun, -⟩ := run_spec (holds_new 0) hadm
  exact ⟨m, hrun⟩

/-- **The first bid of a new book is missing from the BBO.** -/
theorem not_describes_firstBid :
    Along WellFormed .empty [firstBid] ∧ Along Uncrossed .empty [firstBid] ∧
      ∃ m, (new 0).run [firstBid] = .ok m ∧ ¬ m.Describes := by
  have hcross : Quotes.empty.Uncrossed firstBid := fun _ x hx => by cases hx
  obtain ⟨m, hrun⟩ := run_firstBid
  obtain ⟨m₁, hstep, hrest⟩ := Lib.Runs.foldlM_cons_eq_ok.mp hrun
  obtain rfl := Except.ok.inj hrest
  exact ⟨⟨wellFormed_firstBid, trivial⟩, ⟨hcross, trivial⟩, m₁, hrun,
    not_describes_add (holds_new 0) (describes_new 0) wellFormed_firstBid hcross rfl rfl hstep⟩

/-- From a new book the run of one bid. -/
theorem describes_run_iff_firstBid :
    ∃ m, (new 0).run [firstBid] = .ok m ∧
      (Lib.Runs.Along onMarketUpdate LeavesDescribed (new 0) [firstBid] ↔
        Along KeepsFlags .empty [firstBid]) := by
  obtain ⟨m, hrun⟩ := run_firstBid
  exact ⟨m, hrun, describes_run_iff (holds_new 0) sound_empty (describes_new 0)
    ⟨wellFormed_firstBid, trivial⟩ ⟨(fun _ x hx => by cases hx), trivial⟩ hrun⟩

end MarketOrderBook

end TradingEcosystem
