import TradingEcosystem.Book.View
import TradingEcosystem.Trading.Clear

/-!
# What the Client's Book Holds

The client's book without its memory: per side the list of quoted orders, best price first and
in the order of their arrival within one price.

- `Quotes.apply` : what a market update does to these lists
- `Quotes.Admits` : the updates a well-informed publisher sends
- `onMarketUpdate_spec` : the memory follows the lists
-/

namespace TradingEcosystem

open LimitBook Lib.Ring Lib.SortedInsert

structure Quotes where
  bids : List MarketOrderInfo
  asks : List MarketOrderInfo
  deriving DecidableEq

namespace Quotes

def empty : Quotes := ⟨[], []⟩

def side (Q : Quotes) (s : Side) : List MarketOrderInfo := if s = .BUY then Q.bids else Q.asks

/-- All quoted orders. -/
def orders (Q : Quotes) : List MarketOrderInfo := Q.bids ++ Q.asks

/-- Change both sides the same way. -/
def map (Q : Quotes) (f : List MarketOrderInfo → List MarketOrderInfo) : Quotes :=
  ⟨f Q.bids, f Q.asks⟩

/-- The order an `ADD` describes. -/
def added (u : MEMarketUpdate) : MarketOrderInfo where
  order_id_ := u.order_id_
  side_ := u.side_
  price_ := u.price_
  qty_ := u.qty_
  priority_ := u.priority_

/-- The `ADD` that describes a quoted order. -/
def addOf (ticker_id : ℕ) (x : MarketOrderInfo) : MEMarketUpdate where
  type_ := .ADD
  order_id_ := x.order_id_
  ticker_id_ := ticker_id
  side_ := x.side_
  price_ := x.price_
  qty_ := x.qty_
  priority_ := x.priority_

/-- What an update does to the quoted orders. -/
def apply (Q : Quotes) (u : MEMarketUpdate) : Quotes :=
  match u.type_ with
  | .ADD =>
    if u.side_ = .BUY then
      { Q with bids := Q.bids.orderedInsert (Precedes .BUY) (added u) }
    else
      { Q with asks := Q.asks.orderedInsert (Precedes .SELL) (added u) }
  | .MODIFY =>
    Q.map fun xs => xs.map fun x => if x.order_id_ = u.order_id_ then { x with qty_ := u.qty_ } else x
  | .CANCEL => Q.map fun xs => xs.filter fun x => decide (x.order_id_ ≠ u.order_id_)
  | .CLEAR => empty
  | .TRADE | .INVALID | .SNAPSHOT_START | .SNAPSHOT_END => Q

def applyAll (Q : Quotes) (us : List MEMarketUpdate) : Quotes := us.foldl apply Q

/-- The number of price levels the orders of a side take. -/
def levelCount (xs : List MarketOrderInfo) : ℕ := (xs.map MarketOrderInfo.price_).toFinset.card

/-- The quoted orders and their levels leave a block free in each pool of the book. -/
def Fits (Q : Quotes) : Prop :=
  Q.orders.length < ME_MAX_ORDER_IDS ∧ levelCount Q.bids + levelCount Q.asks < ME_MAX_PRICE_LEVELS

/-- The updates the book can follow: an `ADD` is of a new order on a real side, no order of
another price or side uses its price slot and there is room for it; a `MODIFY` or `CANCEL` is
of an order the book knows; a `CLEAR` comes when the book is empty. -/
def Admits (Q : Quotes) (u : MEMarketUpdate) : Prop :=
  match u.type_ with
  | .ADD =>
    u.side_.IsTrading ∧ u.order_id_ < ME_MAX_ORDER_IDS ∧
      (∀ x ∈ Q.orders, x.order_id_ ≠ u.order_id_) ∧
      (∀ s, s.IsTrading → ∀ x ∈ Q.side s,
        priceToIndex x.price_ = priceToIndex u.price_ → x.price_ = u.price_ ∧ s = u.side_) ∧
      (Q.apply u).Fits
  | .MODIFY | .CANCEL => ∃ x ∈ Q.orders, x.order_id_ = u.order_id_
  | .CLEAR => Q = empty
  | .TRADE | .INVALID | .SNAPSHOT_START | .SNAPSHOT_END => True

/-- Every update has a property relative to the quotes that meet it. -/
def Along (p : Quotes → MEMarketUpdate → Prop) : Quotes → List MEMarketUpdate → Prop
  | _, [] => True
  | Q, u :: us => p Q u ∧ Along p (Q.apply u) us

/-- Every update is one the book that meets it can follow. -/
def AdmitsAll (Q : Quotes) (us : List MEMarketUpdate) : Prop := Along Admits Q us

theorem applyAll_append (Q : Quotes) (us us' : List MEMarketUpdate) :
    Q.applyAll (us ++ us') = (Q.applyAll us).applyAll us' :=
  List.foldl_append

theorem along_append {p : Quotes → MEMarketUpdate → Prop} {Q : Quotes}
    {us us' : List MEMarketUpdate} :
    Along p Q (us ++ us') ↔ Along p Q us ∧ Along p (Q.applyAll us) us' := by
  induction us generalizing Q with
  | nil => simp [Along, applyAll]
  | cons u us ih =>
    simp only [List.cons_append, Along, ih, and_assoc, applyAll, List.foldl_cons]

theorem Along.imp {p p' : Quotes → MEMarketUpdate → Prop} (himp : ∀ Q u, p Q u → p' Q u)
    {us : List MEMarketUpdate} : ∀ {Q : Quotes}, Along p Q us → Along p' Q us := by
  induction us with
  | nil =>
    intro Q _
    trivial
  | cons u us ih =>
    intro Q h
    exact ⟨himp Q u h.1, ih h.2⟩

/-- A property that every update keeps holds at the end. -/
theorem Along.invariant {p : Quotes → MEMarketUpdate → Prop} {I : Quotes → Prop}
    (hstep : ∀ Q u, I Q → p Q u → I (Q.apply u)) {us : List MEMarketUpdate} :
    ∀ {Q : Quotes}, I Q → Along p Q us → I (Q.applyAll us) := by
  induction us with
  | nil =>
    intro Q hI _
    exact hI
  | cons u us ih =>
    intro Q hI h
    exact ih (hstep Q u hI h.1) h.2

theorem admitsAll_append {Q : Quotes} {us us' : List MEMarketUpdate} :
    Q.AdmitsAll (us ++ us') ↔ Q.AdmitsAll us ∧ (Q.applyAll us).AdmitsAll us' :=
  along_append

theorem mem_orders {Q : Quotes} {x : MarketOrderInfo} :
    x ∈ Q.orders ↔ ∃ s, s.IsTrading ∧ x ∈ Q.side s :=
  Side.mem_append_iff (f := Q.side)

theorem orders_perm (Q : Quotes) {s : Side} (hs : s.IsTrading) :
    Q.orders.Perm (Q.side s ++ Q.side s.opposite) := by
  rcases hs with rfl | rfl
  · exact List.Perm.refl _
  · exact List.perm_append_comm

/-- Quotes are their two sides. -/
theorem ext_side {Q Q' : Quotes} (h : ∀ s, s.IsTrading → Q.side s = Q'.side s) : Q = Q' := by
  have hbids : Q.bids = Q'.bids := h .BUY (.inl rfl)
  have hasks : Q.asks = Q'.asks := h .SELL (.inr rfl)
  cases Q
  cases Q'
  simp_all

theorem side_map {Q : Quotes} {f : List MarketOrderInfo → List MarketOrderInfo} {s : Side}
    (hs : s.IsTrading) : (Q.map f).side s = f (Q.side s) := by
  rcases hs with rfl | rfl <;> rfl

/-- The sides after an `ADD`. -/
theorem side_apply_add {Q : Quotes} {u : MEMarketUpdate} (hu : u.type_ = .ADD)
    (hside : u.side_.IsTrading) {s : Side} (hs : s.IsTrading) :
    (Q.apply u).side s =
      if s = u.side_ then (Q.side u.side_).orderedInsert (Precedes u.side_) (added u)
      else Q.side s := by
  simp only [apply, hu]
  rcases hside with h | h <;> rcases hs with rfl | rfl <;> simp [h, side]

/-- An `ADD` adds one order. -/
theorem orders_apply_add {Q : Quotes} {u : MEMarketUpdate} (hu : u.type_ = .ADD)
    (hside : u.side_.IsTrading) : (Q.apply u).orders.Perm (added u :: Q.orders) := by
  have hown := side_apply_add (Q := Q) hu hside hside
  have hopp := side_apply_add (Q := Q) hu hside hside.opposite
  rw [if_pos rfl] at hown
  rw [if_neg hside.opposite_ne] at hopp
  have hperm := (Q.apply u).orders_perm hside
  rw [hown, hopp] at hperm
  have hins := (List.perm_orderedInsert (Precedes u.side_) (added u) (Q.side u.side_)).append_right
    (Q.side u.side_.opposite)
  exact (hperm.trans hins).trans ((Q.orders_perm hside).symm.cons _)

end Quotes

namespace MarketOrderBook

/-! ## The relation -/

/-- The memory `b`, of shape `sh`, holds the quoted orders `Q`. -/
structure Holds (b : LimitBook MarketOrderInfo ℕ) (sh : Shape) (Q : Quotes) : Prop where
  rep : BookRep b sh
  infos : ∀ s, s.IsTrading → infos b sh s = Q.side s
  order_size : b.order_pool_.size = ME_MAX_ORDER_IDS
  level_size : b.orders_at_price_pool_.size = ME_MAX_PRICE_LEVELS

theorem holds_new (ticker_id : ℕ) : Holds (MarketOrderBook.new ticker_id).book Shape.empty .empty where
  rep := BookRep.empty rfl rfl (fun _ => rfl) (fun _ => rfl)
    (MemPool.WF.new _ (by decide)) (MemPool.WF.new _ (by decide)) (MemPool.used_new ..)
    (MemPool.used_new ..)
  infos := fun s hs => by rcases hs with rfl | rfl <;> rfl
  order_size := rfl
  level_size := rfl

section holds

variable {b : LimitBook MarketOrderInfo ℕ} {sh : Shape} {Q : Quotes}

theorem Holds.orders_eq (h : Holds b sh Q) :
    sh.orders.map (fun o => (b.order o).info) = Q.orders := by
  rw [Shape.orders, List.map_append, Quotes.orders]
  exact congrArg₂ _ (h.infos .BUY (.inl rfl)) (h.infos .SELL (.inr rfl))

theorem Holds.length_orders (h : Holds b sh Q) : sh.orders.length = Q.orders.length := by
  rw [← h.orders_eq, List.length_map]

theorem Holds.length_levels (h : Holds b sh Q) :
    sh.all.length = Quotes.levelCount Q.bids + Quotes.levelCount Q.asks := by
  have hbids := h.rep.length_levels (s := .BUY) (.inl rfl)
  have hasks := h.rep.length_levels (s := .SELL) (.inr rfl)
  rw [h.infos _ (.inl rfl)] at hbids
  rw [h.infos _ (.inr rfl)] at hasks
  rw [Shape.all, List.length_append]
  exact congrArg₂ _ hbids hasks

/-- An order the lists know is in the order map. -/
theorem Holds.find (h : Holds b sh Q) {oid : ℕ} (hx : ∃ x ∈ Q.orders, x.order_id_ = oid) :
    ∃ o ∈ sh.orders, (b.order o).info.order_id_ = oid ∧ b.getKey oid = .ok (some o) := by
  obtain ⟨x, hx, hid⟩ := hx
  rw [← h.orders_eq] at hx
  obtain ⟨o, ho, rfl⟩ := List.mem_map.mp hx
  have hkey := (h.rep.keys oid o).mpr ⟨ho, hid⟩
  have hrange := h.rep.keys_inRange o ho
  rw [show OrderInfo.key (b.order o).info = oid from hid] at hrange
  exact ⟨o, ho, hid, by rw [getKey, if_pos hrange, hkey]⟩

/-- Two books that hold the same quotes have the same levels and queues. -/
theorem Holds.levelsView_eq {b' : LimitBook MarketOrderInfo ℕ} {sh' : Shape} (h : Holds b sh Q)
    (h' : Holds b' sh' Q) {s : Side}
    (hs : s.IsTrading) : b'.levelsView s = b.levelsView s := by
  have hlist : b'.orderList s = (b.orderList s).map id := by
    rw [List.map_id, h'.rep.orderList_eq hs, h.rep.orderList_eq hs, h'.infos s hs, h.infos s hs]
  rw [levelsView_eq_map (f := id) (fun _ => rfl) h.rep h'.rep hs hlist]
  conv_rhs => rw [← List.map_id (b.levelsView s)]
  apply List.map_congr_left
  intro g _
  rw [List.map_id, id]

/-! ## Updates -/

/-- `ADD` is sorted insertion, unless a pool of the book gets down to its last block. -/
theorem add_cases {u : MEMarketUpdate} (h : Holds b sh Q) (hu : u.type_ = .ADD)
    (hside : u.side_.IsTrading) (hid : u.order_id_ < ME_MAX_ORDER_IDS)
    (hfresh : ∀ x ∈ Q.orders, x.order_id_ ≠ u.order_id_)
    (hslot : ∀ s, s.IsTrading → ∀ x ∈ Q.side s,
      priceToIndex x.price_ = priceToIndex u.price_ → x.price_ = u.price_ ∧ s = u.side_) :
    (∃ b' sh', applyUpdate b u = .ok b' ∧ Holds b' sh' (Q.apply u)) ∨
    (applyUpdate b u = .error .outOfSpace ∧
      (sh.orders.length + 1 = b.order_pool_.size ∨
        b.getOrdersAtPrice u.price_ = none ∧ sh.all.length + 1 = b.orders_at_price_pool_.size)) := by
  have hkey : ∀ s, s.IsTrading → ∀ x ∈ infos b sh s,
      OrderInfo.key x ≠ OrderInfo.key (Quotes.added u) := fun s hs x hx =>
    hfresh x (Quotes.mem_orders.mpr ⟨s, hs, h.infos s hs ▸ hx⟩)
  have hslot' : ∀ s, s.IsTrading → ∀ x ∈ infos b sh s,
      priceToIndex (OrderInfo.price x) = priceToIndex (OrderInfo.price (Quotes.added u)) →
        OrderInfo.price x = OrderInfo.price (Quotes.added u) ∧ s = u.side_ := fun s hs x hx =>
    hslot s hs x (h.infos s hs ▸ hx)
  have happly : applyUpdate b u = b.insertOrder (Quotes.added u) := by
    simp only [applyUpdate, hu]
    rfl
  rw [happly]
  rcases insertOrder_spec h.rep hside rfl (decide_eq_true hid) hkey hslot' with
    ⟨b', sh', hrun, hrep, hins⟩ | hfull
  · refine .inl ⟨b', sh', hrun, hrep, ?_, hins.order_size.trans h.order_size,
      hins.level_size.trans h.level_size⟩
    intro s hs
    rw [hins.infos s hs, Quotes.side_apply_add hu hside hs, h.infos _ hside, h.infos s hs]
  · exact .inr hfull

/-- `ADD` is sorted insertion. -/
theorem add_spec {u : MEMarketUpdate} (h : Holds b sh Q) (hu : u.type_ = .ADD)
    (hadm : Q.Admits u) :
    ∃ b' sh', applyUpdate b u = .ok b' ∧ Holds b' sh' (Q.apply u) := by
  simp only [Quotes.Admits, hu] at hadm
  obtain ⟨hside, hid, hfresh, hslot, hfits⟩ := hadm
  have hsides : (Q.apply u).orders.length = Q.orders.length + 1 :=
    (Quotes.orders_apply_add hu hside).length_eq
  rcases add_cases h hu hside hid hfresh hslot with hrun | ⟨-, hfull⟩
  · exact hrun
  · exfalso
    obtain ⟨hforders, hflevels⟩ := hfits
    rcases hfull with horders | ⟨hnone, hlevels⟩
    · rw [h.length_orders, h.order_size] at horders
      omega
    · -- no order has the price, so the new one takes a level of its own
      rw [h.length_levels, h.level_size] at hlevels
      have hprice : ∀ s, s.IsTrading → u.price_ ∉ (Q.side s).map MarketOrderInfo.price_ := by
        intro s hs hmem
        obtain ⟨x, hx, hxp⟩ := List.mem_map.mp hmem
        rw [← h.infos s hs] at hx
        obtain ⟨o, ho, rfl⟩ := List.mem_map.mp hx
        obtain ⟨l, hl, hol⟩ := Shape.mem_flat.mp ho
        have hsome := h.rep.level_of_order (Shape.mem_all.mpr ⟨s, hs, hl⟩) hol
        rw [show OrderInfo.price (b.order o).info = u.price_ from hxp] at hsome
        rw [show b.getOrdersAtPrice u.price_ = none from hnone] at hsome
        cases hsome
      have hcount : ∀ s : Side, u.price_ ∉ (Q.side s).map MarketOrderInfo.price_ →
          Quotes.levelCount ((Q.side s).orderedInsert (Precedes s) (Quotes.added u)) =
            Quotes.levelCount (Q.side s) + 1 := by
        intro s hnot
        have hperm := (List.perm_orderedInsert (Precedes s) (Quotes.added u)
          (Q.side s)).map MarketOrderInfo.price_
        rw [Quotes.levelCount, List.toFinset_eq_of_perm _ _ hperm, List.map_cons,
          List.toFinset_cons, Finset.card_insert_of_notMem]
        · rfl
        · rw [List.mem_toFinset]
          exact hnot
      simp only [Quotes.apply, hu] at hflevels
      rcases hside with hs | hs
      · have hone := hcount .BUY (hprice .BUY (.inl rfl))
        simp only [hs, if_true, Quotes.side] at hflevels hone
        omega
      · have hone := hcount .SELL (hprice .SELL (.inr rfl))
        simp only [hs, reduceCtorEq, if_false, Quotes.side] at hflevels hone
        omega

/-- `MODIFY` rewrites the quantity of one order. -/
theorem modify_spec {u : MEMarketUpdate} (h : Holds b sh Q) (hu : u.type_ = .MODIFY)
    (hadm : Q.Admits u) :
    ∃ b' sh', applyUpdate b u = .ok b' ∧ Holds b' sh' (Q.apply u) := by
  have hknown : ∃ x ∈ Q.orders, x.order_id_ = u.order_id_ := by
    simpa only [Quotes.Admits, hu] using hadm
  obtain ⟨o, ho, hid, hget⟩ := h.find hknown
  set setQty : MarketOrderInfo → MarketOrderInfo := fun info => { info with qty_ := u.qty_ }
    with hsetQty
  obtain ⟨hrep, hinfo⟩ : BookRep (b.modInfo o setQty) sh ∧
      ∀ k, ((b.modInfo o setQty).order k).info =
        if k = o then setQty (b.order o).info else (b.order k).info :=
    modInfo_spec h.rep (fun _ => rfl) (fun _ => rfl) fun _ => rfl
  refine ⟨b.modInfo o setQty, sh, ?_, hrep, ?_, h.order_size, h.level_size⟩
  · simp only [applyUpdate, hu, hget, deref_some, ok_bind, ← hsetQty]
  · intro s hs
    simp only [Quotes.apply, hu]
    rw [Quotes.side_map hs, ← h.infos s hs, LimitBook.infos, LimitBook.infos, List.map_map]
    refine List.map_congr_left fun k hk => ?_
    have hk' := Linked.mem_orders_of_flat hs hk
    rw [hinfo, Function.comp_apply]
    by_cases hko : k = o
    · rw [if_pos hko, hko, if_pos hid]
    · have hne : (b.order k).info.order_id_ ≠ u.order_id_ := fun heq =>
        hko (h.rep.key_inj hk' ho (heq.trans hid.symm))
      rw [if_neg hko, if_neg hne]

/-- `CANCEL` takes one order out. -/
theorem cancel_spec {u : MEMarketUpdate} (h : Holds b sh Q) (hu : u.type_ = .CANCEL)
    (hadm : Q.Admits u) :
    ∃ b' sh', applyUpdate b u = .ok b' ∧ Holds b' sh' (Q.apply u) := by
  have hknown : ∃ x ∈ Q.orders, x.order_id_ = u.order_id_ := by
    simpa only [Quotes.Admits, hu] using hadm
  obtain ⟨o, ho, hid, hget⟩ := h.find hknown
  obtain ⟨b', sh', hrun, hrep, hrem⟩ := removeOrder_spec h.rep ho
  refine ⟨b', sh', ?_, hrep, ?_, hrem.order_size.trans h.order_size,
    hrem.level_size.trans h.level_size⟩
  · simp only [applyUpdate, hu, hget, deref_some, ok_bind, hrun]
  · intro s hs
    simp only [Quotes.apply, hu]
    have hkey : OrderInfo.key (b.order o).info = u.order_id_ := hid
    rw [Quotes.side_map hs, ← h.infos s hs, hrem.infos h.rep ho hs, hkey]
    rfl

/-- `CLEAR` of an empty book does nothing. -/
theorem clear_empty_spec {u : MEMarketUpdate} (h : Holds b sh Q) (hu : u.type_ = .CLEAR)
    (hadm : Q.Admits u) :
    ∃ b' sh', applyUpdate b u = .ok b' ∧ Holds b' sh' (Q.apply u) := by
  have hempty : Q = .empty := by simpa only [Quotes.Admits, hu] using hadm
  have hlevels : sh.all = [] := by
    have hlen := h.length_levels
    rw [hempty] at hlen
    exact List.length_eq_zero_iff.mp hlen
  obtain ⟨b', hrun, hc⟩ := clear_spec h.rep
  have hslots : ∀ i, b'.price_orders_at_price_ i = none := by
    intro i
    rw [hc.slots]
    cases hi : b.price_orders_at_price_ i with
    | none => rfl
    | some l =>
      have hl := ((h.rep.slots i l).mp hi).1
      rw [hlevels] at hl
      cases hl
  refine ⟨b', Shape.empty, ?_, ?_, ?_, hc.orders.size.trans h.order_size,
    hc.levels.size.trans h.level_size⟩
  · simp only [applyUpdate, hu, hrun]
  · exact BookRep.empty hc.bids hc.asks hslots hc.keys hc.levels.wf hc.orders.wf hc.level_used
      hc.order_used
  · intro s hs
    simp only [Quotes.apply, hu]
    rcases hs with rfl | rfl <;> rfl

/-- **An update the book can follow does to the memory what it does to the lists.** -/
theorem applyUpdate_spec {u : MEMarketUpdate} (h : Holds b sh Q) (hadm : Q.Admits u) :
    ∃ b' sh', applyUpdate b u = .ok b' ∧ Holds b' sh' (Q.apply u) := by
  cases hu : u.type_ with
  | ADD => exact add_spec h hu hadm
  | MODIFY => exact modify_spec h hu hadm
  | CANCEL => exact cancel_spec h hu hadm
  | CLEAR => exact clear_empty_spec h hu hadm
  | TRADE | INVALID | SNAPSHOT_START | SNAPSHOT_END =>
    exact ⟨b, sh, by simp only [applyUpdate, hu], by simpa only [Quotes.apply, hu] using h⟩

end holds

/-! ## Best bid and offer -/

section bbo

variable {b : LimitBook MarketOrderInfo ℕ} {sh : Shape}

/-- Price and total quantity of the first of the levels, both invalid when there is none. -/
def bestQuote : List (ℤ × List MarketOrderInfo) → ℤ × ℕ
  | (price, x :: xs) :: _ => (price, xs.foldl (fun qty y => (qty + y.qty_) % 2 ^ 32) x.qty_)
  | _ => (Price_INVALID, Qty_INVALID)

/-- The loop adds the quantities of the orders it walks over; induction on the orders to come. -/
theorem sumQty_spec {first : ℕ} {os : List ℕ} (hring : IsRing b.nextOrder b.prevOrder (first :: os))
    (hnd : (first :: os).Nodup) (suf : List ℕ) :
    ∀ {pre : List ℕ} {fuel o qty : ℕ}, first :: os = pre ++ suf → pre ≠ [] →
      (suf ++ [first]).head? = some o → suf.length < fuel →
      sumQty b first fuel o qty =
        .ok (suf.foldl (fun qty k => (qty + (b.order k).info.qty_) % 2 ^ 32) qty) := by
  induction suf with
  | nil =>
    intro pre fuel o qty _ _ ho hfuel
    obtain ⟨n, rfl⟩ : ∃ n, fuel = n + 1 := ⟨fuel - 1, by omega⟩
    obtain rfl : first = o := by simpa using ho
    simp [sumQty]
  | cons x suf ih =>
    intro pre fuel o qty hsplit hpre ho hfuel
    obtain ⟨n, rfl⟩ : ∃ n, fuel = n + 1 := ⟨fuel - 1, by omega⟩
    obtain rfl : x = o := by simpa using ho
    have hx : x ≠ first := by
      rintro rfl
      obtain ⟨p, ps, rfl⟩ := List.exists_cons_of_ne_nil hpre
      have hp : x = p := (List.cons.inj hsplit).1
      rw [hsplit, hp] at hnd
      simp at hnd
    have hnext : (b.order x).next_order_ = (suf ++ [first]).head? := hring.next_of_split hsplit
    obtain ⟨y, hy⟩ : ∃ y, (suf ++ [first]).head? = some y := by
      cases suf with
      | nil => exact ⟨first, rfl⟩
      | cons y suf => exact ⟨y, rfl⟩
    have hsplit' : first :: os = (pre ++ [x]) ++ suf := by simp [hsplit]
    rw [sumQty, if_neg hx, hnext, hy, deref_some, ok_bind,
      ih hsplit' (by simp) hy (by simpa using hfuel)]
    rfl

/-- The best quote of a side is computed from its first level. -/
theorem topOfBook_spec (h : BookRep b sh) {s : Side} (hs : s.IsTrading) :
    topOfBook b (b.best s) = .ok (bestQuote (b.levelsView s)) := by
  rw [h.levelsView_eq hs, (h.levels s hs).head]
  cases hls : sh.levels s with
  | nil => rfl
  | cons l ls =>
    have hl : l ∈ sh.levels s := by simp [hls]
    have hq := h.queues s hs l hl
    obtain ⟨o, os, hos⟩ := List.exists_cons_of_ne_nil hq.ne_nil
    have hfirst : (b.level l).first_order_ = some o := by
      rw [hq.first, hos]
      rfl
    have hring := hos ▸ hq.ring
    have hnd := hos ▸ hq.nodup
    have hsplit : o :: os = [] ++ o :: os := rfl
    have hbehind : o :: os = [o] ++ os := rfl
    have hnext : (b.order o).next_order_ = (os ++ [o]).head? := hring.next_of_split hsplit
    obtain ⟨y, hy⟩ : ∃ y, (os ++ [o]).head? = some y := by
      cases os with
      | nil => exact ⟨o, rfl⟩
      | cons y os => exact ⟨y, rfl⟩
    have hlen : os.length < b.order_pool_.size + 1 := by
      have hcard := h.order_wf.used_card_lt
      rw [h.order_card] at hcard
      have hsub : (sh.queue l).Sublist (sh.flat s) := by
        rw [Shape.flat, List.flatMap_def]
        exact List.sublist_flatten_of_mem (List.mem_map_of_mem hl)
      have hle := hsub.length_le.trans (Shape.length_flat_le hs)
      rw [hos, List.length_cons] at hle
      omega
    have hsum : sumQty b o (b.order_pool_.size + 1) y (b.order o).info.qty_ = _ :=
      sumQty_spec hring hnd os hbehind (by simp) hy hlen
    simp only [topOfBook, List.head?_cons, hfirst, deref_some, ok_bind, hnext, hy, hsum,
      List.map_cons, hos, bestQuote, List.foldl_map]

/-- Updating the BBO of a well-formed book succeeds and leaves the book alone. -/
theorem updateBBO_spec {m : MarketOrderBook} (h : BookRep m.book sh) (update_bid update_ask : Bool) :
    ∃ bbo, m.updateBBO update_bid update_ask = .ok { m with bbo_ := bbo } := by
  have hbid := topOfBook_spec h (s := .BUY) (.inl rfl)
  have hask := topOfBook_spec h (s := .SELL) (.inr rfl)
  have hbid' : topOfBook m.book m.book.bids_by_price_ =
      .ok (bestQuote (m.book.levelsView .BUY)) := hbid
  have hask' : topOfBook m.book m.book.asks_by_price_ =
      .ok (bestQuote (m.book.levelsView .SELL)) := hask
  cases update_bid <;> cases update_ask
  · exact ⟨m.bbo_, rfl⟩
  all_goals simp [updateBBO, updateBid, updateAsk, hbid', hask']

end bbo

/-! ## Runs -/

/-- **One update**: the book follows every update that is admitted. -/
theorem onMarketUpdate_spec {m : MarketOrderBook} {sh : Shape} {Q : Quotes} {u : MEMarketUpdate}
    (h : Holds m.book sh Q) (hadm : Q.Admits u) :
    ∃ m' sh', m.onMarketUpdate u = .ok m' ∧ Holds m'.book sh' (Q.apply u) ∧
      m'.ticker_id_ = m.ticker_id_ := by
  by_cases htrade : u.type_ = .TRADE
  · refine ⟨{ m with notified := m.notified ++ [.onTradeUpdate u] }, sh, ?_, ?_, rfl⟩
    · simp [onMarketUpdate, htrade]
    · simpa only [Quotes.apply, htrade] using h
  · obtain ⟨book', sh', hrun, h'⟩ := applyUpdate_spec h hadm
    obtain ⟨bbo, hbbo⟩ := updateBBO_spec (m := { m with book := book' }) h'.rep
      (bidUpdated m.book u) (askUpdated m.book u)
    refine ⟨{ m with
        book := book'
        bbo_ := bbo
        notified := m.notified ++ [.onOrderBookUpdate u.ticker_id_ u.price_ u.side_] },
      sh', ?_, h', rfl⟩
    simp only [onMarketUpdate, htrade, if_false, hrun, ok_bind, hbbo]

/-- **A run of the client's book follows the lists**; induction on the updates. -/
theorem run_spec {us : List MEMarketUpdate} :
    ∀ {m : MarketOrderBook} {sh : Shape} {Q : Quotes}, Holds m.book sh Q → Q.AdmitsAll us →
      ∃ m' sh', m.run us = .ok m' ∧ Holds m'.book sh' (Q.applyAll us) ∧
        m'.ticker_id_ = m.ticker_id_ := by
  induction us with
  | nil =>
    intro m sh Q h _
    exact ⟨m, sh, rfl, h, rfl⟩
  | cons u us ih =>
    intro m sh Q h hadm
    obtain ⟨m₁, sh₁, hrun₁, h₁, ht₁⟩ := onMarketUpdate_spec h hadm.1
    obtain ⟨m₂, sh₂, hrun₂, h₂, ht₂⟩ := ih h₁ hadm.2
    refine ⟨m₂, sh₂, ?_, h₂, ht₂.trans ht₁⟩
    have hstep : m.run (u :: us) = m.onMarketUpdate u >>= fun m => m.run us := List.foldlM_cons ..
    rw [hstep, hrun₁, ok_bind, hrun₂]

end MarketOrderBook

end TradingEcosystem
