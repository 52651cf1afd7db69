import TradingEcosystem.Book.Operations
import TradingEcosystem.Exchange.MEOrderBook

/-!
# Price-Time Priority

What the exchange's book is for, without its memory: per side a list of resting orders, best
price first and earliest accepted first within one price.

- `PriorityBook.add` : an incoming order sweeps the opposite side while the price crosses, and
  what is left of it rests behind the orders of its price
- `PriorityBook.cancel` : the order with the client's id leaves, or the request is rejected
- `PriorityBook.WF` : the invariant of these lists, kept by every admitted call
-/

namespace TradingEcosystem

open LimitBook Lib.SortedInsert
open MEOrderBook (Call)

structure PriorityBook where
  bids : List MEOrderInfo
  asks : List MEOrderInfo
  /-- Id of the next order to be accepted. -/
  next_id : ℕ
  deriving DecidableEq

namespace MEOrderBook.Call

/-- Real sides, ids within the arrays, a `uint32_t` quantity; any price. -/
def InRange : Call → Prop
  | .add client_id client_order_id s _ qty =>
    s.IsTrading ∧ client_id < ME_MAX_NUM_CLIENTS ∧ client_order_id < ME_MAX_ORDER_IDS ∧
      qty < 2 ^ 32
  | .cancel client_id order_id => client_id < ME_MAX_NUM_CLIENTS → order_id < ME_MAX_ORDER_IDS

instance : DecidablePred InRange
  | .add .. => inferInstanceAs (Decidable (_ ∧ _))
  | .cancel .. => inferInstanceAs (Decidable (_ → _))

end MEOrderBook.Call

namespace PriorityBook

/-! ## Operations -/

def empty : PriorityBook := ⟨[], [], 1⟩

def side (P : PriorityBook) (s : Side) : List MEOrderInfo := if s = .BUY then P.bids else P.asks

def setSide (P : PriorityBook) (s : Side) (xs : List MEOrderInfo) : PriorityBook :=
  if s = .BUY then { P with bids := xs } else { P with asks := xs }

/-- All resting orders. -/
def orders (P : PriorityBook) : List MEOrderInfo := P.bids ++ P.asks

/-- An order of side `s` with limit `price` trades with a resting order at `maker_price`. -/
def crosses (s : Side) (price maker_price : ℤ) : Bool :=
  if s = .BUY then decide (maker_price ≤ price) else decide (price ≤ maker_price)

/-- What is published when `taker` trades `fill` with `maker`: both clients' fills, the trade,
and what becomes of the resting order. -/
def fillEvents (ticker_id : ℕ) (taker maker : MEOrderInfo) (fill leaves : ℕ) : List MEEvent :=
  [.response
    { type_ := .FILLED, client_id_ := taker.client_id_, ticker_id_ := ticker_id,
      client_order_id_ := taker.client_order_id_, market_order_id_ := taker.market_order_id_,
      side_ := taker.side_, price_ := maker.price_, exec_qty_ := fill, leaves_qty_ := leaves },
   .response
    { type_ := .FILLED, client_id_ := maker.client_id_, ticker_id_ := ticker_id,
      client_order_id_ := maker.client_order_id_, market_order_id_ := maker.market_order_id_,
      side_ := maker.side_, price_ := maker.price_, exec_qty_ := fill,
      leaves_qty_ := maker.qty_ - fill },
   .update
    { type_ := .TRADE, order_id_ := OrderId_INVALID, ticker_id_ := ticker_id,
      side_ := taker.side_, price_ := maker.price_, qty_ := fill,
      priority_ := Priority_INVALID },
   .update <|
    if maker.qty_ = fill then
      { type_ := .CANCEL, order_id_ := maker.market_order_id_, ticker_id_ := ticker_id,
        side_ := maker.side_, price_ := maker.price_, qty_ := maker.qty_,
        priority_ := Priority_INVALID }
    else
      { type_ := .MODIFY, order_id_ := maker.market_order_id_, ticker_id_ := ticker_id,
        side_ := maker.side_, price_ := maker.price_, qty_ := maker.qty_ - fill,
        priority_ := maker.priority_ }]

/-- Fill `taker` against the orders of the opposite side.  Returns what is left of the side, what
is left of the taker's quantity, and what was published. -/
def sweep (ticker_id : ℕ) (taker : MEOrderInfo) :
    List MEOrderInfo → ℕ → List MEOrderInfo × ℕ × List MEEvent
  | [], leaves => ([], leaves, [])
  | maker :: makers, leaves =>
    -- nothing is left to fill, or the best order does not trade with the taker
    if leaves = 0 ∨ crosses taker.side_ taker.price_ maker.price_ = false then
      (maker :: makers, leaves, [])
    else
      let fill := min leaves maker.qty_
      let events := fillEvents ticker_id taker maker fill (leaves - fill)
      if maker.qty_ = fill then
        let (rest, leaves, more) := sweep ticker_id taker makers (leaves - fill)
        (rest, leaves, events ++ more)
      else
        -- the taker is used up
        ({ maker with qty_ := maker.qty_ - fill } :: makers, leaves - fill, events)

/-- One more than the priority of the last order of that side and price. -/
def nextPriority (P : PriorityBook) (s : Side) (price : ℤ) : ℕ :=
  match ((P.side s).filter fun o => decide (o.price_ = price)).getLast? with
  | none => 1
  | some o => o.priority_ + 1

/-- The incoming order. -/
def taker (P : PriorityBook) (ticker_id client_id client_order_id : ℕ) (s : Side) (price : ℤ)
    (qty : ℕ) : MEOrderInfo where
  ticker_id_ := ticker_id
  client_id_ := client_id
  client_order_id_ := client_order_id
  market_order_id_ := P.next_id
  side_ := s
  price_ := price
  qty_ := qty
  priority_ := P.nextPriority s price

def acceptedEvent (o : MEOrderInfo) : MEEvent :=
  .response
    { type_ := .ACCEPTED, client_id_ := o.client_id_, ticker_id_ := o.ticker_id_,
      client_order_id_ := o.client_order_id_, market_order_id_ := o.market_order_id_,
      side_ := o.side_, price_ := o.price_, exec_qty_ := 0, leaves_qty_ := o.qty_ }

def addEvent (o : MEOrderInfo) : MEEvent :=
  .update
    { type_ := .ADD, order_id_ := o.market_order_id_, ticker_id_ := o.ticker_id_,
      side_ := o.side_, price_ := o.price_, qty_ := o.qty_, priority_ := o.priority_ }

/-- Put an order behind the orders of its price. -/
def rest (P : PriorityBook) (s : Side) (o : MEOrderInfo) : PriorityBook :=
  P.setSide s ((P.side s).orderedInsert (Precedes s) o)

/-- The order trades as taker first; what is left of it rests behind the orders of its price. -/
def add (P : PriorityBook) (ticker_id client_id client_order_id : ℕ) (s : Side) (price : ℤ)
    (qty : ℕ) : PriorityBook × List MEEvent :=
  let t := P.taker ticker_id client_id client_order_id s price qty
  let swept := sweep ticker_id t (P.side s.opposite) qty
  let P' := { P.setSide s.opposite swept.1 with next_id := P.next_id + 1 }
  if swept.2.1 = 0 then
    (P', acceptedEvent t :: swept.2.2)
  else
    let o := { t with qty_ := swept.2.1 }
    (P'.rest s o, acceptedEvent t :: swept.2.2 ++ [addEvent o])

/-- The key under which a client's order is kept. -/
def key (o : MEOrderInfo) : ℕ × ℕ := (o.client_id_, o.client_order_id_)

/-- The resting order with a client's id. -/
def find (P : PriorityBook) (k : ℕ × ℕ) : Option MEOrderInfo :=
  P.orders.find? fun o => decide (key o = k)

/-- The book without the order of a client's id. -/
def erase (P : PriorityBook) (k : ℕ × ℕ) : PriorityBook :=
  { P with
    bids := P.bids.filter fun o => decide (key o ≠ k)
    asks := P.asks.filter fun o => decide (key o ≠ k) }

def cancel (P : PriorityBook) (ticker_id client_id order_id : ℕ) : PriorityBook × List MEEvent :=
  match P.find (client_id, order_id) with
  | none =>
    (P, [.response
      { type_ := .CANCEL_REJECTED, client_id_ := client_id, ticker_id_ := ticker_id,
        client_order_id_ := order_id }])
  | some o =>
    (P.erase (client_id, order_id),
      [.update
        { type_ := .CANCEL, order_id_ := o.market_order_id_, ticker_id_ := ticker_id,
          side_ := o.side_, price_ := o.price_, qty_ := 0, priority_ := o.priority_ },
       .response
        { type_ := .CANCELED, client_id_ := client_id, ticker_id_ := ticker_id,
          client_order_id_ := order_id, market_order_id_ := o.market_order_id_,
          side_ := o.side_, price_ := o.price_, leaves_qty_ := o.qty_ }])

def step (P : PriorityBook) (ticker_id : ℕ) : Call → PriorityBook × List MEEvent
  | .add client_id client_order_id s price qty =>
    P.add ticker_id client_id client_order_id s price qty
  | .cancel client_id order_id => P.cancel ticker_id client_id order_id

/-- A sequence of calls: the book it ends in and everything published. -/
def run (ticker_id : ℕ) : PriorityBook → List Call → PriorityBook × List MEEvent
  | P, [] => (P, [])
  | P, c :: calls =>
    let (P, events) := P.step ticker_id c
    let (P, more) := run ticker_id P calls
    (P, events ++ more)

/-! ## Invariant -/

/-- `x` is served before `y` on side `s`: better price, or same price and earlier accepted. -/
def ServedBefore (s : Side) (x y : MEOrderInfo) : Prop :=
  s.better x.price_ y.price_ = true ∨
    x.price_ = y.price_ ∧ x.priority_ < y.priority_ ∧ x.market_order_id_ < y.market_order_id_

structure WF (P : PriorityBook) : Prop where
  side : ∀ s, s.IsTrading → ∀ x ∈ P.side s, x.side_ = s
  sorted : ∀ s, s.IsTrading → (P.side s).Pairwise (ServedBefore s)
  qty : ∀ x ∈ P.orders, 0 < x.qty_ ∧ x.qty_ < 2 ^ 32
  uncrossed : ∀ x ∈ P.bids, ∀ y ∈ P.asks, x.price_ < y.price_
  keys : (P.orders.map key).Nodup
  ids : ∀ x ∈ P.orders, x.market_order_id_ < P.next_id
  ids_nodup : (P.orders.map MEOrderInfo.market_order_id_).Nodup

/-- `WF` for lists in which a client's id may occur more than once. -/
structure Sound (P : PriorityBook) : Prop where
  side : ∀ s, s.IsTrading → ∀ x ∈ P.side s, x.side_ = s
  sorted : ∀ s, s.IsTrading → (P.side s).Pairwise (ServedBefore s)
  qty : ∀ x ∈ P.orders, 0 < x.qty_ ∧ x.qty_ < 2 ^ 32
  uncrossed : ∀ x ∈ P.bids, ∀ y ∈ P.asks, x.price_ < y.price_
  ids : ∀ x ∈ P.orders, x.market_order_id_ < P.next_id
  ids_nodup : (P.orders.map MEOrderInfo.market_order_id_).Nodup

theorem WF.sound {P : PriorityBook} (h : P.WF) : P.Sound :=
  ⟨h.side, h.sorted, h.qty, h.uncrossed, h.ids, h.ids_nodup⟩

theorem Sound.wf {P : PriorityBook} (h : P.Sound) (hkeys : (P.orders.map key).Nodup) : P.WF :=
  ⟨h.side, h.sorted, h.qty, h.uncrossed, hkeys, h.ids, h.ids_nodup⟩

/-- What the code neither checks nor survives: calls that meet this are admitted.  The last
condition of `add` is that no order of another price uses the slot of `price`. -/
def Admits (P : PriorityBook) : Call → Prop
  | .add client_id client_order_id s price qty =>
    s.IsTrading ∧ client_id < ME_MAX_NUM_CLIENTS ∧ client_order_id < ME_MAX_ORDER_IDS ∧
      qty < 2 ^ 32 ∧ P.next_id < 2 ^ 32 ∧
      (∀ x ∈ P.orders, key x ≠ (client_id, client_order_id)) ∧
      ∀ x ∈ P.orders, priceToIndex x.price_ = priceToIndex price → x.price_ = price
  | .cancel client_id order_id => client_id < ME_MAX_NUM_CLIENTS → order_id < ME_MAX_ORDER_IDS

instance (P : PriorityBook) : DecidablePred P.Admits
  | .add .. => inferInstanceAs (Decidable (_ ∧ _))
  | .cancel .. => inferInstanceAs (Decidable (_ → _))

/-- No order of the client rests under an incoming id. -/
def KeyFree (P : PriorityBook) : Call → Prop
  | .add client_id client_order_id _ _ _ => ∀ x ∈ P.orders, key x ≠ (client_id, client_order_id)
  | .cancel _ _ => True

/-- No order of another price rests in the slot of an incoming price. -/
def SlotFree (P : PriorityBook) : Call → Prop
  | .add _ _ _ price _ =>
    ∀ x ∈ P.orders, priceToIndex x.price_ = priceToIndex price → x.price_ = price
  | .cancel _ _ => True

instance (P : PriorityBook) : DecidablePred P.KeyFree
  | .add .. => inferInstanceAs (Decidable (∀ x ∈ P.orders, _))
  | .cancel .. => isTrue trivial

instance (P : PriorityBook) : DecidablePred P.SlotFree
  | .add .. => inferInstanceAs (Decidable (∀ x ∈ P.orders, _))
  | .cancel .. => isTrue trivial

/-- `Admits`, but for the bound on the number of orders accepted before. -/
def Fits (P : PriorityBook) (c : Call) : Prop := c.InRange ∧ P.KeyFree c ∧ P.SlotFree c

instance (P : PriorityBook) : DecidablePred P.Fits := fun c =>
  inferInstanceAs (Decidable (c.InRange ∧ _))

theorem Admits.fits {P : PriorityBook} {c : Call} (h : P.Admits c) : P.Fits c := by
  cases c with
  | add client_id client_order_id s price qty =>
    obtain ⟨hs, hclient, hoid, hqty, -, hkey, hslot⟩ := h
    exact ⟨⟨hs, hclient, hoid, hqty⟩, hkey, hslot⟩
  | cancel client_id order_id => exact ⟨h, trivial, trivial⟩

/-- What the exchange's book publishes.  `checkForMatch` takes the market order id as a `Qty`, so
the fills of the incoming order carry its last 32 bits. -/
def published (P : PriorityBook) (ticker_id : ℕ) : Call → List MEEvent
  | .add client_id client_order_id s price qty =>
    let t := P.taker ticker_id client_id client_order_id s price qty
    let swept := sweep ticker_id { t with market_order_id_ := t.market_order_id_ % 2 ^ 32 }
      (P.side s.opposite) qty
    acceptedEvent t :: swept.2.2 ++
      if swept.2.1 = 0 then [] else [addEvent { t with qty_ := swept.2.1 }]
  | .cancel client_id order_id => (P.cancel ticker_id client_id order_id).2

/-- The orders and their levels leave a block of each pool free: the source's ASSERT fires when
the last one is handed out. -/
def Room (P : PriorityBook) : Prop :=
  P.orders.length < ME_MAX_ORDER_IDS ∧
    (P.bids.map MEOrderInfo.price_).toFinset.card + (P.asks.map MEOrderInfo.price_).toFinset.card
      < ME_MAX_PRICE_LEVELS

instance (P : PriorityBook) : Decidable P.Room := inferInstanceAs (Decidable (_ ∧ _))

/-! ### Reading the sides -/

section sides

variable {P : PriorityBook} {s s' : Side}

theorem side_setSide (hs : s.IsTrading) (hs' : s'.IsTrading) (xs : List MEOrderInfo) :
    (P.setSide s xs).side s' = if s' = s then xs else P.side s' := by
  rcases hs with rfl | rfl <;> rcases hs' with rfl | rfl <;> rfl

@[simp] theorem next_id_setSide (P : PriorityBook) (s : Side) (xs : List MEOrderInfo) :
    (P.setSide s xs).next_id = P.next_id := by
  unfold setSide
  split <;> rfl

@[simp] theorem side_next_id (P : PriorityBook) (n : ℕ) (s : Side) :
    ({ P with next_id := n } : PriorityBook).side s = P.side s := rfl

/-- All orders are those of a side and of the side it trades against. -/
theorem orders_perm (P : PriorityBook) (hs : s.IsTrading) :
    P.orders.Perm (P.side s ++ P.side s.opposite) := by
  rcases hs with rfl | rfl
  · exact List.Perm.refl _
  · exact List.perm_append_comm

theorem mem_orders : ∀ {x : MEOrderInfo}, x ∈ P.orders ↔ ∃ s, s.IsTrading ∧ x ∈ P.side s :=
  Side.mem_append_iff (f := P.side)

/-- `Room`, counted side by side. -/
theorem room_iff (hs : s.IsTrading) :
    P.Room ↔ (P.side s).length + (P.side s.opposite).length < ME_MAX_ORDER_IDS ∧
      ((P.side s).map MEOrderInfo.price_).toFinset.card +
        ((P.side s.opposite).map MEOrderInfo.price_).toFinset.card < ME_MAX_PRICE_LEVELS := by
  unfold Room
  rw [(orders_perm P hs).length_eq, List.length_append]
  rcases hs with rfl | rfl
  · exact Iff.rfl
  · rw [Nat.add_comm (P.bids.map _).toFinset.card]
    exact Iff.rfl

/-- No bid reaches an ask, seen from either side. -/
theorem uncrossed_iff (hs : s.IsTrading) :
    (∀ x ∈ P.bids, ∀ y ∈ P.asks, x.price_ < y.price_) ↔
      ∀ x ∈ P.side s, ∀ y ∈ P.side s.opposite, crosses s x.price_ y.price_ = false := by
  rcases hs with rfl | rfl
  · simp [crosses, side, Side.opposite]
  · simp only [side, Side.opposite, crosses]
    constructor
    · intro h x hx y hy
      simpa using h y hy x hx
    · intro h x hx y hy
      simpa using h y hy x hx

end sides

/-! ### The sweep -/

/-- An order without its quantity: the part that never changes while the order rests. -/
def noQty (x : MEOrderInfo) : MEOrderInfo := { x with qty_ := 0 }

section sweep

variable (ticker_id : ℕ) (taker : MEOrderInfo)

/-- The orders left over are the last ones of the side, and only quantities changed. -/
theorem sweep_suffix (makers : List MEOrderInfo) (leaves : ℕ) :
    (sweep ticker_id taker makers leaves).1.map noQty <:+ makers.map noQty := by
  induction makers generalizing leaves with
  | nil => simp [sweep]
  | cons maker makers ih =>
    rw [sweep]
    split
    · exact List.suffix_refl _
    · simp only
      split
      · exact (ih _).trans (List.suffix_cons _ _)
      · exact List.suffix_refl _

variable {ticker_id taker}

/-- Orders left over keep a positive quantity, at most what they had. -/
theorem sweep_qty {makers : List MEOrderInfo} {leaves : ℕ}
    (hqty : ∀ x ∈ makers, 0 < x.qty_ ∧ x.qty_ < 2 ^ 32) :
    ∀ x ∈ (sweep ticker_id taker makers leaves).1, 0 < x.qty_ ∧ x.qty_ < 2 ^ 32 := by
  induction makers generalizing leaves with
  | nil => simp [sweep]
  | cons maker makers ih =>
    have hmakers : ∀ x ∈ makers, 0 < x.qty_ ∧ x.qty_ < 2 ^ 32 := fun x hx =>
      hqty x (List.mem_cons_of_mem _ hx)
    have hmaker := hqty maker (List.mem_cons_self ..)
    rw [sweep]
    split
    · exact hqty
    · simp only
      split
      · exact ih hmakers
      · next hne =>
        intro x hx
        rcases List.mem_cons.mp hx with rfl | hx
        · simp only
          omega
        · exact hmakers x hx

theorem sweep_leaves_le (makers : List MEOrderInfo) (leaves : ℕ) :
    (sweep ticker_id taker makers leaves).2.1 ≤ leaves := by
  induction makers generalizing leaves with
  | nil => simp [sweep]
  | cons maker makers ih =>
    rw [sweep]
    split
    · exact Nat.le_refl _
    · simp only
      split
      · exact (ih _).trans (Nat.sub_le ..)
      · exact Nat.sub_le ..

/-- What is left depends on the taker's side and limit only. -/
theorem sweep_congr {taker' : MEOrderInfo} (hside : taker'.side_ = taker.side_)
    (hprice : taker'.price_ = taker.price_) (makers : List MEOrderInfo) (leaves : ℕ) :
    (sweep ticker_id taker' makers leaves).1 = (sweep ticker_id taker makers leaves).1 ∧
      (sweep ticker_id taker' makers leaves).2.1 = (sweep ticker_id taker makers leaves).2.1 := by
  induction makers generalizing leaves with
  | nil => exact ⟨rfl, rfl⟩
  | cons maker makers ih =>
    simp only [sweep, hside, hprice]
    split
    · exact ⟨rfl, rfl⟩
    · split
      · exact ih _
      · exact ⟨rfl, rfl⟩

/-- A taker that is not used up has no order left to trade with at the front. -/
theorem sweep_head {makers : List MEOrderInfo} {leaves : ℕ}
    (hleft : (sweep ticker_id taker makers leaves).2.1 ≠ 0) :
    ∀ x ∈ (sweep ticker_id taker makers leaves).1.head?,
      crosses taker.side_ taker.price_ x.price_ = false := by
  induction makers generalizing leaves with
  | nil => simp [sweep]
  | cons maker makers ih =>
    rw [sweep] at hleft ⊢
    split at hleft
    · next hstop =>
      rw [if_pos hstop]
      intro x hx
      obtain rfl : maker = x := by simpa using hx
      exact hstop.resolve_left hleft
    · next hgo =>
      rw [if_neg hgo]
      simp only at hleft ⊢
      split at hleft
      · next hfull =>
        rw [if_pos hfull]
        exact ih hleft
      · next hpart =>
        exact absurd hleft (by simp only; omega)

end sweep

/-! ### The invariant is kept -/

section step

variable {P : PriorityBook} {ticker_id client_id client_order_id qty : ℕ} {s : Side} {price : ℤ}

/-- The new order has a higher priority than the orders of its side and price. -/
theorem lt_nextPriority (h : P.Sound) (hs : s.IsTrading) {x : MEOrderInfo} (hx : x ∈ P.side s)
    (hprice : x.price_ = price) : x.priority_ < P.nextPriority s price := by
  have hmem : x ∈ (P.side s).filter fun o => decide (o.price_ = price) := by
    simp [hx, hprice]
  have hsorted := (h.sorted s hs).filter fun o => decide (o.price_ = price)
  have hprices : ∀ y ∈ (P.side s).filter fun o => decide (o.price_ = price), y.price_ = price :=
    fun y hy => of_decide_eq_true (List.mem_filter.mp hy).2
  rw [nextPriority]
  obtain ⟨init, last, hlast⟩ := (List.eq_nil_or_concat _).resolve_left (List.ne_nil_of_mem hmem)
  rw [List.concat_eq_append] at hlast
  rw [hlast] at hmem hsorted hprices ⊢
  rw [List.getLast?_append, List.getLast?_singleton]
  rcases List.mem_append.mp hmem with hinit | hlast'
  · rcases (List.pairwise_append.mp hsorted).2.2 x hinit last (by simp) with hb | ⟨-, hlt, -⟩
    · rw [hprice, hprices last (by simp), Side.better_irrefl] at hb
      cases hb
    · exact Nat.lt_succ_of_lt hlt
  · rw [List.mem_singleton.mp hlast']
    exact Nat.lt_succ_self _

/-- The two sides after an order was added. -/
theorem side_add (P : PriorityBook) (ticker_id client_id client_order_id : ℕ) (price : ℤ)
    (qty : ℕ) (hs : s.IsTrading) :
    let t := P.taker ticker_id client_id client_order_id s price qty
    let swept := sweep ticker_id t (P.side s.opposite) qty
    let P' := (P.add ticker_id client_id client_order_id s price qty).1
    P'.side s.opposite = swept.1 ∧ P'.next_id = P.next_id + 1 ∧
      P'.side s = if swept.2.1 = 0 then P.side s
        else (P.side s).orderedInsert (Precedes s) { t with qty_ := swept.2.1 } := by
  have hopp := hs.opposite
  have hne := hs.opposite_ne
  simp only [add]
  split
  · next h0 => simp [side_setSide hopp hopp, side_setSide hopp hs, hne.symm]
  · next h0 =>
    simp [rest, side_setSide hs hopp, side_setSide hs hs, side_setSide hopp hopp,
      side_setSide hopp hs, hne, hne.symm]

/-- Every order left over rested before, perhaps with a larger quantity. -/
theorem mem_sweep {t : MEOrderInfo} {makers : List MEOrderInfo} {leaves : ℕ} {x : MEOrderInfo}
    (hx : x ∈ (sweep ticker_id t makers leaves).1) : ∃ y ∈ makers, noQty y = noQty x :=
  List.mem_map.mp ((sweep_suffix ticker_id t makers leaves).subset (List.mem_map_of_mem hx))

/-- A predicate of the part that never changes carries over to the orders left over. -/
theorem forall_sweep {t : MEOrderInfo} {makers : List MEOrderInfo} {leaves : ℕ}
    {p : MEOrderInfo → Prop} (hp : ∀ x, p (noQty x) ↔ p x) (h : ∀ x ∈ makers, p x) :
    ∀ x ∈ (sweep ticker_id t makers leaves).1, p x := by
  intro x hx
  obtain ⟨y, hy, heq⟩ := mem_sweep hx
  rw [← hp, ← heq, hp]
  exact h y hy

theorem pairwise_sweep {t : MEOrderInfo} {makers : List MEOrderInfo} {leaves : ℕ}
    (h : makers.Pairwise (ServedBefore s)) :
    (sweep ticker_id t makers leaves).1.Pairwise (ServedBefore s) := by
  have hmap : (makers.map noQty).Pairwise (ServedBefore s) := List.pairwise_map.mpr h
  have hrest : ((sweep ticker_id t makers leaves).1.map noQty).Pairwise (ServedBefore s) :=
    hmap.sublist (sweep_suffix ticker_id t makers leaves).sublist
  rw [List.pairwise_map] at hrest
  exact hrest

/-- A taker that is not used up crosses no order that is left. -/
theorem sweep_uncrossed {t : MEOrderInfo} {makers : List MEOrderInfo} {leaves : ℕ}
    (ht : t.side_.IsTrading) (hsorted : makers.Pairwise (ServedBefore t.side_.opposite))
    (hleft : (sweep ticker_id t makers leaves).2.1 ≠ 0) :
    ∀ x ∈ (sweep ticker_id t makers leaves).1, crosses t.side_ t.price_ x.price_ = false := by
  have hhead := sweep_head hleft
  have hrest : (sweep ticker_id t makers leaves).1.Pairwise (ServedBefore t.side_.opposite) :=
    pairwise_sweep hsorted
  cases hswept : (sweep ticker_id t makers leaves).1 with
  | nil => simp
  | cons y ys =>
    rw [hswept] at hhead hrest
    have hy := hhead y rfl
    intro x hx
    rcases List.mem_cons.mp hx with rfl | hx
    · exact hy
    · have hyx := (List.pairwise_cons.mp hrest).1 x hx
      rcases ht with ht | ht <;>
        simp only [ht, ServedBefore, Side.opposite, Side.better, crosses] at hyx hy ⊢ <;> grind

/-- The keys, or the ids, stay distinct when the new order's is fresh. -/
theorem nodup_add {α : Type} {f : MEOrderInfo → α} (hf : ∀ x, f (noQty x) = f x)
    (hs : s.IsTrading) (hnd : (P.orders.map f).Nodup)
    (hfresh : ∀ x ∈ P.orders, f x ≠
      f (P.taker ticker_id client_id client_order_id s price qty)) :
    ((P.add ticker_id client_id client_order_id s price qty).1.orders.map f).Nodup := by
  obtain ⟨hopp, -, hown⟩ := P.side_add ticker_id client_id client_order_id price qty hs
  set t := P.taker ticker_id client_id client_order_id s price qty
  set swept := sweep ticker_id t (P.side s.opposite) qty
  have hfeq : f ∘ noQty = f := funext hf
  have hsub : (swept.1.map f).Sublist ((P.side s.opposite).map f) := by
    have hmap := (sweep_suffix ticker_id t (P.side s.opposite) qty).sublist.map f
    simpa only [List.map_map, hfeq] using hmap
  have hperm := (orders_perm P hs).map f
  rw [List.map_append] at hperm
  have hsides : ((P.side s).map f ++ swept.1.map f).Nodup :=
    (hperm.nodup_iff.mp hnd).sublist (List.Sublist.append_left hsub _)
  have hperm' := (orders_perm (P.add ticker_id client_id client_order_id s price qty).1 hs).map f
  rw [List.map_append, hopp, hown] at hperm'
  rw [hperm'.nodup_iff]
  split
  · exact hsides
  · have hins := ((List.perm_orderedInsert (Precedes s) { t with qty_ := swept.2.1 }
      (P.side s)).map f).append_right (swept.1.map f)
    rw [hins.nodup_iff, List.map_cons, List.cons_append, List.nodup_cons]
    refine ⟨?_, hsides⟩
    have hft : f { t with qty_ := swept.2.1 } = f t := by
      rw [← hf, ← hf t]
      rfl
    rw [hft]
    intro hmem
    have hmem' : f t ∈ P.orders.map f := by
      rw [hperm.mem_iff]
      rcases List.mem_append.mp hmem with hm | hm
      · exact List.mem_append_left _ hm
      · exact List.mem_append_right _ (hsub.subset hm)
    obtain ⟨x, hx, heq⟩ := List.mem_map.mp hmem'
    exact hfresh x hx heq

/-- A property of the part that never changes carries over when an order is added. -/
theorem forall_add {p : MEOrderInfo → Prop} (hp : ∀ x, p (noQty x) ↔ p x) (hs : s.IsTrading)
    (h : ∀ x ∈ P.orders, p x) (ht : p (P.taker ticker_id client_id client_order_id s price qty)) :
    ∀ x ∈ (P.add ticker_id client_id client_order_id s price qty).1.orders, p x := by
  obtain ⟨hopp, -, hown⟩ := P.side_add ticker_id client_id client_order_id price qty hs
  intro x hx
  have hx' := (orders_perm (P.add ticker_id client_id client_order_id s price qty).1 hs).mem_iff.mp hx
  rw [hopp, hown] at hx'
  rcases List.mem_append.mp hx' with hx' | hx'
  · split at hx'
    · exact h x (mem_orders.mpr ⟨s, hs, hx'⟩)
    · rcases (List.mem_orderedInsert _).mp hx' with rfl | hx'
      · rw [← hp] at ht ⊢
        exact ht
      · exact h x (mem_orders.mpr ⟨s, hs, hx'⟩)
  · exact forall_sweep hp (fun y hy => h y (mem_orders.mpr ⟨_, hs.opposite, hy⟩)) x hx'

/-- Adding an order keeps what does not concern the keys. -/
theorem Sound.add (h : P.Sound) (hs : s.IsTrading) (hqty : qty < 2 ^ 32) :
    (P.add ticker_id client_id client_order_id s price qty).1.Sound := by
  obtain ⟨hopp, hnext, hown⟩ := P.side_add ticker_id client_id client_order_id price qty hs
  have hids : ((P.add ticker_id client_id client_order_id s price qty).1.orders.map
      MEOrderInfo.market_order_id_).Nodup :=
    nodup_add (fun _ => rfl) hs h.ids_nodup fun x hx => Nat.ne_of_lt (h.ids x hx)
  set t := P.taker ticker_id client_id client_order_id s price qty with ht
  set swept := sweep ticker_id t (P.side s.opposite) qty with hswept
  set P' := (P.add ticker_id client_id client_order_id s price qty).1
  have hoppm : ∀ x ∈ P.side s.opposite, x ∈ P.orders := fun x hx =>
    mem_orders.mpr ⟨_, hs.opposite, hx⟩
  have hownm : ∀ x ∈ P.side s, x ∈ P.orders := fun x hx => mem_orders.mpr ⟨_, hs, hx⟩
  have hqty_le : swept.2.1 ≤ qty := sweep_leaves_le ..
  -- an order of the taker's side is an old one or the taker itself
  have hmem : ∀ x ∈ P'.side s, x ∈ P.side s ∨ swept.2.1 ≠ 0 ∧ x = { t with qty_ := swept.2.1 } := by
    intro x hx
    rw [hown] at hx
    split at hx
    · exact .inl hx
    · next h0 =>
      rcases (List.mem_orderedInsert _).mp hx with rfl | hx
      · exact .inr ⟨h0, rfl⟩
      · exact .inl hx
  -- properties of all orders, side by side
  have hall : ∀ {p : MEOrderInfo → Prop}, (∀ x ∈ P'.side s, p x) → (∀ x ∈ P'.side s.opposite, p x) →
      ∀ x ∈ P'.orders, p x := fun hp hp' x hx =>
    (List.mem_append.mp ((orders_perm P' hs).mem_iff.mp hx)).elim (hp x) (hp' x)
  refine ⟨?side, ?sorted, hall ?qty ?qty_opposite, ?uncrossed, hall ?ids ?ids_opposite, hids⟩
  case side =>
    intro s' hs' x hx
    rcases hs.eq_or_eq_opposite hs' with rfl | rfl
    · rcases hmem x hx with hx | ⟨-, rfl⟩
      · exact h.side _ hs x hx
      · rfl
    · rw [hopp] at hx
      exact forall_sweep (fun _ => Iff.rfl) (h.side _ hs') x hx
  case sorted =>
    intro s' hs'
    rcases hs.eq_or_eq_opposite hs' with rfl | rfl
    · rw [hown]
      split
      · exact h.sorted _ hs
      · refine pairwise_orderedInsert (h.sorted _ hs) (fun x _ hx => .inl hx) ?_ ?_
        · intro x hx hnot
          by_cases hprice : x.price_ = price
          · exact .inr ⟨hprice, lt_nextPriority h hs hx hprice, h.ids x (hownm x hx)⟩
          · exact .inl ((Side.better_total hs hprice).resolve_right hnot)
        · intro x _ y _ hx hxy
          rcases hxy with hxy | ⟨hprice, -⟩
          · exact Side.better_trans hx hxy
          · rw [Precedes] at hx ⊢
            exact (congrArg (s'.better _) hprice).symm.trans hx
    · rw [hopp]
      exact pairwise_sweep (h.sorted _ hs')
  case qty =>
    intro x hx
    rcases hmem x hx with hx | ⟨h0, rfl⟩
    · exact h.qty x (hownm x hx)
    · exact ⟨Nat.pos_of_ne_zero h0, hqty_le.trans_lt hqty⟩
  case qty_opposite =>
    rw [hopp]
    exact sweep_qty fun x hx => h.qty x (hoppm x hx)
  case uncrossed =>
    rw [uncrossed_iff hs, hopp]
    intro x hx y hy
    rcases hmem x hx with hx | ⟨h0, rfl⟩
    · exact forall_sweep (p := fun y => crosses s x.price_ y.price_ = false) (fun _ => Iff.rfl)
        ((uncrossed_iff hs).mp h.uncrossed x hx) y hy
    · exact sweep_uncrossed (t := t) hs (h.sorted _ hs.opposite) h0 y hy
  case ids =>
    intro x hx
    rw [hnext]
    rcases hmem x hx with hx | ⟨-, rfl⟩
    · exact Nat.lt_succ_of_lt (h.ids x (hownm x hx))
    · exact Nat.lt_succ_self _
  case ids_opposite =>
    rw [hopp, hnext]
    exact forall_sweep (p := fun x => x.market_order_id_ < P.next_id + 1) (fun _ => Iff.rfl)
      fun x hx => Nat.lt_succ_of_lt (h.ids x (hoppm x hx))

/-- Adding an order with a fresh key keeps the invariant. -/
theorem WF.add (h : P.WF) (hs : s.IsTrading) (hqty : qty < 2 ^ 32)
    (hkey : ∀ x ∈ P.orders, key x ≠ (client_id, client_order_id)) :
    (P.add ticker_id client_id client_order_id s price qty).1.WF := by
  have hkeys : ((P.add ticker_id client_id client_order_id s price qty).1.orders.map key).Nodup :=
    nodup_add (fun _ => rfl) hs h.keys hkey
  exact (h.sound.add hs hqty).wf hkeys

/-- The orders of `P'` are some of those of `P`. -/
structure Within (P' P : PriorityBook) : Prop where
  side : ∀ s, s.IsTrading → (P'.side s).Sublist (P.side s)
  next_id : P'.next_id = P.next_id

theorem Within.orders {P' : PriorityBook} (h : P'.Within P) : P'.orders.Sublist P.orders :=
  (h.side .BUY (.inl rfl)).append (h.side .SELL (.inr rfl))

theorem Within.room {P' : PriorityBook} (h : P'.Within P) (hroom : P.Room) : P'.Room := by
  have hcard : ∀ s, s.IsTrading → ((P'.side s).map MEOrderInfo.price_).toFinset.card ≤
      ((P.side s).map MEOrderInfo.price_).toFinset.card := by
    intro s hs
    apply Finset.card_le_card
    intro p hp
    exact List.mem_toFinset.mpr (((h.side s hs).map _).subset (List.mem_toFinset.mp hp))
  exact ⟨h.orders.length_le.trans_lt hroom.1,
    (Nat.add_le_add (hcard .BUY (.inl rfl)) (hcard .SELL (.inr rfl))).trans_lt hroom.2⟩

/-- Taking orders out keeps the invariant. -/
theorem Sound.within {P' : PriorityBook} (h : P.Sound) (hin : P'.Within P) : P'.Sound where
  side := fun s hs x hx => h.side s hs x ((hin.side s hs).subset hx)
  sorted := fun s hs => (h.sorted s hs).sublist (hin.side s hs)
  qty := fun x hx => h.qty x (hin.orders.subset hx)
  uncrossed := fun x hx y hy => h.uncrossed x ((hin.side .BUY (.inl rfl)).subset hx) y
    ((hin.side .SELL (.inr rfl)).subset hy)
  ids := fun x hx => hin.next_id ▸ h.ids x (hin.orders.subset hx)
  ids_nodup := h.ids_nodup.sublist (hin.orders.map _)

theorem within_erase (P : PriorityBook) (k : ℕ × ℕ) : (P.erase k).Within P where
  side := by
    intro s hs
    rcases hs with rfl | rfl
    · exact List.filter_sublist
    · exact List.filter_sublist
  next_id := rfl

theorem erase_orders (P : PriorityBook) (k : ℕ × ℕ) :
    (P.erase k).orders = P.orders.filter fun x => decide (key x ≠ k) :=
  (List.filter_append ..).symm

theorem WF.erase (h : P.WF) (k : ℕ × ℕ) : (P.erase k).WF :=
  (h.sound.within (within_erase P k)).wf (h.keys.sublist ((within_erase P k).orders.map _))

/-- What holds of the orders, and of one that a call brings, holds after the call. -/
theorem forall_step {p : MEOrderInfo → Prop} {c : Call} (hp : ∀ x, p (noQty x) ↔ p x)
    (hc : c.InRange) (h : ∀ x ∈ P.orders, p x)
    (hnew : ∀ client_id client_order_id s price qty,
      c = .add client_id client_order_id s price qty →
        p (P.taker ticker_id client_id client_order_id s price qty)) :
    ∀ x ∈ (P.step ticker_id c).1.orders, p x := by
  cases c with
  | add client_id client_order_id s price qty => exact forall_add hp hc.1 h (hnew _ _ _ _ _ rfl)
  | cancel client_id order_id =>
    intro x hx
    apply h x
    simp only [PriorityBook.step, cancel] at hx
    split at hx
    · exact hx
    · exact (within_erase P (client_id, order_id)).orders.subset hx

/-- As long as the ids fit 32 bits, the book publishes what `step` says. -/
theorem published_eq {c : Call} (hc : P.Admits c) :
    P.published ticker_id c = (P.step ticker_id c).2 := by
  cases c with
  | add client_id client_order_id s price qty =>
    have hid : (P.taker ticker_id client_id client_order_id s price qty).market_order_id_ % 2 ^ 32 =
        (P.taker ticker_id client_id client_order_id s price qty).market_order_id_ :=
      Nat.mod_eq_of_lt hc.2.2.2.2.1
    simp only [published, hid, PriorityBook.step, PriorityBook.add]
    split
    · exact List.append_nil _
    · rfl
  | cancel client_id order_id => rfl

/-- **Every fitting call keeps the invariant.** -/
theorem WF.step_of_fits (h : P.WF) {c : Call} (hc : P.Fits c) : (P.step ticker_id c).1.WF := by
  cases c with
  | add client_id client_order_id s price qty =>
    obtain ⟨⟨hs, -, -, hqty⟩, hkey, -⟩ := hc
    exact h.add hs hqty hkey
  | cancel client_id order_id =>
    simp only [PriorityBook.step, cancel]
    split
    · exact h
    · exact h.erase _

theorem WF.step (h : P.WF) {c : Call} (hc : P.Admits c) : (P.step ticker_id c).1.WF :=
  h.step_of_fits hc.fits

theorem WF.empty : PriorityBook.empty.WF where
  side := fun s _ x hx => by simp [PriorityBook.side, PriorityBook.empty] at hx
  sorted := fun s _ => by simp [PriorityBook.side, PriorityBook.empty]
  qty := fun x hx => by simp [orders, PriorityBook.empty] at hx
  uncrossed := fun x hx => by simp [PriorityBook.empty] at hx
  keys := List.nodup_nil
  ids := fun x hx => by simp [orders, PriorityBook.empty] at hx
  ids_nodup := List.nodup_nil

end step

end PriorityBook

end TradingEcosystem
