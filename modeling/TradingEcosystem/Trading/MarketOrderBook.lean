import TradingEcosystem.Book.LimitBook

/-!
# The Client's Order Book

`trading/strategy/market_order_book.{h,cpp}`: the book a trading client keeps for one ticker
from the market updates it receives, over the memory shared with the exchange's book.

The book tells the trade engine about each update it processed.  `notified` is the log of these
calls.
-/

namespace TradingEcosystem

/-- The data of a `MarketOrder`. -/
structure MarketOrderInfo where
  order_id_ : ℕ := OrderId_INVALID
  side_ : Side := .INVALID
  price_ : ℤ := Price_INVALID
  qty_ : ℕ := Qty_INVALID
  priority_ : ℕ := Priority_INVALID
  deriving DecidableEq, Repr, Inhabited

/-- Orders are looked up in `oid_to_order_`, an array of `ME_MAX_ORDER_IDS` pointers. -/
instance : OrderInfo MarketOrderInfo ℕ where
  side := MarketOrderInfo.side_
  price := MarketOrderInfo.price_
  key := MarketOrderInfo.order_id_
  inRange := fun k => decide (k < ME_MAX_ORDER_IDS)

/-- Best bid and offer. -/
structure BBO where
  bid_price_ : ℤ := Price_INVALID
  ask_price_ : ℤ := Price_INVALID
  bid_qty_ : ℕ := Qty_INVALID
  ask_qty_ : ℕ := Qty_INVALID
  deriving DecidableEq, Repr

/-- A call of the book to the trade engine. -/
inductive Notification where
  | onTradeUpdate (market_update : MEMarketUpdate)
  | onOrderBookUpdate (ticker_id : ℕ) (price : ℤ) (side : Side)
  deriving DecidableEq, Repr

structure MarketOrderBook where
  ticker_id_ : ℕ
  book : LimitBook MarketOrderInfo ℕ
  bbo_ : BBO
  /-- Every call to the trade engine so far. -/
  notified : List Notification

namespace MarketOrderBook

/-- A new book.  Its maps hold null pointers only. -/
def new (ticker_id : ℕ) : MarketOrderBook where
  ticker_id_ := ticker_id
  book :=
    { key_to_order_ := fun _ => none
      orders_at_price_pool_ := MemPool.new ME_MAX_PRICE_LEVELS {}
      bids_by_price_ := none
      asks_by_price_ := none
      price_orders_at_price_ := fun _ => none
      order_pool_ := MemPool.new ME_MAX_ORDER_IDS ⟨{}, none, none⟩ }
  bbo_ := {}
  notified := []

/-! ## Best bid and offer -/

/-- The loop that adds up the quantities of a level, from `order` to the order before `first`. -/
def sumQty (b : LimitBook MarketOrderInfo ℕ) (first : ℕ) : ℕ → ℕ → ℕ → Except Fault ℕ
  | 0, _, _ => .error .diverges
  | fuel + 1, order, qty =>
    if order = first then
      .ok qty
    else do
      let next ← deref (b.order order).next_order_
      sumQty b first fuel next ((qty + (b.order order).info.qty_) % 2 ^ 32)

/-- Price and total quantity of the best level of a side, both invalid when there is none. -/
def topOfBook (b : LimitBook MarketOrderInfo ℕ) (best : Option ℕ) : Except Fault (ℤ × ℕ) :=
  match best with
  | none => .ok (Price_INVALID, Qty_INVALID)
  | some l => do
    let first ← deref (b.level l).first_order_
    let next ← deref (b.order first).next_order_
    let qty ← sumQty b first (b.order_pool_.size + 1) next (b.order first).info.qty_
    .ok ((b.level l).price_, qty)

def updateBid (b : MarketOrderBook) : Except Fault MarketOrderBook := do
  let (price, qty) ← topOfBook b.book b.book.bids_by_price_
  .ok { b with bbo_ := { b.bbo_ with bid_price_ := price, bid_qty_ := qty } }

def updateAsk (b : MarketOrderBook) : Except Fault MarketOrderBook := do
  let (price, qty) ← topOfBook b.book b.book.asks_by_price_
  .ok { b with bbo_ := { b.bbo_ with ask_price_ := price, ask_qty_ := qty } }

/-- The two halves of `updateBBO`. -/
def updateBBO (b : MarketOrderBook) (update_bid update_ask : Bool) :
    Except Fault MarketOrderBook := do
  let b ← (if update_bid then b.updateBid else .ok b)
  if update_ask then b.updateAsk else .ok b

/-! ## Market updates -/

/-- The body of the first loop of `CLEAR`: the order in one entry of the order map, if any, is
deallocated. -/
def deallocateOrder (b : LimitBook MarketOrderInfo ℕ) (oid : ℕ) :
    Except Fault (LimitBook MarketOrderInfo ℕ) :=
  match b.key_to_order_ oid with
  | none => .ok b
  | some order => do
    let pool ← b.order_pool_.deallocate order
    .ok { b with order_pool_ := pool }

def deallocateOrders (b : LimitBook MarketOrderInfo ℕ) (oids : List ℕ) :
    Except Fault (LimitBook MarketOrderInfo ℕ) :=
  oids.foldlM deallocateOrder b

/-- A loop of `CLEAR` over the levels behind the best one. -/
def deallocateLevels (best : ℕ) :
    ℕ → LimitBook MarketOrderInfo ℕ → ℕ → Except Fault (LimitBook MarketOrderInfo ℕ)
  | 0, _, _ => .error .diverges
  | fuel + 1, b, l =>
    if l = best then
      .ok b
    else do
      -- the link of the level is read after its block was given back
      let pool ← b.orders_at_price_pool_.deallocate l
      let next ← deref (b.level l).next_entry_
      deallocateLevels best fuel { b with orders_at_price_pool_ := pool } next

/-- The levels of one side are deallocated, the best one last. -/
def deallocateSide (b : LimitBook MarketOrderInfo ℕ) (best : Option ℕ) :
    Except Fault (LimitBook MarketOrderInfo ℕ) :=
  match best with
  | none => .ok b
  | some l => do
    let next ← deref (b.level l).next_entry_
    let b ← deallocateLevels l (b.orders_at_price_pool_.size + 1) b next
    let pool ← b.orders_at_price_pool_.deallocate l
    .ok { b with orders_at_price_pool_ := pool }

/-- `case CLEAR`.  The price map `price_orders_at_price_` is not written. -/
def clear (b : LimitBook MarketOrderInfo ℕ) : Except Fault (LimitBook MarketOrderInfo ℕ) := do
  let b ← deallocateOrders b (List.range ME_MAX_ORDER_IDS)
  let b := { b with key_to_order_ := fun _ => none }
  let b ← deallocateSide b b.bids_by_price_
  let b ← deallocateSide b b.asks_by_price_
  .ok { b with bids_by_price_ := none, asks_by_price_ := none }

/-- What an update does to the book; `TRADE` is handled by the caller. -/
def applyUpdate (b : LimitBook MarketOrderInfo ℕ) (u : MEMarketUpdate) :
    Except Fault (LimitBook MarketOrderInfo ℕ) :=
  match u.type_ with
  | .ADD =>
    b.insertOrder
      { order_id_ := u.order_id_, side_ := u.side_, price_ := u.price_, qty_ := u.qty_,
        priority_ := u.priority_ }
  | .MODIFY => do
    let order ← b.getKey u.order_id_
    let order ← deref order
    .ok (b.modInfo order fun info => { info with qty_ := u.qty_ })
  | .CANCEL => do
    let order ← b.getKey u.order_id_
    let order ← deref order
    b.removeOrder order
  | .CLEAR => clear b
  | .TRADE | .INVALID | .SNAPSHOT_START | .SNAPSHOT_END => .ok b

/-- The best bid may change: the update is for a price at the best bid or better. -/
def bidUpdated (b : LimitBook MarketOrderInfo ℕ) (u : MEMarketUpdate) : Bool :=
  match b.bids_by_price_ with
  | none => false
  | some l => decide (u.side_ = .BUY) && decide (u.price_ ≥ (b.level l).price_)

def askUpdated (b : LimitBook MarketOrderInfo ℕ) (u : MEMarketUpdate) : Bool :=
  match b.asks_by_price_ with
  | none => false
  | some l => decide (u.side_ = .SELL) && decide (u.price_ ≤ (b.level l).price_)

/-- Process a market update. -/
def onMarketUpdate (b : MarketOrderBook) (u : MEMarketUpdate) : Except Fault MarketOrderBook := do
  let bid_updated := bidUpdated b.book u
  let ask_updated := askUpdated b.book u
  -- a trade returns before the best bid and offer are brought up to date
  if u.type_ = .TRADE then
    .ok { b with notified := b.notified ++ [.onTradeUpdate u] }
  else
    let book ← applyUpdate b.book u
    let b ← { b with book := book }.updateBBO bid_updated ask_updated
    .ok { b with notified := b.notified ++ [.onOrderBookUpdate u.ticker_id_ u.price_ u.side_] }

/-- The call to the trade engine that ends an update. -/
def notification (u : MEMarketUpdate) : Notification :=
  if u.type_ = .TRADE then .onTradeUpdate u else .onOrderBookUpdate u.ticker_id_ u.price_ u.side_

theorem notified_updateBid {b b' : MarketOrderBook} (h : b.updateBid = .ok b') :
    b'.notified = b.notified := by
  obtain ⟨_, _, heq⟩ := bind_eq_ok.mp h
  cases heq
  rfl

theorem notified_updateAsk {b b' : MarketOrderBook} (h : b.updateAsk = .ok b') :
    b'.notified = b.notified := by
  obtain ⟨_, _, heq⟩ := bind_eq_ok.mp h
  cases heq
  rfl

theorem notified_updateBBO {b b' : MarketOrderBook} {update_bid update_ask : Bool}
    (h : b.updateBBO update_bid update_ask = .ok b') : b'.notified = b.notified := by
  obtain ⟨b₁, hbid, hask⟩ := bind_eq_ok.mp h
  have h₁ : b₁.notified = b.notified := by
    cases update_bid with
    | true => exact notified_updateBid hbid
    | false =>
      cases hbid
      rfl
  rw [← h₁]
  cases update_ask with
  | true => exact notified_updateAsk hask
  | false =>
    cases hask
    rfl

/-- Each update ends in one call to the trade engine. -/
theorem notified_onMarketUpdate {b b' : MarketOrderBook} {u : MEMarketUpdate}
    (h : b.onMarketUpdate u = .ok b') : b'.notified = b.notified ++ [notification u] := by
  unfold onMarketUpdate at h
  unfold notification
  simp only at h
  split at h
  · next htrade =>
    cases h
    rw [if_pos htrade]
  · next hother =>
    obtain ⟨book, _, h⟩ := bind_eq_ok.mp h
    obtain ⟨b₁, hbbo, h⟩ := bind_eq_ok.mp h
    cases h
    rw [if_neg hother, notified_updateBBO hbbo]

/-- A sequence of market updates. -/
def run (b : MarketOrderBook) (updates : List MEMarketUpdate) : Except Fault MarketOrderBook :=
  updates.foldlM onMarketUpdate b

end MarketOrderBook

end TradingEcosystem
