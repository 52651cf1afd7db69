import TradingEcosystem.Book.LimitBook

/-!
# The Exchange's Order Book

`exchange/matcher/me_order_book.{h,cpp}`: the book of one ticker on the exchange, over the
memory shared with the client's book.

The book hands its client responses and market updates to the matching engine.  `sent` is the
log of both, in the order in which they are handed over.
-/

namespace TradingEcosystem

/-- The data of an `MEOrder`. -/
structure MEOrderInfo where
  ticker_id_ : ℕ := TickerId_INVALID
  client_id_ : ℕ := ClientId_INVALID
  client_order_id_ : ℕ := OrderId_INVALID
  market_order_id_ : ℕ := OrderId_INVALID
  side_ : Side := .INVALID
  price_ : ℤ := Price_INVALID
  qty_ : ℕ := Qty_INVALID
  priority_ : ℕ := Priority_INVALID
  deriving DecidableEq, Repr, Inhabited

/-- Orders are looked up in `cid_oid_to_order_`, an array of `ME_MAX_NUM_CLIENTS` arrays of
`ME_MAX_ORDER_IDS` pointers. -/
instance : OrderInfo MEOrderInfo (ℕ × ℕ) where
  side := MEOrderInfo.side_
  price := MEOrderInfo.price_
  key := fun o => (o.client_id_, o.client_order_id_)
  inRange := fun k => decide (k.1 < ME_MAX_NUM_CLIENTS) && decide (k.2 < ME_MAX_ORDER_IDS)

/-- What a book hands to the matching engine. -/
inductive MEEvent where
  | response (r : MEClientResponse)
  | update (u : MEMarketUpdate)
  deriving DecidableEq, Repr

namespace MEEvent

def response? : MEEvent → Option MEClientResponse
  | .response r => some r
  | .update _ => none

def update? : MEEvent → Option MEMarketUpdate
  | .response _ => none
  | .update u => some u

end MEEvent

/-- The client responses of a log, in order. -/
def clientResponses (events : List MEEvent) : List MEClientResponse :=
  events.filterMap MEEvent.response?

/-- The market updates of a log, in order. -/
def marketUpdates (events : List MEEvent) : List MEMarketUpdate :=
  events.filterMap MEEvent.update?

theorem clientResponses_append (events events' : List MEEvent) :
    clientResponses (events ++ events') = clientResponses events ++ clientResponses events' :=
  List.filterMap_append

theorem marketUpdates_append (events events' : List MEEvent) :
    marketUpdates (events ++ events') = marketUpdates events ++ marketUpdates events' :=
  List.filterMap_append

structure MEOrderBook where
  ticker_id_ : ℕ
  book : LimitBook MEOrderInfo (ℕ × ℕ)
  next_market_order_id_ : ℕ
  /-- Everything handed to the matching engine so far. -/
  sent : List MEEvent

namespace MEOrderBook

/-- A new book.  Its maps hold null pointers only. -/
def new (ticker_id : ℕ) : MEOrderBook where
  ticker_id_ := ticker_id
  book :=
    { key_to_order_ := fun _ => none
      orders_at_price_pool_ := MemPool.new ME_MAX_PRICE_LEVELS {}
      bids_by_price_ := none
      asks_by_price_ := none
      price_orders_at_price_ := fun _ => none
      order_pool_ := MemPool.new ME_MAX_ORDER_IDS ⟨{}, none, none⟩ }
  next_market_order_id_ := 1
  sent := []

def sendClientResponse (b : MEOrderBook) (r : MEClientResponse) : MEOrderBook :=
  { b with sent := b.sent ++ [.response r] }

def sendMarketUpdate (b : MEOrderBook) (u : MEMarketUpdate) : MEOrderBook :=
  { b with sent := b.sent ++ [.update u] }

def generateNewMarketOrderId (b : MEOrderBook) : ℕ × MEOrderBook :=
  (b.next_market_order_id_, { b with next_market_order_id_ := b.next_market_order_id_ + 1 })

/-- The data of the order a pointer designates. -/
def order (b : MEOrderBook) (o : ℕ) : MEOrderInfo := (b.book.order o).info

/-- One more than the priority of the last order at `price`. -/
def getNextPriority (b : MEOrderBook) (price : ℤ) : Except Fault ℕ :=
  match b.book.getOrdersAtPrice price with
  | none => .ok 1
  | some l => do
    let first ← deref (b.book.level l).first_order_
    let last ← deref (b.book.order first).prev_order_
    .ok ((b.order last).priority_ + 1)

def removeOrder (b : MEOrderBook) (o : ℕ) : Except Fault MEOrderBook := do
  let book ← b.book.removeOrder o
  .ok { b with book := book }

/-- `match`: trade `leaves_qty` of the aggressive order against the resting order `itr`; returns
what is left of it. -/
def matchOrder (b : MEOrderBook) (ticker_id client_id : ℕ) (side : Side)
    (client_order_id new_market_order_id itr leaves_qty : ℕ) : Except Fault (MEOrderBook × ℕ) := do
  let order_qty := (b.order itr).qty_
  let fill_qty := min leaves_qty order_qty
  let leaves_qty := qtySub leaves_qty fill_qty
  let b := { b with
    book := b.book.modInfo itr fun order => { order with qty_ := qtySub order.qty_ fill_qty } }
  -- both responses are built after the write, so the maker's says what it has left
  let order := b.order itr
  let b := b.sendClientResponse
    { type_ := .FILLED, client_id_ := client_id, ticker_id_ := ticker_id,
      client_order_id_ := client_order_id, market_order_id_ := new_market_order_id,
      side_ := side, price_ := order.price_, exec_qty_ := fill_qty, leaves_qty_ := leaves_qty }
  let b := b.sendClientResponse
    { type_ := .FILLED, client_id_ := order.client_id_, ticker_id_ := ticker_id,
      client_order_id_ := order.client_order_id_, market_order_id_ := order.market_order_id_,
      side_ := order.side_, price_ := order.price_, exec_qty_ := fill_qty,
      leaves_qty_ := order.qty_ }
  let b := b.sendMarketUpdate
    { type_ := .TRADE, order_id_ := OrderId_INVALID, ticker_id_ := ticker_id, side_ := side,
      price_ := order.price_, qty_ := fill_qty, priority_ := Priority_INVALID }
  if order.qty_ = 0 then
    -- a filled order leaves the market as a `CANCEL` of the quantity it had before the match
    let b := b.sendMarketUpdate
      { type_ := .CANCEL, order_id_ := order.market_order_id_, ticker_id_ := ticker_id,
        side_ := order.side_, price_ := order.price_, qty_ := order_qty,
        priority_ := Priority_INVALID }
    let b ← b.removeOrder itr
    .ok (b, leaves_qty)
  else
    let b := b.sendMarketUpdate
      { type_ := .MODIFY, order_id_ := order.market_order_id_, ticker_id_ := ticker_id,
        side_ := order.side_, price_ := order.price_, qty_ := order.qty_,
        priority_ := order.priority_ }
    .ok (b, leaves_qty)

/-- The two loops of `checkForMatch`: against the best level of the opposite side, while its
price is not worse than `price` allows. -/
def matchLoop (ticker_id client_id : ℕ) (side : Side) (client_order_id new_market_order_id : ℕ)
    (price : ℤ) : ℕ → MEOrderBook → ℕ → Except Fault (MEOrderBook × ℕ)
  | 0, _, _ => .error .diverges
  | fuel + 1, b, leaves_qty =>
    if leaves_qty = 0 then
      .ok (b, leaves_qty)
    else
      match b.book.best side.opposite with
      | none => .ok (b, leaves_qty)
      | some l => do
        let itr ← deref (b.book.level l).first_order_
        -- the prices do not cross
        if side.worse price (b.order itr).price_ then
          .ok (b, leaves_qty)
        else
          let (b, leaves_qty) ← b.matchOrder ticker_id client_id side client_order_id
            new_market_order_id itr leaves_qty
          matchLoop ticker_id client_id side client_order_id new_market_order_id price fuel
            b leaves_qty

/-- The parameter `new_market_order_id` is declared as a `Qty`. -/
def checkForMatch (b : MEOrderBook) (client_id client_order_id ticker_id : ℕ) (side : Side)
    (price : ℤ) (qty new_market_order_id : ℕ) : Except Fault (MEOrderBook × ℕ) :=
  if side = .BUY ∨ side = .SELL then
    matchLoop ticker_id client_id side client_order_id (new_market_order_id % 2 ^ 32) price
      (b.book.order_pool_.size + 1) b qty
  else
    .ok (b, qty)

/-- The end of `add`: what is left of the order goes into the book. -/
def addRemaining (b : MEOrderBook) (client_id client_order_id ticker_id new_market_order_id : ℕ)
    (side : Side) (price : ℤ) (leaves_qty : ℕ) : Except Fault MEOrderBook := do
  let priority ← b.getNextPriority price
  let book ← b.book.insertOrder
    { ticker_id_ := ticker_id, client_id_ := client_id, client_order_id_ := client_order_id,
      market_order_id_ := new_market_order_id, side_ := side, price_ := price,
      qty_ := leaves_qty, priority_ := priority }
  let b := { b with book := book }
  .ok (b.sendMarketUpdate
    { type_ := .ADD, order_id_ := new_market_order_id, ticker_id_ := ticker_id, side_ := side,
      price_ := price, qty_ := leaves_qty, priority_ := priority })

/-- Create and add a new order, after matching it with the orders of the opposite side. -/
def add (b : MEOrderBook) (client_id client_order_id ticker_id : ℕ) (side : Side) (price : ℤ)
    (qty : ℕ) : Except Fault MEOrderBook := do
  let (new_market_order_id, b) := b.generateNewMarketOrderId
  let b := b.sendClientResponse
    { type_ := .ACCEPTED, client_id_ := client_id, ticker_id_ := ticker_id,
      client_order_id_ := client_order_id, market_order_id_ := new_market_order_id,
      side_ := side, price_ := price, exec_qty_ := 0, leaves_qty_ := qty }
  let (b, leaves_qty) ←
    b.checkForMatch client_id client_order_id ticker_id side price qty new_market_order_id
  -- an order that is filled at once is never put into the book
  if leaves_qty ≠ 0 then
    b.addRemaining client_id client_order_id ticker_id new_market_order_id side price leaves_qty
  else
    .ok b

/-- The order `cancel` finds under a client's order id. -/
def findCancelable (b : MEOrderBook) (client_id order_id : ℕ) : Except Fault (Option ℕ) :=
  if client_id < ME_MAX_NUM_CLIENTS then b.book.getKey (client_id, order_id) else .ok none

/-- Cancel an order, or reject the cancellation if the order does not exist. -/
def cancel (b : MEOrderBook) (client_id order_id ticker_id : ℕ) : Except Fault MEOrderBook := do
  match ← b.findCancelable client_id order_id with
  | none =>
    .ok (b.sendClientResponse
      { type_ := .CANCEL_REJECTED, client_id_ := client_id, ticker_id_ := ticker_id,
        client_order_id_ := order_id, market_order_id_ := OrderId_INVALID, side_ := .INVALID,
        price_ := Price_INVALID, exec_qty_ := Qty_INVALID, leaves_qty_ := Qty_INVALID })
  | some o =>
    -- both messages are filled in before the order is removed
    let order := b.order o
    let b ← b.removeOrder o
    let b := b.sendMarketUpdate
      { type_ := .CANCEL, order_id_ := order.market_order_id_, ticker_id_ := ticker_id,
        side_ := order.side_, price_ := order.price_, qty_ := 0, priority_ := order.priority_ }
    .ok (b.sendClientResponse
      { type_ := .CANCELED, client_id_ := client_id, ticker_id_ := ticker_id,
        client_order_id_ := order_id, market_order_id_ := order.market_order_id_,
        side_ := order.side_, price_ := order.price_, exec_qty_ := Qty_INVALID,
        leaves_qty_ := order.qty_ })

/-! ## Runs -/

/-- A call of the matching engine to one of its books. -/
inductive Call where
  | add (client_id client_order_id : ℕ) (side : Side) (price : ℤ) (qty : ℕ)
  | cancel (client_id order_id : ℕ)
  deriving DecidableEq, Repr

/-- The matching engine passes the book's own ticker. -/
def step (b : MEOrderBook) : Call → Except Fault MEOrderBook
  | .add client_id client_order_id side price qty =>
    b.add client_id client_order_id b.ticker_id_ side price qty
  | .cancel client_id order_id => b.cancel client_id order_id b.ticker_id_

/-- A sequence of calls. -/
def run (b : MEOrderBook) (calls : List Call) : Except Fault MEOrderBook :=
  calls.foldlM step b

end MEOrderBook

end TradingEcosystem
