import TradingEcosystem.Common.MemPool

/-!
# Limit Order Book Memory

`MEOrderBook` (exchange) and `MarketOrderBook` (trading client) keep the same structure and
share, line for line, the functions that link and unlink orders and price levels:

- two circular doubly linked lists of price levels, best price first
- in each level a circular doubly linked list of orders, first in first out
- an array from price slot to level and an array from order key to order
- a memory pool for the levels and one for the orders

The two books differ in the data an order carries (`I`) and in the key it is looked up by
(`K`), which are parameters here.  An order is its data and its two links.
-/

namespace TradingEcosystem

/-- The data of an order the shared functions read. -/
class OrderInfo (I : Type) (K : outParam Type) where
  side : I → Side
  price : I → ℤ
  /-- Key under which the order is kept in the order map. -/
  key : I → K
  /-- The key is within the bounds of the (nested) array behind the order map. -/
  inRange : K → Bool

/-- `MEOrder` / `MarketOrder`: the order's data and its links in the FIFO queue of its level. -/
structure QueuedOrder (I : Type) where
  info : I
  prev_order_ : Option ℕ
  next_order_ : Option ℕ

/-- `MEOrdersAtPrice` / `MarketOrdersAtPrice`. -/
@[ext]
structure OrdersAtPrice where
  side_ : Side := .INVALID
  price_ : ℤ := Price_INVALID
  first_order_ : Option ℕ := none
  prev_entry_ : Option ℕ := none
  next_entry_ : Option ℕ := none

structure LimitBook (I K : Type) where
  key_to_order_ : K → Option ℕ
  orders_at_price_pool_ : MemPool OrdersAtPrice
  bids_by_price_ : Option ℕ
  asks_by_price_ : Option ℕ
  price_orders_at_price_ : ℕ → Option ℕ
  order_pool_ : MemPool (QueuedOrder I)

/-- `a` is listed after `b` on side `s`: the test for `add_after` in `addOrdersAtPrice`. -/
def Side.worse (s : Side) (a b : ℤ) : Bool :=
  (s == .SELL && decide (a > b)) || (s == .BUY && decide (a < b))

/-- `a` is listed before `b` on side `s`. -/
def Side.better (s : Side) (a b : ℤ) : Bool :=
  (s == .BUY && decide (a > b)) || (s == .SELL && decide (a < b))

namespace LimitBook

variable {I K : Type}

/-! ## Accesses -/

/-- The level a pointer designates. -/
def level (b : LimitBook I K) (l : ℕ) : OrdersAtPrice := b.orders_at_price_pool_.get l

/-- The order a pointer designates. -/
def order (b : LimitBook I K) (o : ℕ) : QueuedOrder I := b.order_pool_.get o

def modLevel (b : LimitBook I K) (l : ℕ) (f : OrdersAtPrice → OrdersAtPrice) : LimitBook I K :=
  { b with orders_at_price_pool_ := b.orders_at_price_pool_.modify l f }

def modOrder (b : LimitBook I K) (o : ℕ) (f : QueuedOrder I → QueuedOrder I) : LimitBook I K :=
  { b with order_pool_ := b.order_pool_.modify o f }

/-- Write to the data of an order. -/
def modInfo (b : LimitBook I K) (o : ℕ) (f : I → I) : LimitBook I K :=
  b.modOrder o fun e => { e with info := f e.info }

/-- `side == Side::BUY ? bids_by_price_ : asks_by_price_`. -/
def best (b : LimitBook I K) (side : Side) : Option ℕ :=
  if side = .BUY then b.bids_by_price_ else b.asks_by_price_

def setBest (b : LimitBook I K) (side : Side) (l : Option ℕ) : LimitBook I K :=
  if side = .BUY then { b with bids_by_price_ := l } else { b with asks_by_price_ := l }

def getOrdersAtPrice (b : LimitBook I K) (price : ℤ) : Option ℕ :=
  b.price_orders_at_price_ (priceToIndex price)

def setOrdersAtPrice (b : LimitBook I K) (price : ℤ) (l : Option ℕ) : LimitBook I K :=
  { b with
    price_orders_at_price_ := fun i =>
      if i = priceToIndex price then l else b.price_orders_at_price_ i }

/-- Write an entry of the order map; `.at` throws when the key is out of bounds. -/
def setKey [OrderInfo I K] [DecidableEq K] (b : LimitBook I K) (k : K) (o : Option ℕ) :
    Except Fault (LimitBook I K) :=
  if OrderInfo.inRange (I := I) k then
    .ok { b with key_to_order_ := fun k' => if k' = k then o else b.key_to_order_ k' }
  else
    .error .outOfRange

/-- Read an entry of the order map. -/
def getKey [OrderInfo I K] (b : LimitBook I K) (k : K) : Except Fault (Option ℕ) :=
  if OrderInfo.inRange (I := I) k then .ok (b.key_to_order_ k) else .error .outOfRange

/-! ## Price levels -/

/-- The new level's price is worse than that of level `target`. -/
def isWorse (b : LimitBook I K) (new target : ℕ) : Bool :=
  (b.level new).side_.worse (b.level new).price_ (b.level target).price_

/-- The `while (add_after && target != best_orders_by_price)` loop, entered with `add_after`
true.  Returns `target` and `add_after` as the loop leaves them. -/
def scanLevels (b : LimitBook I K) (new best : ℕ) : ℕ → ℕ → Except Fault (ℕ × Bool)
  | 0, _ => .error .diverges
  | fuel + 1, target =>
    -- back at the head with the flag still set
    if target = best then
      .ok (target, true)
    else if b.isWorse new target then do
      let target ← deref (b.level target).next_entry_
      scanLevels b new best fuel target
    else
      .ok (target, false)

/-- Where `addOrdersAtPrice` links the new level: next to which level, and on which side. -/
def findTarget (b : LimitBook I K) (new best : ℕ) : Except Fault (ℕ × Bool) :=
  if b.isWorse new best then do
    let target ← deref (b.level best).next_entry_
    -- `add_after` is evaluated again for the second level before the loop is entered
    if b.isWorse new target then
      scanLevels b new best (b.orders_at_price_pool_.size + 1) target
    else
      .ok (target, false)
  else
    .ok (best, false)

/-- Link `new` after `target`. -/
def linkAfter (b : LimitBook I K) (new target : ℕ) : Except Fault (LimitBook I K) := do
  let b := b.modLevel new fun e => { e with prev_entry_ := some target }
  let target_next ← deref (b.level target).next_entry_
  let b := b.modLevel target_next fun e => { e with prev_entry_ := some new }
  let b := b.modLevel new fun e => { e with next_entry_ := (b.level target).next_entry_ }
  .ok (b.modLevel target fun e => { e with next_entry_ := some new })

/-- Link `new` before `target`. -/
def linkBefore (b : LimitBook I K) (new target : ℕ) : Except Fault (LimitBook I K) := do
  let b := b.modLevel new fun e => { e with prev_entry_ := (b.level target).prev_entry_ }
  let b := b.modLevel new fun e => { e with next_entry_ := some target }
  let target_prev ← deref (b.level target).prev_entry_
  let b := b.modLevel target_prev fun e => { e with next_entry_ := some new }
  .ok (b.modLevel target fun e => { e with prev_entry_ := some new })

/-- Add a new level at the correct price into the containers. -/
def addOrdersAtPrice (b : LimitBook I K) (new : ℕ) : Except Fault (LimitBook I K) := do
  let side := (b.level new).side_
  let b := b.setOrdersAtPrice (b.level new).price_ (some new)
  match b.best side with
  | none =>
    -- the first level of its side
    .ok ((b.setBest side (some new)).modLevel new fun e =>
      { e with prev_entry_ := some new, next_entry_ := some new })
  | some best =>
    let (target, add_after) ← b.findTarget new best
    if add_after then
      -- the loop came back to the head: the new level goes behind the last one
      let target ← if target = best then deref (b.level best).prev_entry_ else .ok target
      b.linkAfter new target
    else
      let b ← b.linkBefore new target
      -- the new level is the best one of its side
      if side.better (b.level new).price_ (b.level best).price_ then
        let b := b.modLevel target fun e =>
          { e with next_entry_ := if e.next_entry_ = some best then some new else e.next_entry_ }
        .ok (b.setBest side (some new))
      else
        .ok b

/-- Unlink a level from the list of its side. -/
def unlinkLevel (b : LimitBook I K) (side : Side) (l : ℕ) : Except Fault (LimitBook I K) := do
  let best := b.best side
  if (b.level l).next_entry_ = some l then
    -- the only level of its side; its links are left as they are
    .ok (b.setBest side none)
  else
    let prev ← deref (b.level l).prev_entry_
    let b := b.modLevel prev fun e => { e with next_entry_ := (b.level l).next_entry_ }
    let next ← deref (b.level l).next_entry_
    let b := b.modLevel next fun e => { e with prev_entry_ := (b.level l).prev_entry_ }
    let b := if best = some l then b.setBest side (b.level l).next_entry_ else b
    .ok (b.modLevel l fun e => { e with prev_entry_ := none, next_entry_ := none })

/-- Remove the level at `price` from the containers. -/
def removeOrdersAtPrice (b : LimitBook I K) (side : Side) (price : ℤ) :
    Except Fault (LimitBook I K) := do
  let l ← deref (b.getOrdersAtPrice price)
  let b ← b.unlinkLevel side l
  let b := b.setOrdersAtPrice price none
  let pool ← b.orders_at_price_pool_.deallocate l
  .ok { b with orders_at_price_pool_ := pool }

/-! ## Orders -/

variable [OrderInfo I K] [DecidableEq K]

/-- Unlink an order that shares level `l` with others. -/
def unlinkOrder (b : LimitBook I K) (o : ℕ) : Except Fault (LimitBook I K) := do
  let orders_at_price := b.getOrdersAtPrice (OrderInfo.price (b.order o).info)
  let before ← deref (b.order o).prev_order_
  let after_ := (b.order o).next_order_
  let b := b.modOrder before fun e => { e with next_order_ := after_ }
  let after ← deref after_
  let b := b.modOrder after fun e => { e with prev_order_ := some before }
  let l ← deref orders_at_price
  -- the first order of the level is unlinked
  let b := if (b.level l).first_order_ = some o then
      b.modLevel l fun e => { e with first_order_ := some after }
    else b
  .ok (b.modOrder o fun e => { e with prev_order_ := none, next_order_ := none })

/-- Remove and de-allocate the order from the containers. -/
def removeOrder (b : LimitBook I K) (o : ℕ) : Except Fault (LimitBook I K) := do
  -- an order that is its own neighbour is the last one of its level, which goes with it
  let b ← if (b.order o).prev_order_ = some o then
      b.removeOrdersAtPrice (OrderInfo.side (b.order o).info) (OrderInfo.price (b.order o).info)
    else b.unlinkOrder o
  let b ← b.setKey (OrderInfo.key (b.order o).info) none
  let pool ← b.order_pool_.deallocate o
  .ok { b with order_pool_ := pool }

/-- Link an order behind the last one of a level whose first order is `first`. -/
def linkOrder (b : LimitBook I K) (first o : ℕ) : Except Fault (LimitBook I K) := do
  let last ← deref (b.order first).prev_order_
  let b := b.modOrder last fun e => { e with next_order_ := some o }
  let b := b.modOrder o fun e => { e with prev_order_ := (b.order first).prev_order_ }
  let b := b.modOrder o fun e => { e with next_order_ := some first }
  .ok (b.modOrder first fun e => { e with prev_order_ := some o })

/-- Add an order at the end of the FIFO queue of the level it belongs in. -/
def addOrder (b : LimitBook I K) (o : ℕ) : Except Fault (LimitBook I K) := do
  let info := (b.order o).info
  let b ← match b.getOrdersAtPrice (OrderInfo.price info) with
    | none =>
      -- the first order of a new level
      let b := b.modOrder o fun e => { e with prev_order_ := some o, next_order_ := some o }
      let (l, pool) ← b.orders_at_price_pool_.allocate
        { side_ := OrderInfo.side info, price_ := OrderInfo.price info, first_order_ := some o }
      { b with orders_at_price_pool_ := pool }.addOrdersAtPrice l
    | some l =>
      let first ← deref (b.level l).first_order_
      b.linkOrder first o
  b.setKey (OrderInfo.key info) (some o)

/-- `order_pool_.allocate(...)` followed by `addOrder`, as every caller does. -/
def insertOrder (b : LimitBook I K) (info : I) : Except Fault (LimitBook I K) := do
  let (o, pool) ← b.order_pool_.allocate ⟨info, none, none⟩
  { b with order_pool_ := pool }.addOrder o

end LimitBook

end TradingEcosystem
