import TradingEcosystem.Trading.PositionKeeper

/-!
# The Order Manager

`trading/strategy/order_manager.{h,cpp}`: one order for each ticker and side, moved to the price a
strategy asks for and updated from the exchange's responses.

- `moveOrder`, `moveOrders` : what a strategy calls
- `onOrderUpdate` : a response of the exchange
- `MoveOutcome` : the three things `moveOrder` can do
-/

namespace TradingEcosystem

inductive OMOrderState where
  | INVALID
  | PENDING_NEW
  | LIVE
  | PENDING_CANCEL
  | DEAD
  deriving DecidableEq, Repr

structure OMOrder where
  ticker_id_ : ℕ := TickerId_INVALID
  order_id_ : ℕ := OrderId_INVALID
  side_ : Side := .INVALID
  price_ : ℤ := Price_INVALID
  qty_ : ℕ := Qty_INVALID
  order_state_ : OMOrderState := .INVALID
  deriving DecidableEq, Repr

/-- The request that asks for the order. -/
def OMOrder.newRequest (client_id : ℕ) (o : OMOrder) : MEClientRequest where
  type_ := .NEW
  client_id_ := client_id
  ticker_id_ := o.ticker_id_
  order_id_ := o.order_id_
  side_ := o.side_
  price_ := o.price_
  qty_ := o.qty_

/-- The request that cancels the order. -/
def OMOrder.cancelRequest (client_id : ℕ) (o : OMOrder) : MEClientRequest :=
  { o.newRequest client_id with type_ := .CANCEL }

structure OrderManager where
  /-- `trade_engine_->clientId()`. -/
  client_id_ : ℕ
  /-- By ticker and side. -/
  ticker_side_order_ : ℕ → Side → OMOrder
  next_order_id_ : ℕ
  /-- Everything passed to `trade_engine_->sendClientRequest` so far. -/
  sent : List MEClientRequest

namespace OrderManager

def new (client_id : ℕ) : OrderManager where
  client_id_ := client_id
  ticker_side_order_ := fun _ _ => {}
  next_order_id_ := 1
  sent := []

/-- Write to the order of a ticker and side. -/
def setOrder (m : OrderManager) (ticker_id : ℕ) (side : Side) (o : OMOrder) : OrderManager :=
  { m with
    ticker_side_order_ := fun t s =>
      if t = ticker_id ∧ s = side then o else m.ticker_side_order_ t s }

/-- `trade_engine_->sendClientRequest(&request)`. -/
def sendClientRequest (m : OrderManager) (request : MEClientRequest) : OrderManager :=
  { m with sent := m.sent ++ [request] }

/-- Send a new order, and put it in the place of the order of its ticker and side. -/
def newOrder (m : OrderManager) (ticker_id : ℕ) (price : ℤ) (side : Side) (qty : ℕ) :
    OrderManager :=
  let order : OMOrder :=
    { ticker_id_ := ticker_id, order_id_ := m.next_order_id_, side_ := side, price_ := price,
      qty_ := qty, order_state_ := .PENDING_NEW }
  let m := (m.sendClientRequest (order.newRequest m.client_id_)).setOrder ticker_id side order
  { m with next_order_id_ := m.next_order_id_ + 1 }

/-- Send a cancel for the order of a ticker and side. -/
def cancelOrder (m : OrderManager) (ticker_id : ℕ) (side : Side) : OrderManager :=
  let order := m.ticker_side_order_ ticker_id side
  (m.sendClientRequest (order.cancelRequest m.client_id_)).setOrder ticker_id side
    { order with order_state_ := .PENDING_CANCEL }

variable {F : Type}

/-- Move the order of a ticker and side so that it has the given price and quantity; a new one is
sent only after the risk check. -/
def moveOrder (N : Arith F) (risk : RiskInfo F) (m : OrderManager) (ticker_id : ℕ) (price : ℤ)
    (side : Side) (qty : ℕ) : OrderManager :=
  let order := m.ticker_side_order_ ticker_id side
  match order.order_state_ with
  -- only the price is compared, never the quantity
  | .LIVE => if order.price_ ≠ price then m.cancelOrder ticker_id side else m
  | .INVALID | .DEAD =>
    if price ≠ Price_INVALID ∧ risk.checkPreTradeRisk N side qty = .ALLOWED then
      m.newOrder ticker_id price side qty
    else
      m
  -- wait for the exchange
  | .PENDING_NEW | .PENDING_CANCEL => m

/-- Have orders of quantity `clip` at the given prices, and none where the price is
`Price_INVALID`. -/
def moveOrders (N : Arith F) (risk : RiskInfo F) (m : OrderManager) (ticker_id : ℕ)
    (bid_price ask_price : ℤ) (clip : ℕ) : Except Fault OrderManager :=
  if ticker_id < ME_MAX_TICKERS then
    let m := m.moveOrder N risk ticker_id bid_price .BUY clip
    .ok (m.moveOrder N risk ticker_id ask_price .SELL clip)
  else
    .error .outOfRange

/-- An order after a response to it. -/
def updated (order : OMOrder) (r : MEClientResponse) : OMOrder :=
  match r.type_ with
  | .ACCEPTED => { order with order_state_ := .LIVE }
  | .CANCELED => { order with order_state_ := .DEAD }
  | .FILLED =>
    let order := { order with qty_ := r.leaves_qty_ }
    if order.qty_ = 0 then { order with order_state_ := .DEAD } else order
  | .CANCEL_REJECTED | .INVALID => order

section updated

variable {order : OMOrder} {r : MEClientResponse}

theorem updated_of_accepted (h : r.type_ = .ACCEPTED) :
    updated order r = { order with order_state_ := .LIVE } := by
  unfold updated
  rw [h]

theorem updated_of_canceled (h : r.type_ = .CANCELED) :
    updated order r = { order with order_state_ := .DEAD } := by
  unfold updated
  rw [h]

/-- The last fill. -/
theorem updated_of_filled (h : r.type_ = .FILLED) (hzero : r.leaves_qty_ = 0) :
    updated order r = { order with qty_ := r.leaves_qty_, order_state_ := .DEAD } := by
  unfold updated
  rw [h]
  exact if_pos hzero

/-- A fill that leaves something. -/
theorem updated_of_partly_filled (h : r.type_ = .FILLED) (hopen : r.leaves_qty_ ≠ 0) :
    updated order r = { order with qty_ := r.leaves_qty_ } := by
  unfold updated
  rw [h]
  exact if_neg hopen

/-- A response of another kind changes nothing. -/
theorem updated_of_other (h : ¬ (r.type_ = .ACCEPTED ∨ r.type_ = .FILLED ∨ r.type_ = .CANCELED)) :
    updated order r = order := by
  unfold updated
  cases htype : r.type_ with
  | ACCEPTED => exact absurd (.inl htype) h
  | FILLED => exact absurd (.inr (.inl htype)) h
  | CANCELED => exact absurd (.inr (.inr htype)) h
  | CANCEL_REJECTED => rfl
  | INVALID => rfl

/-- **A response changes the state and the quantity of an order only.** -/
theorem updated_eq_with (order : OMOrder) (r : MEClientResponse) : ∃ qty state,
    updated order r = { order with qty_ := qty, order_state_ := state } := by
  by_cases hother : r.type_ = .ACCEPTED ∨ r.type_ = .FILLED ∨ r.type_ = .CANCELED
  · rcases hother with h | h | h
    · exact ⟨_, _, updated_of_accepted h⟩
    · by_cases hzero : r.leaves_qty_ = 0
      · exact ⟨_, _, updated_of_filled h hzero⟩
      · exact ⟨_, _, updated_of_partly_filled h hzero⟩
    · exact ⟨_, _, updated_of_canceled h⟩
  · exact ⟨_, _, updated_of_other hother⟩

@[simp] theorem ticker_id_updated (order : OMOrder) (r : MEClientResponse) :
    (updated order r).ticker_id_ = order.ticker_id_ := by
  obtain ⟨_, _, heq⟩ := updated_eq_with order r
  rw [heq]

end updated

/-- Process a client response. -/
def onOrderUpdate (m : OrderManager) (r : MEClientResponse) : Except Fault OrderManager :=
  if r.ticker_id_ < ME_MAX_TICKERS ∧ r.side_.hasIndex then
    let order := m.ticker_side_order_ r.ticker_id_ r.side_
    .ok (m.setOrder r.ticker_id_ r.side_ (updated order r))
  else
    .error .outOfRange

/-! ## Reading the orders -/

variable {m : OrderManager} {t t' : ℕ} {s s' : Side} {o : OMOrder}

@[simp] theorem order_setOrder_self :
    (m.setOrder t s o).ticker_side_order_ t s = o := by
  simp [setOrder]

theorem order_setOrder_of_ne (h : ¬ (t' = t ∧ s' = s)) :
    (m.setOrder t s o).ticker_side_order_ t' s' = m.ticker_side_order_ t' s' := by
  simp [setOrder, h]

@[simp] theorem sent_setOrder : (m.setOrder t s o).sent = m.sent := rfl
@[simp] theorem client_id_setOrder : (m.setOrder t s o).client_id_ = m.client_id_ := rfl
@[simp] theorem next_order_id_setOrder :
    (m.setOrder t s o).next_order_id_ = m.next_order_id_ := rfl

/-! ## What an update does -/

theorem onOrderUpdate_eq {m' : OrderManager} {r : MEClientResponse}
    (h : m.onOrderUpdate r = .ok m') :
    m' = m.setOrder r.ticker_id_ r.side_
      (updated (m.ticker_side_order_ r.ticker_id_ r.side_) r) := by
  unfold onOrderUpdate at h
  split at h
  · exact (Except.ok.inj h).symm
  · cases h

/-- The orders after a response. -/
theorem order_onOrderUpdate {m' : OrderManager} {r : MEClientResponse}
    (h : m.onOrderUpdate r = .ok m') (t : ℕ) (s : Side) :
    m'.ticker_side_order_ t s = if t = r.ticker_id_ ∧ s = r.side_ then
      updated (m.ticker_side_order_ t s) r else m.ticker_side_order_ t s := by
  rw [onOrderUpdate_eq h]
  by_cases heq : t = r.ticker_id_ ∧ s = r.side_
  · obtain ⟨rfl, rfl⟩ := heq
    rw [order_setOrder_self, if_pos ⟨rfl, rfl⟩]
  · rw [order_setOrder_of_ne heq, if_neg heq]

/-! ## What a move does -/

/-- What `moveOrder` may do to the order of a ticker and side. -/
inductive MoveOutcome (N : Arith F) (risk : RiskInfo F) (m : OrderManager) (ticker_id : ℕ)
    (price : ℤ) (side : Side) (qty : ℕ) : OrderManager → Prop where
  /-- Nothing is sent. -/
  | kept : MoveOutcome N risk m ticker_id price side qty m
  /-- There is no working order, the check allows one, and it is sent. -/
  | sent (hstate : (m.ticker_side_order_ ticker_id side).order_state_ = .INVALID ∨
        (m.ticker_side_order_ ticker_id side).order_state_ = .DEAD)
      (hallowed : risk.checkPreTradeRisk N side qty = .ALLOWED) :
      MoveOutcome N risk m ticker_id price side qty (m.newOrder ticker_id price side qty)
  /-- A cancel is sent for the working order. -/
  | canceled (hstate : (m.ticker_side_order_ ticker_id side).order_state_ = .LIVE) :
      MoveOutcome N risk m ticker_id price side qty (m.cancelOrder ticker_id side)

theorem moveOrder_outcome (N : Arith F) (risk : RiskInfo F) (m : OrderManager) (ticker_id : ℕ)
    (price : ℤ) (side : Side) (qty : ℕ) :
    MoveOutcome N risk m ticker_id price side qty
      (m.moveOrder N risk ticker_id price side qty) := by
  have hnew : ((m.ticker_side_order_ ticker_id side).order_state_ = .INVALID ∨
      (m.ticker_side_order_ ticker_id side).order_state_ = .DEAD) →
      MoveOutcome N risk m ticker_id price side qty
        (if price ≠ Price_INVALID ∧ risk.checkPreTradeRisk N side qty = .ALLOWED then
          m.newOrder ticker_id price side qty else m) := by
    intro hstate
    split
    · next hcheck => exact .sent hstate hcheck.2
    · exact .kept
  unfold moveOrder
  simp only
  split
  · next hlive =>
    split
    · exact .canceled hlive
    · exact .kept
  · next hinvalid => exact hnew (.inl hinvalid)
  · next hdead => exact hnew (.inr hdead)
  · exact .kept
  · exact .kept

theorem moveOrders_eq {N : Arith F} {risk : RiskInfo F} {m' : OrderManager}
    {bid_price ask_price : ℤ} {clip : ℕ}
    (h : m.moveOrders N risk t bid_price ask_price clip = .ok m') :
    t < ME_MAX_TICKERS ∧
      m' = (m.moveOrder N risk t bid_price .BUY clip).moveOrder N risk t ask_price .SELL clip := by
  unfold moveOrders at h
  split at h
  · next ht => exact ⟨ht, (Except.ok.inj h).symm⟩
  · cases h

end OrderManager

end TradingEcosystem
