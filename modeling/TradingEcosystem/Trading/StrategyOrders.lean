import TradingEcosystem.Trading.Isolation
import TradingEcosystem.Trading.RandomTrader

/-!
# What the Strategies Send

Every request of the trade engine is traced back to the market update that made the strategy send
it.  What a strategy wants is a function of that update and of the best prices it left: the
features, which all tickers share, carry nothing over from one ticker to another.

- `TradeEngine.targets` : the prices a strategy wants its two orders at
- `OrderManager.MoveSends` : the requests a move to a price can send
- `OrderManager.Booked` : the ids of the orders, and that only orders once sent are canceled
- `TradeEngine.strategy_requests` : where every request of a run comes from
-/

namespace TradingEcosystem

open RandomTrader (orderIds)

variable {F : Type}

/-- The prices at which a strategy wants its two orders of a ticker. -/
structure Targets where
  bid_price : ℤ
  ask_price : ℤ
  deriving DecidableEq, Repr

def Targets.price (w : Targets) (side : Side) : ℤ :=
  if side = .BUY then w.bid_price else w.ask_price

/-! ## One move -/

namespace OrderManager

variable {N : Arith F} {risk : RiskInfo F} {m : OrderManager} {t : ℕ} {price : ℤ} {side : Side}
  {qty : ℕ}

/-- The requests that a move of an order to `price` can send. -/
inductive MoveSends (N : Arith F) (risk : RiskInfo F) (m : OrderManager) (ticker_id : ℕ) (price : ℤ)
    (side : Side) (qty : ℕ) : MEClientRequest → Prop where
  /-- There is no order, a price is wanted, and the risk check allows it. -/
  | new (order_id : ℕ)
      (hfree : (m.ticker_side_order_ ticker_id side).order_state_ = .INVALID ∨
        (m.ticker_side_order_ ticker_id side).order_state_ = .DEAD)
      (hprice : price ≠ Price_INVALID)
      (hallowed : risk.checkPreTradeRisk N side qty = .ALLOWED) :
      MoveSends N risk m ticker_id price side qty
        { type_ := .NEW, client_id_ := m.client_id_, ticker_id_ := ticker_id, order_id_ := order_id,
          side_ := side, price_ := price, qty_ := qty }
  /-- The order works at another price. -/
  | cancel (hlive : (m.ticker_side_order_ ticker_id side).order_state_ = .LIVE)
      (hmoved : (m.ticker_side_order_ ticker_id side).price_ ≠ price) :
      MoveSends N risk m ticker_id price side qty
        ((m.ticker_side_order_ ticker_id side).cancelRequest m.client_id_)

/-- A move sends at most one request. -/
theorem sent_moveOrder_eq (N : Arith F) (risk : RiskInfo F) (m : OrderManager) (t : ℕ) (price : ℤ)
    (side : Side) (qty : ℕ) : ∃ requests,
      (m.moveOrder N risk t price side qty).sent = m.sent ++ requests ∧ requests.length ≤ 1 ∧
      ∀ r ∈ requests, MoveSends N risk m t price side qty r := by
  have hnone : ∃ requests, m.sent = m.sent ++ requests ∧ requests.length ≤ 1 ∧
      ∀ r ∈ requests, MoveSends N risk m t price side qty r :=
    ⟨[], (List.append_nil _).symm, by simp, fun _ hr => absurd hr List.not_mem_nil⟩
  have hfree : ((m.ticker_side_order_ t side).order_state_ = .INVALID ∨
      (m.ticker_side_order_ t side).order_state_ = .DEAD) →
      ∃ requests, (if price ≠ Price_INVALID ∧ risk.checkPreTradeRisk N side qty = .ALLOWED then
          m.newOrder t price side qty else m).sent = m.sent ++ requests ∧ requests.length ≤ 1 ∧
        ∀ r ∈ requests, MoveSends N risk m t price side qty r := by
    intro hstate
    split
    · next hcheck =>
      refine ⟨_, rfl, by simp, fun r hr => ?_⟩
      rw [List.mem_singleton.mp hr]
      exact .new _ hstate hcheck.1 hcheck.2
    · exact hnone
  unfold moveOrder
  simp only
  split
  · next hlive =>
    split
    · next hmoved =>
      refine ⟨_, rfl, by simp, fun r hr => ?_⟩
      rw [List.mem_singleton.mp hr]
      exact .cancel hlive hmoved
    · exact hnone
  · next hinvalid => exact hfree (.inl hinvalid)
  · next hdead => exact hfree (.inr hdead)
  · exact hnone
  · exact hnone

/-- A move writes to the order of its side only, and never to the client id. -/
theorem moveOrder_frame (N : Arith F) (risk : RiskInfo F) (m : OrderManager) (t : ℕ) (price : ℤ)
    (qty : ℕ) {side side' : Side} (hside : side' ≠ side) :
    (m.moveOrder N risk t price side qty).ticker_side_order_ t side' =
        m.ticker_side_order_ t side' ∧
      (m.moveOrder N risk t price side qty).client_id_ = m.client_id_ := by
  have hslot : ¬ (t = t ∧ side' = side) := fun h => hside h.2
  have houtcome := moveOrder_outcome N risk m t price side qty
  generalize m.moveOrder N risk t price side qty = m' at houtcome ⊢
  cases houtcome with
  | kept => exact ⟨rfl, rfl⟩
  | sent hstate hallowed => exact ⟨order_setOrder_of_ne hslot, rfl⟩
  | canceled hlive => exact ⟨order_setOrder_of_ne hslot, rfl⟩

/-- The other side's order decides what a move on this side sends. -/
theorem MoveSends.congr {m' : OrderManager} {r : MEClientRequest}
    (hslot : m'.ticker_side_order_ t side = m.ticker_side_order_ t side)
    (hclient : m'.client_id_ = m.client_id_) (h : MoveSends N risk m' t price side qty r) :
    MoveSends N risk m t price side qty r := by
  cases h with
  | new order_id hfree hprice hallowed =>
    rw [hslot] at hfree
    rw [hclient]
    exact .new order_id hfree hprice hallowed
  | cancel hlive hmoved =>
    rw [hslot] at hlive hmoved
    rw [hslot, hclient]
    exact .cancel hlive hmoved

/-- **What the two moves of a ticker send**: for each side at most one request, and which it is
was decided by the orders before the first move. -/
theorem sent_moveBoth (N : Arith F) (risk : RiskInfo F) (m : OrderManager) (t qty : ℕ)
    (w : Targets) : ∃ bids asks,
    ((m.moveOrder N risk t w.bid_price .BUY qty).moveOrder N risk t w.ask_price .SELL qty).sent =
        m.sent ++ (bids ++ asks) ∧ bids.length ≤ 1 ∧ asks.length ≤ 1 ∧
      (∀ r ∈ bids, MoveSends N risk m t w.bid_price .BUY qty r) ∧
      (∀ r ∈ asks, MoveSends N risk m t w.ask_price .SELL qty r) := by
  obtain ⟨bids, hbids, hbid, hbuy⟩ := sent_moveOrder_eq N risk m t w.bid_price .BUY qty
  obtain ⟨asks, hasks, hask, hsell⟩ := sent_moveOrder_eq N risk
    (m.moveOrder N risk t w.bid_price .BUY qty) t w.ask_price .SELL qty
  have hside : Side.SELL ≠ Side.BUY := by decide
  have hframe := moveOrder_frame N risk m t w.bid_price qty hside
  refine ⟨bids, asks, ?_, hbid, hask, hbuy, fun r hr => (hsell r hr).congr hframe.1 hframe.2⟩
  rw [hasks, hbids, List.append_assoc]

/-! ## Bookkeeping -/

/-- An order was once sent, or it was never filled in. -/
def Sent (m : OrderManager) (o : OMOrder) : Prop :=
  (∃ r ∈ m.sent, r.type_ = .NEW ∧ r.ticker_id_ = o.ticker_id_ ∧ r.order_id_ = o.order_id_ ∧
    r.side_ = o.side_ ∧ r.price_ = o.price_) ∨
  o.order_id_ = OrderId_INVALID

/-- **What an order manager has sent**: orders numbered from 1 on, and its orders are among them. -/
structure Booked (client_id : ℕ) (m : OrderManager) : Prop where
  client_id : m.client_id_ = client_id
  next : 1 ≤ m.next_order_id_
  ids : orderIds m.sent = List.range' 1 (m.next_order_id_ - 1)
  orders : ∀ t s, m.Sent (m.ticker_side_order_ t s)

theorem booked_new (client_id : ℕ) : (new client_id).Booked client_id where
  client_id := rfl
  next := Nat.le_refl 1
  ids := rfl
  orders := fun _ _ => .inr rfl

theorem Sent.mono {m' : OrderManager} {o : OMOrder} (hsent : m.sent <+: m'.sent) (h : m.Sent o) :
    m'.Sent o := by
  rcases h with ⟨r, hr, hfields⟩ | hinvalid
  · exact .inl ⟨r, hsent.subset hr, hfields⟩
  · exact .inr hinvalid

/-- Another quantity or state. -/
theorem Sent.with {o : OMOrder} (h : m.Sent o) (qty : ℕ) (state : OMOrderState) :
    m.Sent { o with qty_ := qty, order_state_ := state } := h

variable {client_id : ℕ}

/-- A write of an order that was sent. -/
theorem Booked.setOrder {o : OMOrder} (h : m.Booked client_id) (ho : m.Sent o) (t : ℕ)
    (s : Side) : (m.setOrder t s o).Booked client_id where
  client_id := h.client_id
  next := h.next
  ids := h.ids
  orders := by
    intro t' s'
    by_cases hslot : t' = t ∧ s' = s
    · obtain ⟨rfl, rfl⟩ := hslot
      rw [order_setOrder_self]
      exact ho
    · rw [order_setOrder_of_ne hslot]
      exact h.orders t' s'

theorem Booked.newOrder (h : m.Booked client_id) (t : ℕ) (price : ℤ) (s : Side) (qty : ℕ) :
    (m.newOrder t price s qty).Booked client_id where
  client_id := h.client_id
  next := Nat.le_add_left 1 _
  ids := by
    have hnext := h.next
    have hone : orderIds [OMOrder.newRequest m.client_id_
        { ticker_id_ := t, order_id_ := m.next_order_id_, side_ := s, price_ := price, qty_ := qty,
          order_state_ := .PENDING_NEW }] = [m.next_order_id_] := rfl
    simp only [OrderManager.newOrder, sendClientRequest, sent_setOrder, next_order_id_setOrder,
      RandomTrader.orderIds_append, h.ids, hone, Nat.add_sub_cancel]
    -- the number after the last one
    obtain ⟨n, hn⟩ := Nat.exists_eq_add_of_le' hnext
    rw [hn, Nat.add_sub_cancel, List.range'_1_concat, Nat.add_comm 1 n]
  orders := by
    intro t' s'
    by_cases hslot : t' = t ∧ s' = s
    · obtain ⟨rfl, rfl⟩ := hslot
      refine .inl ⟨_, List.mem_append_right _ (List.mem_singleton_self _), rfl, ?_⟩
      simp [OrderManager.newOrder, OMOrder.newRequest, OrderManager.setOrder]
    · have hother : (m.newOrder t price s qty).ticker_side_order_ t' s' =
          m.ticker_side_order_ t' s' := order_setOrder_of_ne hslot
      rw [hother]
      exact (h.orders t' s').mono (List.prefix_append _ _)

theorem Booked.cancelOrder (h : m.Booked client_id) (t : ℕ) (s : Side) :
    (m.cancelOrder t s).Booked client_id := by
  have hsent : (m.sendClientRequest
      ((m.ticker_side_order_ t s).cancelRequest m.client_id_)).Booked client_id :=
    { client_id := h.client_id
      next := h.next
      ids := by
        -- a cancellation is not an order
        have hnone : orderIds [(m.ticker_side_order_ t s).cancelRequest m.client_id_] = [] := rfl
        simp only [sendClientRequest, RandomTrader.orderIds_append, hnone, List.append_nil, h.ids]
      orders := fun t' s' => (h.orders t' s').mono (List.prefix_append _ _) }
  exact hsent.setOrder ((hsent.orders t s).with _ .PENDING_CANCEL) t s

theorem Booked.moveOrder (h : m.Booked client_id) :
    (m.moveOrder N risk t price side qty).Booked client_id := by
  have houtcome := moveOrder_outcome N risk m t price side qty
  generalize m.moveOrder N risk t price side qty = m' at houtcome ⊢
  cases houtcome with
  | kept => exact h
  | sent hstate hallowed => exact h.newOrder ..
  | canceled hlive => exact h.cancelOrder ..

theorem Booked.onOrderUpdate (h : m.Booked client_id) (r : MEClientResponse) :
    (m.setOrder r.ticker_id_ r.side_
      (updated (m.ticker_side_order_ r.ticker_id_ r.side_) r)).Booked client_id := by
  refine h.setOrder ?_ _ _
  obtain ⟨qty, state, heq⟩ := updated_eq_with (m.ticker_side_order_ r.ticker_id_ r.side_) r
  rw [heq]
  exact (h.orders _ _).with qty state

end OrderManager

/-! ## What a strategy wants -/

namespace TradeEngine

open OrderManager (MoveSends Booked)

/-- The prices the strategy wants its orders at, after a market update that left `bbo`; none where
it leaves the orders as they are. -/
def targets (S : Setup F) (market_update : MEMarketUpdate) (bbo : BBO) : Option Targets :=
  let cfg := S.ticker_cfg market_update.ticker_id_
  match S.algo_type with
  | .MAKER =>
    let fair_price := FeatureEngine.mktPrice S.toArith bbo
    if market_update.type_ ≠ .TRADE ∧ bbo.IsValid ∧ S.ne fair_price S.Feature_INVALID then
      some
        { bid_price := S.int64 (bbo.bid_price_ -
            if S.ge (S.sub fair_price (S.ofInt bbo.bid_price_)) cfg.threshold_ then 0 else 1)
          ask_price := S.int64 (bbo.ask_price_ +
            if S.ge (S.sub (S.ofInt bbo.ask_price_) fair_price) cfg.threshold_ then 0 else 1) }
    else none
  | .TAKER =>
    let agg_qty_ratio := FeatureEngine.aggTradeQtyRatio S.toArith market_update bbo
    if market_update.type_ = .TRADE ∧ bbo.IsValid ∧ S.ne agg_qty_ratio S.Feature_INVALID ∧
        S.ge agg_qty_ratio cfg.threshold_ then
      some (if market_update.side_ = .BUY then ⟨bbo.ask_price_, Price_INVALID⟩
        else ⟨Price_INVALID, bbo.bid_price_⟩)
    else none
  | _ => none

variable {S : Setup F} {e e' : TradeEngine F} {u : MEMarketUpdate}

/-- The two moves to the prices wanted. -/
def moveTo (S : Setup F) (e : TradeEngine F) (risk : RiskInfo F) (ticker_id : ℕ) (w : Targets) :
    OrderManager :=
  let clip := (S.ticker_cfg ticker_id).clip_
  (e.order_manager_.moveOrder S.toArith risk ticker_id w.bid_price .BUY clip).moveOrder S.toArith
    risk ticker_id w.ask_price .SELL clip

/-- The orders are moved to the prices wanted. -/
def Follows (S : Setup F) (e : TradeEngine F) (u : MEMarketUpdate) (bbo : BBO) (m : OrderManager) :
    Prop :=
  m = match targets S u bbo with
    | none => e.order_manager_
    | some w => e.moveTo S (e.risk S u.ticker_id_) u.ticker_id_ w

/-- After a trade the feature is that of the trade. -/
theorem follows_algoOnTradeUpdate {f : FeatureEngine F} {bbo : BBO} {m : OrderManager}
    (htrade : u.type_ = .TRADE)
    (hfeature : e.feature_engine_ = f.onTradeUpdate S.toArith u bbo)
    (h : e.algoOnTradeUpdate S u bbo = .ok m) : e.Follows S u bbo m := by
  unfold algoOnTradeUpdate at h
  unfold Follows targets
  cases halgo : S.algo_type with
  | TAKER =>
    simp only [halgo, LiquidityTaker.onTradeUpdate, hfeature] at h
    by_cases hvalid : bbo.IsValid
    · simp only [FeatureEngine.onTradeUpdate, if_pos hvalid] at h
      simp only [htrade, hvalid, true_and] at h ⊢
      split at h
      · next hsignal =>
        rw [if_pos hsignal]
        -- a buyer is followed at the ask, a seller at the bid
        split at h
        · next hbuy =>
          rw [if_pos hbuy]
          exact (OrderManager.moveOrders_eq h).2
        · next hsell =>
          rw [if_neg hsell]
          exact (OrderManager.moveOrders_eq h).2
      · next hnone =>
        rw [if_neg hnone]
        exact (Except.ok.inj h).symm
    · simp only [hvalid, false_and, and_false, if_false] at h ⊢
      exact (Except.ok.inj h).symm
  | MAKER =>
    simp only [halgo] at h
    simp only [htrade, ne_eq, not_true, false_and, if_false]
    exact (Except.ok.inj h).symm
  | INVALID | RANDOM | MAX =>
    simp only [halgo] at h
    exact (Except.ok.inj h).symm

/-- After a change of the book the fair price is that of the book. -/
theorem follows_algoOnOrderBookUpdate {f : FeatureEngine F} {bbo : BBO} {m : OrderManager}
    (hother : u.type_ ≠ .TRADE)
    (hfeature : e.feature_engine_ = f.onOrderBookUpdate S.toArith bbo)
    (h : e.algoOnOrderBookUpdate S u.ticker_id_ bbo = .ok m) : e.Follows S u bbo m := by
  unfold algoOnOrderBookUpdate at h
  unfold Follows targets
  cases halgo : S.algo_type with
  | MAKER =>
    simp only [halgo, MarketMaker.onOrderBookUpdate, hfeature] at h
    by_cases hvalid : bbo.IsValid
    · simp only [FeatureEngine.onOrderBookUpdate, if_pos hvalid] at h
      simp only [hother, hvalid, ne_eq, not_false_eq_true, true_and] at h ⊢
      split at h
      · next hfair =>
        rw [if_pos hfair]
        exact (OrderManager.moveOrders_eq h).2
      · next hnone =>
        rw [if_neg hnone]
        exact (Except.ok.inj h).symm
    · simp only [hvalid, false_and, and_false, if_false] at h ⊢
      exact (Except.ok.inj h).symm
  | TAKER =>
    simp only [halgo] at h
    simp only [hother, false_and, if_false]
    exact (Except.ok.inj h).symm
  | INVALID | RANDOM | MAX =>
    simp only [halgo] at h
    exact (Except.ok.inj h).symm

/-- **The strategy wants what the update and its book's best prices say**, whatever the features
were before. -/
theorem onMarketUpdate_targets (h : e.onMarketUpdate S u = .ok e') :
    e'.order_manager_ =
      match targets S u (e'.ticker_order_book_ u.ticker_id_).bbo_ with
      | none => e.order_manager_
      | some w => e.moveTo S (e'.risk S u.ticker_id_) u.ticker_id_ w := by
  have ht := (onMarketUpdate_spec h).ticker_id
  rw [onMarketUpdate_eq ht] at h
  obtain ⟨book, _, h⟩ := bind_eq_ok.mp h
  have hbook : (e.setBook u.ticker_id_ book).ticker_order_book_ u.ticker_id_ = book :=
    Function.update_self ..
  by_cases htrade : u.type_ = .TRADE
  · simp only [MarketOrderBook.notification, if_pos htrade, notify, onTradeUpdate] at h
    obtain ⟨m, halgo, h⟩ := bind_eq_ok.mp h
    obtain rfl := Except.ok.inj h
    have hfollows := follows_algoOnTradeUpdate htrade rfl halgo
    simp only [hbook]
    exact hfollows
  · simp only [MarketOrderBook.notification, if_neg htrade, notify, onOrderBookUpdate, if_pos ht]
      at h
    obtain ⟨m, halgo, h⟩ := bind_eq_ok.mp h
    obtain rfl := Except.ok.inj h
    have hfollows := follows_algoOnOrderBookUpdate htrade rfl halgo
    simp only [hbook]
    exact hfollows

/-- The market maker asks for the best prices or one off them, never for a price between them; the
liquidity taker for the price of the other side, in the direction of the trade. -/
def AtTouch (S : Setup F) (u : MEMarketUpdate) (bbo : BBO) (side : Side) (price : ℤ) : Prop :=
  match S.algo_type with
  | .MAKER =>
    -- the smallest 64-bit price has none below it
    -2 ^ 63 < bbo.bid_price_ → FitsInt64 bbo.bid_price_ → FitsInt64 bbo.ask_price_ →
      if side = .BUY then price = bbo.bid_price_ ∨ price = bbo.bid_price_ - 1
      else price = bbo.ask_price_ ∨ price = bbo.ask_price_ + 1
  | .TAKER =>
    if side = .BUY then u.side_ = .BUY ∧ price = bbo.ask_price_
    else u.side_ ≠ .BUY ∧ price = bbo.bid_price_
  | _ => False

/-- What the strategy wants is known from the touch. -/
theorem atTouch_of_targets {bbo : BBO} {w : Targets} {side : Side}
    (h : targets S u bbo = some w) (hprice : w.price side ≠ Price_INVALID) :
    bbo.IsValid ∧ AtTouch S u bbo side (w.price side) := by
  unfold targets at h
  unfold AtTouch
  cases halgo : S.algo_type with
  | MAKER =>
    simp only [halgo] at h
    split at h
    · next hsignal =>
      obtain rfl := Option.some.inj h
      refine ⟨hsignal.2.1, fun hlow hbid hask => ?_⟩
      have hask_ne : bbo.ask_price_ ≠ Price_INVALID := hsignal.2.1.2
      simp only [FitsInt64] at hbid hask
      simp only [Price_INVALID] at hask_ne
      unfold Targets.price
      split
      · -- the bid, or the price below it
        simp only
        split
        · exact .inl (by rw [S.int64_eq _ ⟨by omega, by omega⟩, Int.sub_zero])
        · exact .inr (S.int64_eq _ ⟨by omega, by omega⟩)
      · simp only
        split
        · exact .inl (by rw [S.int64_eq _ ⟨by omega, by omega⟩, Int.add_zero])
        · exact .inr (S.int64_eq _ ⟨by omega, by omega⟩)
    · cases h
  | TAKER =>
    simp only [halgo] at h
    split at h
    · next hsignal =>
      obtain rfl := Option.some.inj h
      refine ⟨hsignal.2.1, ?_⟩
      unfold Targets.price at hprice ⊢
      -- on the side not wanted the price is the invalid one
      by_cases hbuy : u.side_ = .BUY
      · simp only [if_pos hbuy] at hprice ⊢
        by_cases hside : side = .BUY
        · simp only [if_pos hside]
          exact ⟨hbuy, trivial⟩
        · rw [if_neg hside] at hprice
          exact absurd rfl hprice
      · simp only [if_neg hbuy] at hprice ⊢
        by_cases hside : side = .BUY
        · rw [if_pos hside] at hprice
          exact absurd rfl hprice
        · simp only [if_neg hside]
          exact ⟨hbuy, trivial⟩
    · cases h
  | INVALID | RANDOM | MAX =>
    simp only [halgo] at h
    cases h

/-! ## Runs -/

/-- What a market update made the strategy send. -/
structure Caused (S : Setup F) (e₁ : TradeEngine F) (u : MEMarketUpdate) (e₂ : TradeEngine F)
    (r : MEClientRequest) : Prop where
  ticker_id : u.ticker_id_ < ME_MAX_TICKERS
  /-- The best prices after the update ask for it. -/
  sends : ∃ w side, side.IsTrading ∧
    targets S u (e₂.ticker_order_book_ u.ticker_id_).bbo_ = some w ∧
    MoveSends S.toArith (e₂.risk S u.ticker_id_) e₁.order_manager_ u.ticker_id_ (w.price side) side
      (S.ticker_cfg u.ticker_id_).clip_ r
  /-- A new order is at the touch. -/
  touch : r.type_ = .NEW → (e₂.ticker_order_book_ u.ticker_id_).bbo_.IsValid ∧
    AtTouch S u (e₂.ticker_order_book_ u.ticker_id_).bbo_ r.side_ r.price_

/-- What a market update adds to the requests sent: two at most, one for each side. -/
theorem sent_onMarketUpdate (h : e.onMarketUpdate S u = .ok e') : ∃ requests,
    e'.order_manager_.sent = e.order_manager_.sent ++ requests ∧ requests.length ≤ 2 ∧
    ∀ r ∈ requests, Caused S e u e' r := by
  have ht := (onMarketUpdate_spec h).ticker_id
  have horders := onMarketUpdate_targets h
  cases hwanted : targets S u (e'.ticker_order_book_ u.ticker_id_).bbo_ with
  | none =>
    simp only [hwanted] at horders
    rw [horders]
    exact ⟨[], (List.append_nil _).symm, by simp, fun _ hr => absurd hr List.not_mem_nil⟩
  | some w =>
    simp only [hwanted] at horders
    obtain ⟨bids, asks, hsent, hbid, hask, hbuy, hsell⟩ := OrderManager.sent_moveBoth
      S.toArith (e'.risk S u.ticker_id_) e.order_manager_ u.ticker_id_
      (S.ticker_cfg u.ticker_id_).clip_ w
    have hcaused : ∀ side r, side.IsTrading → MoveSends S.toArith (e'.risk S u.ticker_id_)
        e.order_manager_ u.ticker_id_ (w.price side) side (S.ticker_cfg u.ticker_id_).clip_ r →
        Caused S e u e' r := by
      intro side r hside hsends
      refine ⟨ht, ⟨w, side, hside, hwanted, hsends⟩, fun hnew => ?_⟩
      cases hsends with
      | new order_id hfree hprice hallowed => exact atTouch_of_targets hwanted hprice
      | cancel hlive hmoved => cases hnew
    refine ⟨bids ++ asks, ?_, ?_, fun r hr => ?_⟩
    · rw [horders]
      exact hsent
    · rw [List.length_append]
      omega
    · rcases List.mem_append.mp hr with hr | hr
      · exact hcaused .BUY r (.inl rfl) (hbuy r hr)
      · exact hcaused .SELL r (.inr rfl) (hsell r hr)

/-- A client response sends nothing. -/
theorem sent_onOrderUpdate {r : MEClientResponse} (h : e.onOrderUpdate S r = .ok e') :
    e'.order_manager_.sent = e.order_manager_.sent := by
  have horders := (onOrderUpdate_spec h).orders
  unfold algoOnOrderUpdate at horders
  split at horders
  · rw [OrderManager.onOrderUpdate_eq horders]
    rfl
  · rw [OrderManager.onOrderUpdate_eq horders]
    rfl
  · exact congrArg OrderManager.sent (Except.ok.inj horders).symm

theorem step_booked {client_id : ℕ} {event : Event} (hbooked : e.order_manager_.Booked client_id)
    (h : e.step S event = .ok e') : e'.order_manager_.Booked client_id := by
  rcases step_orders h with horders | ⟨_, _, _, _, horders⟩ | ⟨r, _, horders⟩
  · rw [horders]
    exact hbooked
  · rw [horders]
    exact hbooked.moveOrder.moveOrder
  · rw [horders]
    exact hbooked.onOrderUpdate r

theorem run_booked {events : List Event} (h : (new S).run S events = .ok e) :
    e.order_manager_.Booked S.client_id_ :=
  Lib.Runs.invariant_of_step (I := fun e : TradeEngine F => e.order_manager_.Booked S.client_id_)
    (fun _ _ _ hI hs => step_booked hI hs) (OrderManager.booked_new S.client_id_) h

/-- A cancellation is of an order among the requests `before`, unless the exchange has answered for
an order that was never sent. -/
def Cancels (before : List MEClientRequest) (r : MEClientRequest) : Prop :=
  (∃ r' ∈ before, r'.type_ = .NEW ∧ r = { r' with type_ := .CANCEL, qty_ := r.qty_ }) ∨
  r.order_id_ = OrderId_INVALID

theorem Caused.client_id {e₁ e₂ : TradeEngine F} {client_id : ℕ} {r : MEClientRequest}
    (h : Caused S e₁ u e₂ r) (hbooked : e₁.order_manager_.Booked client_id) :
    r.client_id_ = client_id := by
  obtain ⟨w, side, _, _, hsends⟩ := h.sends
  cases hsends with
  | new order_id hfree hprice hallowed => exact hbooked.client_id
  | cancel hlive hmoved => exact hbooked.client_id

theorem Caused.cancels {e₁ e₂ : TradeEngine F} {client_id : ℕ} {r : MEClientRequest}
    (h : Caused S e₁ u e₂ r) (hbooked : e₁.order_manager_.Booked client_id)
    (hclient : ∀ r' ∈ e₁.order_manager_.sent, r'.client_id_ = client_id)
    (hcancel : r.type_ = .CANCEL) : Cancels e₁.order_manager_.sent r := by
  obtain ⟨w, side, _, _, hsends⟩ := h.sends
  cases hsends with
  | new order_id hfree hprice hallowed => cases hcancel
  | cancel hlive hmoved =>
    rcases hbooked.orders u.ticker_id_ side with ⟨r', hr', hnew, hticker, hid, hside, hprice⟩ | hid
    · refine .inl ⟨r', hr', hnew, ?_⟩
      simp only [OMOrder.cancelRequest, OMOrder.newRequest, hbooked.client_id, hclient r' hr',
        hticker, hid, hside, hprice]
    · exact .inr hid

/-- A request that is there after a run was sent by one of its market updates. -/
theorem exists_caused {events : List Event} (h : (new S).run S events = .ok e) {i : ℕ}
    {r : MEClientRequest} (hr : e.order_manager_.sent[i]? = some r) :
    ∃ before u after e₁ e₂, events = before ++ .update u :: after ∧
      (new S).run S before = .ok e₁ ∧ e₁.onMarketUpdate S u = .ok e₂ ∧
      e₁.order_manager_.sent.length ≤ i ∧ i < e₂.order_manager_.sent.length ∧
      e₂.order_manager_.sent.length ≤ e₁.order_manager_.sent.length + 2 ∧ Caused S e₁ u e₂ r := by
  obtain ⟨before, event, after, e₁, e₂, hevents, hbefore, hstep, hnot, hthere⟩ :=
    Lib.Runs.exists_turning_step (Q := fun e : TradeEngine F => e.order_manager_.sent[i]? = some r)
      (by simp [new, OrderManager.new]) hr h
  cases event with
  | response response =>
    -- a response sends nothing
    rw [sent_onOrderUpdate hstep] at hthere
    exact absurd hthere hnot
  | update u =>
    obtain ⟨requests, hsent, htwo, hcaused⟩ := sent_onMarketUpdate hstep
    have hlater : e₁.order_manager_.sent.length ≤ i := by
      by_contra hlt
      rw [hsent, List.getElem?_append_left (by omega)] at hthere
      exact hnot hthere
    obtain ⟨hlt, hget⟩ := List.getElem?_eq_some_iff.mp hthere
    refine ⟨before, u, after, e₁, e₂, hevents, hbefore, hstep, hlater, hlt, ?_, ?_⟩
    · rw [hsent, List.length_append]
      omega
    · rw [hsent, List.getElem?_append_right hlater] at hthere
      exact hcaused r (List.mem_of_getElem? hthere)

theorem client_id_of_run {events : List Event} (h : (new S).run S events = .ok e) :
    ∀ r ∈ e.order_manager_.sent, r.client_id_ = S.client_id_ := by
  intro r hr
  obtain ⟨i, hi⟩ := List.mem_iff_getElem?.mp hr
  obtain ⟨before, u, after, e₁, e₂, _, hbefore, _, _, _, _, hcaused⟩ := exists_caused h hi
  exact hcaused.client_id (run_booked hbefore)

/-- The exchange accepts both quotes, and then the best bid moves up. -/
def requoted : List Event :=
  let accepted (id : ℕ) (side : Side) (price : ℤ) : Event := .response
    { type_ := .ACCEPTED, client_id_ := 1, ticker_id_ := 0, client_order_id_ := id,
      market_order_id_ := id, side_ := side, price_ := price, exec_qty_ := 0, leaves_qty_ := 10 }
  twoSided ++ [accepted 1 .BUY 100, accepted 2 .SELL 105, addUpdate 0 5 .BUY 102]

end TradeEngine

end TradingEcosystem
