import TradingEcosystem.Trading.OrderManager

/-!
# The Trade Engine

`trading/strategy/trade_engine.{h,cpp}` with the feature engine and the two strategies: market
updates go to the book of their ticker, which calls back; the callbacks recompute a feature and
let the strategy move its orders.

- `FeatureEngine` : the two features, shared by all tickers
- `MarketMaker.onOrderBookUpdate`, `LiquidityTaker.onTradeUpdate` : the strategies
- `TradeEngine.step` : one client response or one market update
-/

namespace TradingEcosystem

inductive AlgoType where
  | INVALID
  | RANDOM
  | MAKER
  | TAKER
  | MAX
  deriving DecidableEq, Repr

variable {F : Type}

/-- Both best prices are there. -/
def BBO.IsValid (bbo : BBO) : Prop :=
  bbo.bid_price_ ≠ Price_INVALID ∧ bbo.ask_price_ ≠ Price_INVALID

instance (bbo : BBO) : Decidable bbo.IsValid := inferInstanceAs (Decidable (_ ∧ _))

/-! ## Features -/

structure FeatureEngine (F : Type) where
  mkt_price_ : F
  agg_trade_qty_ratio_ : F

namespace FeatureEngine

def new (N : Arith F) : FeatureEngine F := ⟨N.Feature_INVALID, N.Feature_INVALID⟩

/-- The fair price: the best prices weighted by the quantity on the other side. -/
def mktPrice (N : Arith F) (bbo : BBO) : F :=
  N.div
    (N.ofInt (N.int64 (N.int64 (bbo.bid_price_ * bbo.ask_qty_) +
      N.int64 (bbo.ask_price_ * bbo.bid_qty_))))
    (N.ofInt ((bbo.bid_qty_ + bbo.ask_qty_) % 2 ^ 32 : ℕ))

/-- Process a change in an order book. -/
def onOrderBookUpdate (N : Arith F) (f : FeatureEngine F) (bbo : BBO) : FeatureEngine F :=
  if bbo.IsValid then { f with mkt_price_ := mktPrice N bbo } else f

/-- The traded quantity against the quantity at the best price of the other side. -/
def aggTradeQtyRatio (N : Arith F) (market_update : MEMarketUpdate) (bbo : BBO) : F :=
  N.div (N.ofInt market_update.qty_)
    (N.ofInt (if market_update.side_ = .BUY then bbo.ask_qty_ else bbo.bid_qty_))

/-- Process a trade event. -/
def onTradeUpdate (N : Arith F) (f : FeatureEngine F) (market_update : MEMarketUpdate)
    (bbo : BBO) : FeatureEngine F :=
  if bbo.IsValid then
    { f with agg_trade_qty_ratio_ := aggTradeQtyRatio N market_update bbo }
  else f

end FeatureEngine

/-! ## Strategies -/

namespace MarketMaker

/-- Quote both sides around the best prices, one price off where the fair price is within the
threshold.  A comparison with the value that marks an unset feature is a `!=` of doubles. -/
def onOrderBookUpdate (N : Arith F) (cfg : TradeEngineCfg F) (risk : RiskInfo F)
    (f : FeatureEngine F) (m : OrderManager) (ticker_id : ℕ) (bbo : BBO) :
    Except Fault OrderManager :=
  let fair_price := f.mkt_price_
  if bbo.IsValid ∧ N.ne fair_price N.Feature_INVALID then
    -- one tick further off when the fair price is too close to the best price
    let bid_price := N.int64 (bbo.bid_price_ -
      if N.ge (N.sub fair_price (N.ofInt bbo.bid_price_)) cfg.threshold_ then 0 else 1)
    let ask_price := N.int64 (bbo.ask_price_ +
      if N.ge (N.sub (N.ofInt bbo.ask_price_) fair_price) cfg.threshold_ then 0 else 1)
    m.moveOrders N risk ticker_id bid_price ask_price cfg.clip_
  else
    .ok m

end MarketMaker

namespace LiquidityTaker

/-- Follow an aggressive trade that is large against the quantity it met. -/
def onTradeUpdate (N : Arith F) (cfg : TradeEngineCfg F) (risk : RiskInfo F)
    (f : FeatureEngine F) (m : OrderManager) (market_update : MEMarketUpdate) (bbo : BBO) :
    Except Fault OrderManager :=
  let agg_qty_ratio := f.agg_trade_qty_ratio_
  if bbo.IsValid ∧ N.ne agg_qty_ratio N.Feature_INVALID ∧ N.ge agg_qty_ratio cfg.threshold_ then
    -- the side that traded aggressively is followed, and a live order on the other one canceled
    if market_update.side_ = .BUY then
      m.moveOrders N risk market_update.ticker_id_ bbo.ask_price_ Price_INVALID cfg.clip_
    else
      m.moveOrders N risk market_update.ticker_id_ Price_INVALID bbo.bid_price_ cfg.clip_
  else
    .ok m

end LiquidityTaker

/-! ## The engine -/

/-- What a trade engine is built with. -/
structure Setup (F : Type) extends Arith F where
  client_id_ : ℕ
  algo_type : AlgoType
  /-- By ticker. -/
  ticker_cfg : ℕ → TradeEngineCfg F
  /-- What the memory of `open_vwap_` holds before the first fill, by ticker. -/
  open_vwap : ℕ → Side → F

/-- The strategies that trade. -/
def Setup.Trades (S : Setup F) : Prop := S.algo_type = .MAKER ∨ S.algo_type = .TAKER

structure TradeEngine (F : Type) where
  /-- By ticker. -/
  ticker_order_book_ : ℕ → MarketOrderBook
  feature_engine_ : FeatureEngine F
  /-- The position in each ticker. -/
  position_keeper_ : ℕ → PositionInfo F
  order_manager_ : OrderManager

namespace TradeEngine

/-- A message from one of the two incoming queues. -/
inductive Event where
  | response (client_response : MEClientResponse)
  | update (market_update : MEMarketUpdate)

def new (S : Setup F) : TradeEngine F where
  ticker_order_book_ := MarketOrderBook.new
  feature_engine_ := FeatureEngine.new S.toArith
  position_keeper_ := fun t => PositionInfo.new S.toArith (S.open_vwap t)
  order_manager_ := OrderManager.new S.client_id_

/-- What the risk manager reads for a ticker. -/
def risk (S : Setup F) (e : TradeEngine F) (ticker_id : ℕ) : RiskInfo F where
  position_info_ := e.position_keeper_ ticker_id
  risk_cfg_ := (S.ticker_cfg ticker_id).risk_cfg_

/-- The strategy's answer to a change of a book. -/
def algoOnOrderBookUpdate (S : Setup F) (e : TradeEngine F) (ticker_id : ℕ) (bbo : BBO) :
    Except Fault OrderManager :=
  match S.algo_type with
  | .MAKER =>
    MarketMaker.onOrderBookUpdate S.toArith (S.ticker_cfg ticker_id) (e.risk S ticker_id)
      e.feature_engine_ e.order_manager_ ticker_id bbo
  | _ => .ok e.order_manager_

/-- The strategy's answer to a trade. -/
def algoOnTradeUpdate (S : Setup F) (e : TradeEngine F) (market_update : MEMarketUpdate)
    (bbo : BBO) : Except Fault OrderManager :=
  match S.algo_type with
  | .TAKER =>
    LiquidityTaker.onTradeUpdate S.toArith (S.ticker_cfg market_update.ticker_id_)
      (e.risk S market_update.ticker_id_) e.feature_engine_ e.order_manager_ market_update bbo
  | _ => .ok e.order_manager_

/-- The strategy's answer to a client response. -/
def algoOnOrderUpdate (S : Setup F) (e : TradeEngine F) (client_response : MEClientResponse) :
    Except Fault OrderManager :=
  match S.algo_type with
  | .MAKER | .TAKER => e.order_manager_.onOrderUpdate client_response
  | _ => .ok e.order_manager_

/-- Process a change of a book. -/
def onOrderBookUpdate (S : Setup F) (e : TradeEngine F) (ticker_id : ℕ) (bbo : BBO) :
    Except Fault (TradeEngine F) :=
  if ticker_id < ME_MAX_TICKERS then do
    let e := { e with
      position_keeper_ := Function.update e.position_keeper_ ticker_id
        ((e.position_keeper_ ticker_id).updateBBO S.toArith bbo)
      feature_engine_ := e.feature_engine_.onOrderBookUpdate S.toArith bbo }
    let order_manager ← e.algoOnOrderBookUpdate S ticker_id bbo
    .ok { e with order_manager_ := order_manager }
  else
    .error .outOfRange

/-- Process a trade event. -/
def onTradeUpdate (S : Setup F) (e : TradeEngine F) (market_update : MEMarketUpdate) (bbo : BBO) :
    Except Fault (TradeEngine F) := do
  let e := { e with
    feature_engine_ := e.feature_engine_.onTradeUpdate S.toArith market_update bbo }
  let order_manager ← e.algoOnTradeUpdate S market_update bbo
  .ok { e with order_manager_ := order_manager }

/-- A call of a book to the engine; `bbo` is the book's. -/
def notify (S : Setup F) (bbo : BBO) (e : TradeEngine F) : Notification → Except Fault (TradeEngine F)
  | .onTradeUpdate market_update => e.onTradeUpdate S market_update bbo
  | .onOrderBookUpdate ticker_id _ _ => e.onOrderBookUpdate S ticker_id bbo

/-- The engine after a book changed. -/
def setBook (e : TradeEngine F) (ticker_id : ℕ) (book : MarketOrderBook) : TradeEngine F :=
  { e with ticker_order_book_ := Function.update e.ticker_order_book_ ticker_id book }

/-- A market update: the book of its ticker processes it, and its calls come back. -/
def onMarketUpdate (S : Setup F) (e : TradeEngine F) (market_update : MEMarketUpdate) :
    Except Fault (TradeEngine F) :=
  if market_update.ticker_id_ < ME_MAX_TICKERS then do
    -- the book calls the engine back while it processes the update
    let old := e.ticker_order_book_ market_update.ticker_id_
    let book ← old.onMarketUpdate market_update
    (book.notified.drop old.notified.length).foldlM (notify S book.bbo_)
      (e.setBook market_update.ticker_id_ book)
  else
    .error .assert

/-- The position keeper is told about the fills.  An index past the end of `open_vwap_` is
undefined, and would stop the order manager next. -/
def keepFill (S : Setup F) (e : TradeEngine F) (client_response : MEClientResponse) :
    Except Fault (TradeEngine F) :=
  if client_response.type_ = .FILLED then
    if client_response.ticker_id_ < ME_MAX_TICKERS ∧ client_response.side_.hasIndex then
      .ok { e with
        position_keeper_ := Function.update e.position_keeper_ client_response.ticker_id_
          ((e.position_keeper_ client_response.ticker_id_).addFill S.toArith client_response) }
    else .error .outOfRange
  else .ok e

/-- Process a client response. -/
def onOrderUpdate (S : Setup F) (e : TradeEngine F) (client_response : MEClientResponse) :
    Except Fault (TradeEngine F) := do
  let e ← e.keepFill S client_response
  let order_manager ← e.algoOnOrderUpdate S client_response
  .ok { e with order_manager_ := order_manager }

/-- One turn of one of the two loops of `run`. -/
def step (S : Setup F) (e : TradeEngine F) : Event → Except Fault (TradeEngine F)
  | .response client_response => e.onOrderUpdate S client_response
  | .update market_update => e.onMarketUpdate S market_update

def run (S : Setup F) (e : TradeEngine F) (events : List Event) : Except Fault (TradeEngine F) :=
  events.foldlM (step S) e

/-! ## What a step does -/

variable {S : Setup F} {e e' : TradeEngine F}

/-- The book makes one call, after it processed the update. -/
theorem onMarketUpdate_eq {u : MEMarketUpdate} (ht : u.ticker_id_ < ME_MAX_TICKERS) :
    e.onMarketUpdate S u = (e.ticker_order_book_ u.ticker_id_).onMarketUpdate u >>= fun book =>
      notify S book.bbo_ (e.setBook u.ticker_id_ book) (MarketOrderBook.notification u) := by
  simp only [onMarketUpdate, if_pos ht]
  cases hbook : (e.ticker_order_book_ u.ticker_id_).onMarketUpdate u with
  | error fault => rfl
  | ok book =>
    have hdrop : book.notified.drop (e.ticker_order_book_ u.ticker_id_).notified.length =
        [MarketOrderBook.notification u] := by
      rw [MarketOrderBook.notified_onMarketUpdate hbook, List.drop_left]
    rw [ok_bind, ok_bind, hdrop]
    exact bind_pure _

/-- The orders are left, or those of the ticker are moved. -/
def MovesOrders (S : Setup F) (e : TradeEngine F) (ticker_id : ℕ) (m : OrderManager) : Prop :=
  m = e.order_manager_ ∨ ∃ bid_price ask_price,
    e.order_manager_.moveOrders S.toArith (e.risk S ticker_id) ticker_id bid_price ask_price
      (S.ticker_cfg ticker_id).clip_ = .ok m

theorem algoOnOrderBookUpdate_moves {t : ℕ} {bbo : BBO} {m : OrderManager}
    (h : e.algoOnOrderBookUpdate S t bbo = .ok m) : MovesOrders S e t m := by
  unfold algoOnOrderBookUpdate at h
  split at h
  · unfold MarketMaker.onOrderBookUpdate at h
    simp only at h
    split at h
    · exact .inr ⟨_, _, h⟩
    · exact .inl (Except.ok.inj h).symm
  · exact .inl (Except.ok.inj h).symm

theorem algoOnTradeUpdate_moves {u : MEMarketUpdate} {bbo : BBO} {m : OrderManager}
    (h : e.algoOnTradeUpdate S u bbo = .ok m) : MovesOrders S e u.ticker_id_ m := by
  unfold algoOnTradeUpdate at h
  split at h
  · unfold LiquidityTaker.onTradeUpdate at h
    simp only at h
    split at h
    · split at h
      · exact .inr ⟨_, _, h⟩
      · exact .inr ⟨_, _, h⟩
    · exact .inl (Except.ok.inj h).symm
  · exact .inl (Except.ok.inj h).symm

/-- What a market update does: one book takes it, profits are revalued, and the strategy may move
the orders of its ticker. -/
structure Updated (S : Setup F) (e : TradeEngine F) (u : MEMarketUpdate) (e' : TradeEngine F) :
    Prop where
  ticker_id : u.ticker_id_ < ME_MAX_TICKERS
  book : ∀ t, t ≠ u.ticker_id_ → e'.ticker_order_book_ t = e.ticker_order_book_ t
  position : ∀ t, t ≠ u.ticker_id_ → e'.position_keeper_ t = e.position_keeper_ t
  /-- The size of a position is not touched. -/
  size : ∀ t, (e'.position_keeper_ t).position_ = (e.position_keeper_ t).position_
  orders : e'.order_manager_ = e.order_manager_ ∨ ∃ bid_price ask_price,
    e.order_manager_.moveOrders S.toArith (e'.risk S u.ticker_id_) u.ticker_id_ bid_price ask_price
      (S.ticker_cfg u.ticker_id_).clip_ = .ok e'.order_manager_

/-- **What a market update does.** -/
theorem onMarketUpdate_spec {u : MEMarketUpdate} (h : e.onMarketUpdate S u = .ok e') :
    Updated S e u e' := by
  by_cases ht : u.ticker_id_ < ME_MAX_TICKERS
  · rw [onMarketUpdate_eq ht] at h
    obtain ⟨book, _, h⟩ := bind_eq_ok.mp h
    have hbook : ∀ t, t ≠ u.ticker_id_ →
        (e.setBook u.ticker_id_ book).ticker_order_book_ t = e.ticker_order_book_ t :=
      fun t hne => Function.update_of_ne hne ..
    unfold MarketOrderBook.notification at h
    split at h
    · -- a trade: nothing but the feature comes before the strategy
      obtain ⟨m, halgo, h⟩ := bind_eq_ok.mp h
      obtain rfl := Except.ok.inj h
      have hmoves := algoOnTradeUpdate_moves halgo
      exact ⟨ht, hbook, fun _ _ => rfl, fun _ => rfl, hmoves⟩
    · simp only [notify, onOrderBookUpdate, if_pos ht] at h
      obtain ⟨m, halgo, h⟩ := bind_eq_ok.mp h
      obtain rfl := Except.ok.inj h
      have hmoves := algoOnOrderBookUpdate_moves halgo
      refine ⟨ht, hbook, fun t hne => Function.update_of_ne hne .., fun t => ?_, hmoves⟩
      by_cases hne : t = u.ticker_id_
      · subst hne
        simp only [Function.update_self, PositionInfo.position_updateBBO]
        rfl
      · simp only [Function.update_of_ne hne]
        rfl
  · unfold onMarketUpdate at h
    rw [if_neg ht] at h
    cases h

/-- What a client response does, when the strategy is the market maker or the liquidity taker. -/
structure Answered (S : Setup F) (e : TradeEngine F) (r : MEClientResponse) (e' : TradeEngine F) :
    Prop where
  book : e'.ticker_order_book_ = e.ticker_order_book_
  position : e'.position_keeper_ =
    if r.type_ = .FILLED then
      Function.update e.position_keeper_ r.ticker_id_
        ((e.position_keeper_ r.ticker_id_).addFill S.toArith r)
    else e.position_keeper_
  orders : e.algoOnOrderUpdate S r = .ok e'.order_manager_

theorem onOrderUpdate_spec {r : MEClientResponse} (h : e.onOrderUpdate S r = .ok e') :
    Answered S e r e' := by
  obtain ⟨e₁, hfill, h⟩ := bind_eq_ok.mp h
  obtain ⟨m, halgo, h⟩ := bind_eq_ok.mp h
  obtain rfl := Except.ok.inj h
  unfold keepFill at hfill
  split at hfill
  · next hfilled =>
    split at hfill
    · obtain rfl := Except.ok.inj hfill
      exact ⟨rfl, (if_pos hfilled).symm, halgo⟩
    · cases hfill
  · next hfilled =>
    obtain rfl := Except.ok.inj hfill
    exact ⟨rfl, (if_neg hfilled).symm, halgo⟩

/-- Of the strategies, these two pass the responses on. -/
theorem algoOnOrderUpdate_eq (htrades : S.Trades) (r : MEClientResponse) :
    e.algoOnOrderUpdate S r = e.order_manager_.onOrderUpdate r := by
  unfold algoOnOrderUpdate
  rcases htrades with h | h
  · rw [h]
  · rw [h]

/-! ## An engine to try out -/

/-- A market maker with the same limits in every ticker. -/
def makerSetup : Setup (Option ℚ) where
  toArith := Arith.exact
  client_id_ := 1
  algo_type := .MAKER
  ticker_cfg := fun _ =>
    { clip_ := 10
      threshold_ := some 0
      risk_cfg_ := { max_order_size_ := 50, max_position_ := 100, max_loss_ := some (-1000) } }
  open_vwap := fun _ _ => some 0

def added (ticker_id order_id : ℕ) (side : Side) (price : ℤ) : MEMarketUpdate where
  type_ := .ADD
  order_id_ := order_id
  ticker_id_ := ticker_id
  side_ := side
  price_ := price
  qty_ := 5
  priority_ := 1

def addUpdate (ticker_id order_id : ℕ) (side : Side) (price : ℤ) : Event :=
  .update (added ticker_id order_id side price)

/-- Two bids and two asks; the second of each sets the best price. -/
def twoSided : List Event :=
  [addUpdate 0 1 .BUY 99, addUpdate 0 2 .BUY 100, addUpdate 0 3 .SELL 106, addUpdate 0 4 .SELL 105]

end TradeEngine

end TradingEcosystem
