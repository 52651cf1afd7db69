import TradingEcosystem.Trading.TradeEngine
import TradingEcosystem.Lib.Unwinding

/-!
# Ticker Isolation

What a trade engine does in one ticker depends on the messages of that ticker only, although the
features, the counter of order ids and the queue of requests are shared by all tickers.

- `TradeEngine.view` : what the engine holds and has sent for one ticker, up to order ids
- `step_view` : a message of the ticker changes the view as the view says
- `step_frame` : a message of another ticker leaves the view
- `isolated_run` : two runs
-/

namespace TradingEcosystem

open Lib.Unwinding

variable {F : Type}

/-! ## Up to order ids -/

/-- The order without its id. -/
def OMOrder.anonymous (o : OMOrder) : OMOrder := { o with order_id_ := OrderId_INVALID }

/-- The request without its order id. -/
def MEClientRequest.anonymous (r : MEClientRequest) : MEClientRequest :=
  { r with order_id_ := OrderId_INVALID }

/-- The requests for a ticker, without their order ids. -/
def requestsFor (ticker_id : ℕ) (requests : List MEClientRequest) : List MEClientRequest :=
  (requests.filter fun r => decide (r.ticker_id_ = ticker_id)).map MEClientRequest.anonymous

theorem requestsFor_append (t : ℕ) (requests more : List MEClientRequest) :
    requestsFor t (requests ++ more) = requestsFor t requests ++ requestsFor t more := by
  unfold requestsFor
  rw [List.filter_append, List.map_append]

/-- Requests that differ in their order ids only are the same in every list. -/
theorem requestsFor_singleton_congr {t : ℕ} {r r' : MEClientRequest}
    (h : r.anonymous = r'.anonymous) : requestsFor t [r] = requestsFor t [r'] := by
  obtain ⟨-, -, hticker, -⟩ := MEClientRequest.mk.inj h
  unfold requestsFor
  simp only [List.filter_singleton, hticker]
  cases decide (r'.ticker_id_ = t) with
  | true => exact congrArg ([·]) h
  | false => rfl

theorem requestsFor_singleton_of_ne {t : ℕ} {r : MEClientRequest} (h : r.ticker_id_ ≠ t) :
    requestsFor t [r] = [] := by
  unfold requestsFor
  rw [List.filter_cons_of_neg (by simpa using h)]
  rfl

/-! ## The order manager -/

namespace OrderManager

/-- What the order manager holds and has sent for a ticker. -/
structure View where
  client_id_ : ℕ
  orders : Side → OMOrder
  sent : List MEClientRequest

def view (m : OrderManager) (ticker_id : ℕ) : View where
  client_id_ := m.client_id_
  orders := fun s => (m.ticker_side_order_ ticker_id s).anonymous
  sent := requestsFor ticker_id m.sent

/-- Every order carries the ticker it is kept under, unless it was never sent. -/
def Labelled (m : OrderManager) : Prop :=
  ∀ t s, (m.ticker_side_order_ t s).ticker_id_ = t ∨
    (m.ticker_side_order_ t s).ticker_id_ = TickerId_INVALID

variable {N : Arith F} {risk : RiskInfo F} {m m' : OrderManager} {t t' : ℕ} {side : Side}
  {price : ℤ} {qty : ℕ}

theorem labelled_new (client_id : ℕ) : (new client_id).Labelled := fun _ _ => .inr rfl

theorem Labelled.setOrder {o : OMOrder} (h : m.Labelled)
    (ho : o.ticker_id_ = t ∨ o.ticker_id_ = TickerId_INVALID) : (m.setOrder t side o).Labelled := by
  intro t' s'
  by_cases hslot : t' = t ∧ s' = side
  · obtain ⟨rfl, rfl⟩ := hslot
    rw [order_setOrder_self]
    exact ho
  · rw [order_setOrder_of_ne hslot]
    exact h t' s'

theorem Labelled.sendClientRequest (h : m.Labelled) (r : MEClientRequest) :
    (m.sendClientRequest r).Labelled := h

theorem view_setOrder {o o' : OMOrder} (h : m.view t = m'.view t)
    (ho : o.anonymous = o'.anonymous) :
    (m.setOrder t side o).view t = (m'.setOrder t side o').view t := by
  have horders : (fun s => ((m.setOrder t side o).ticker_side_order_ t s).anonymous) =
      fun s => ((m'.setOrder t side o').ticker_side_order_ t s).anonymous := by
    funext s
    by_cases hs : s = side
    · subst hs
      rw [order_setOrder_self, order_setOrder_self]
      exact ho
    · rw [order_setOrder_of_ne (fun hslot => hs hslot.2),
        order_setOrder_of_ne (fun hslot => hs hslot.2)]
      exact congrFun (congrArg View.orders h) s
  have hclient : m.client_id_ = m'.client_id_ := congrArg View.client_id_ h
  have hsent : requestsFor t m.sent = requestsFor t m'.sent := congrArg View.sent h
  unfold view
  rw [horders]
  simp only [client_id_setOrder, sent_setOrder, hclient, hsent]

theorem view_sendClientRequest {r r' : MEClientRequest} (h : m.view t = m'.view t)
    (hr : r.anonymous = r'.anonymous) :
    (m.sendClientRequest r).view t = (m'.sendClientRequest r').view t := by
  have horders := congrArg View.orders h
  have hclient : m.client_id_ = m'.client_id_ := congrArg View.client_id_ h
  have hsent : requestsFor t m.sent = requestsFor t m'.sent := congrArg View.sent h
  simp only [view, sendClientRequest, requestsFor_append, hclient, hsent,
    requestsFor_singleton_congr hr] at horders ⊢
  rw [horders]

/-- The part of an order that a move reads is in the view. -/
theorem anonymous_order (h : m.view t = m'.view t) (s : Side) :
    (m.ticker_side_order_ t s).anonymous = (m'.ticker_side_order_ t s).anonymous :=
  congrFun (congrArg View.orders h) s

theorem view_newOrder (h : m.view t = m'.view t) :
    (m.newOrder t price side qty).view t = (m'.newOrder t price side qty).view t := by
  have hclient : m.client_id_ = m'.client_id_ := congrArg View.client_id_ h
  refine view_setOrder (view_sendClientRequest h ?_) rfl
  unfold OMOrder.newRequest MEClientRequest.anonymous
  rw [hclient]

theorem view_cancelOrder (h : m.view t = m'.view t) :
    (m.cancelOrder t side).view t = (m'.cancelOrder t side).view t := by
  have hclient : m.client_id_ = m'.client_id_ := congrArg View.client_id_ h
  have horder := anonymous_order h side
  have hrequest : ∀ (client_id : ℕ) (o : OMOrder),
      (o.cancelRequest client_id).anonymous = (o.anonymous.cancelRequest client_id).anonymous :=
    fun _ _ => rfl
  have hpending : ∀ o : OMOrder, ({ o with order_state_ := .PENDING_CANCEL } : OMOrder).anonymous =
      { o.anonymous with order_state_ := .PENDING_CANCEL } := fun _ => rfl
  apply view_setOrder (view_sendClientRequest h ?_) ?_
  · rw [hrequest, horder, hclient]
    exact (hrequest _ _).symm
  · rw [hpending, horder]
    rfl

/-- **A move is decided by the view.** -/
theorem view_moveOrder (h : m.view t = m'.view t) :
    (m.moveOrder N risk t price side qty).view t = (m'.moveOrder N risk t price side qty).view t := by
  have horder := anonymous_order h side
  obtain ⟨-, -, -, hprice, -, hstate⟩ := OMOrder.mk.inj horder
  have hnew : (if price ≠ Price_INVALID ∧ risk.checkPreTradeRisk N side qty = .ALLOWED then
        m.newOrder t price side qty else m).view t =
      (if price ≠ Price_INVALID ∧ risk.checkPreTradeRisk N side qty = .ALLOWED then
        m'.newOrder t price side qty else m').view t := by
    split
    · exact view_newOrder h
    · exact h
  unfold moveOrder
  simp only [hstate, hprice]
  cases (m'.ticker_side_order_ t side).order_state_ with
  | INVALID => exact hnew
  | DEAD => exact hnew
  | PENDING_NEW => exact h
  | PENDING_CANCEL => exact h
  | LIVE =>
    simp only
    split
    · exact view_cancelOrder h
    · exact h

/-- The view after a move of both orders, or the fault. -/
theorem view_moveOrders {bid_price ask_price : ℤ} {clip : ℕ} (h : m.view t = m'.view t) :
    (m.moveOrders N risk t bid_price ask_price clip).map (·.view t) =
      (m'.moveOrders N risk t bid_price ask_price clip).map (·.view t) := by
  unfold moveOrders
  split
  · exact congrArg Except.ok (view_moveOrder (view_moveOrder h))
  · rfl

theorem view_onOrderUpdate {r : MEClientResponse} (ht : r.ticker_id_ = t)
    (h : m.view t = m'.view t) :
    (m.onOrderUpdate r).map (·.view t) = (m'.onOrderUpdate r).map (·.view t) := by
  subst ht
  have hupdated : ∀ o : OMOrder, (updated o r).anonymous = updated o.anonymous r := by
    intro o
    unfold updated
    cases r.type_ with
    | FILLED =>
      simp only
      split
      · rfl
      · rfl
    | ACCEPTED => rfl
    | CANCELED => rfl
    | CANCEL_REJECTED => rfl
    | INVALID => rfl
  unfold onOrderUpdate
  split
  · refine congrArg Except.ok (view_setOrder h ?_)
    rw [hupdated, hupdated, anonymous_order h]
  · rfl

/-! ### Other tickers -/

/-- Writing to the orders of a ticker leaves the view of another one. -/
theorem view_setOrder_of_ne {o : OMOrder} (ht : t' ≠ t) :
    (m.setOrder t' side o).view t = m.view t := by
  unfold view
  have horders : (fun s => ((m.setOrder t' side o).ticker_side_order_ t s).anonymous) =
      fun s => (m.ticker_side_order_ t s).anonymous := by
    funext s
    rw [order_setOrder_of_ne fun hslot => ht hslot.1.symm]
  rw [horders]
  rfl

theorem view_sendClientRequest_of_ne {r : MEClientRequest} (hr : r.ticker_id_ ≠ t) :
    (m.sendClientRequest r).view t = m.view t := by
  simp only [view, sendClientRequest, requestsFor_append, requestsFor_singleton_of_ne hr,
    List.append_nil]

theorem Labelled.moveOrder (h : m.Labelled) (t : ℕ) : (m.moveOrder N risk t price side qty).Labelled := by
  have houtcome := moveOrder_outcome N risk m t price side qty
  generalize m.moveOrder N risk t price side qty = moved at houtcome ⊢
  cases houtcome with
  | kept => exact h
  | sent _ _ => exact (h.sendClientRequest _).setOrder (.inl rfl)
  | canceled _ => exact (h.sendClientRequest _).setOrder (h t side)

theorem view_moveOrder_of_ne (h : m.Labelled) (ht : t' ≠ t) (htick : t < ME_MAX_TICKERS) :
    (m.moveOrder N risk t' price side qty).view t = m.view t := by
  have houtcome := moveOrder_outcome N risk m t' price side qty
  generalize m.moveOrder N risk t' price side qty = moved at houtcome ⊢
  cases houtcome with
  | kept => rfl
  | sent _ _ =>
    have hsend := view_sendClientRequest_of_ne (m := m) (t := t)
      (r := OMOrder.newRequest m.client_id_
        { ticker_id_ := t', order_id_ := m.next_order_id_, side_ := side, price_ := price,
          qty_ := qty, order_state_ := .PENDING_NEW }) ht
    exact (view_setOrder_of_ne ht).trans hsend
  | canceled _ =>
    have hticker : ((m.ticker_side_order_ t' side).cancelRequest m.client_id_).ticker_id_ ≠ t := by
      rcases h t' side with hlabel | hlabel
      · exact fun heq => ht (hlabel.symm.trans heq)
      · intro heq
        -- a request for no ticker is not one for `t`
        have hinvalid : TickerId_INVALID = t := hlabel.symm.trans heq
        rw [← hinvalid] at htick
        exact absurd htick (by decide)
    exact (view_setOrder_of_ne ht).trans (view_sendClientRequest_of_ne hticker)

/-! ### What is sent -/

theorem sent_moveOrder : m.sent <+: (m.moveOrder N risk t price side qty).sent := by
  have houtcome := moveOrder_outcome N risk m t price side qty
  generalize m.moveOrder N risk t price side qty = moved at houtcome ⊢
  cases houtcome with
  | kept => exact List.prefix_refl _
  | sent _ _ => exact List.prefix_append ..
  | canceled _ => exact List.prefix_append ..

theorem requestsFor_prefix {requests more : List MEClientRequest} (h : requests <+: more) :
    requestsFor t requests <+: requestsFor t more := by
  obtain ⟨rest, rfl⟩ := h
  rw [requestsFor_append]
  exact List.prefix_append ..

end OrderManager

/-! ## The engine -/

namespace TradeEngine

def Event.ticker_id : Event → ℕ
  | .response r => r.ticker_id_
  | .update u => u.ticker_id_

/-- The messages for a ticker. -/
def eventsFor (ticker_id : ℕ) (events : List Event) : List Event :=
  events.filter fun event => decide (event.ticker_id = ticker_id)

/-- What the engine holds and has sent for one ticker. -/
structure View (F : Type) where
  orders : OrderManager.View
  position : PositionInfo F
  book : MarketOrderBook

def view (e : TradeEngine F) (ticker_id : ℕ) : View F where
  orders := e.order_manager_.view ticker_id
  position := e.position_keeper_ ticker_id
  book := e.ticker_order_book_ ticker_id

variable {S : Setup F} {e e' : TradeEngine F} {t : ℕ}

theorem view_eq_iff : e.view t = e'.view t ↔
    e.order_manager_.view t = e'.order_manager_.view t ∧
      e.position_keeper_ t = e'.position_keeper_ t ∧
      e.ticker_order_book_ t = e'.ticker_order_book_ t := by
  unfold view
  rw [View.mk.injEq]

/-! ### The shared features -/

/-- The market maker reads the fair price only where it was just computed from the same prices. -/
theorem maker_congr {N : Arith F} {cfg : TradeEngineCfg F} {risk : RiskInfo F}
    {m m' : OrderManager} {bbo : BBO} (f f' : FeatureEngine F) (h : m.view t = m'.view t) :
    (MarketMaker.onOrderBookUpdate N cfg risk (f.onOrderBookUpdate N bbo) m t bbo).map (·.view t) =
      (MarketMaker.onOrderBookUpdate N cfg risk (f'.onOrderBookUpdate N bbo) m' t bbo).map
        (·.view t) := by
  unfold MarketMaker.onOrderBookUpdate
  by_cases hvalid : bbo.IsValid
  · simp only [FeatureEngine.onOrderBookUpdate, if_pos hvalid]
    split
    · exact OrderManager.view_moveOrders h
    · exact congrArg Except.ok h
  · simp only [hvalid, false_and, if_false]
    exact congrArg Except.ok h

/-- The liquidity taker reads the trade ratio only where it was just computed. -/
theorem taker_congr {N : Arith F} {cfg : TradeEngineCfg F} {risk : RiskInfo F}
    {m m' : OrderManager} {u : MEMarketUpdate} {bbo : BBO} (f f' : FeatureEngine F)
    (hu : u.ticker_id_ = t) (h : m.view t = m'.view t) :
    (LiquidityTaker.onTradeUpdate N cfg risk (f.onTradeUpdate N u bbo) m u bbo).map (·.view t) =
      (LiquidityTaker.onTradeUpdate N cfg risk (f'.onTradeUpdate N u bbo) m' u bbo).map
        (·.view t) := by
  subst hu
  unfold LiquidityTaker.onTradeUpdate
  by_cases hvalid : bbo.IsValid
  · simp only [FeatureEngine.onTradeUpdate, if_pos hvalid]
    split
    · split
      · exact OrderManager.view_moveOrders h
      · exact OrderManager.view_moveOrders h
    · exact congrArg Except.ok h
  · simp only [hvalid, false_and, if_false]
    exact congrArg Except.ok h

/-! ### One message -/

/-- The order manager's answer is put into two engines that agree. -/
theorem view_bind_orders {x y : Except Fault OrderManager} (h : e.view t = e'.view t)
    (horders : x.map (·.view t) = y.map (·.view t)) :
    (x >>= fun m => .ok { e with order_manager_ := m }).map (·.view t) =
      (y >>= fun m => .ok { e' with order_manager_ := m }).map (·.view t) := by
  obtain ⟨-, hposition, hbook⟩ := view_eq_iff.mp h
  refine map_bind_congr horders fun m m' hm => ?_
  exact congrArg Except.ok (view_eq_iff.mpr ⟨hm, hposition, hbook⟩)

theorem view_setBook {book : MarketOrderBook} (h : e.view t = e'.view t) :
    (e.setBook t book).view t = (e'.setBook t book).view t := by
  obtain ⟨horders, hposition, -⟩ := view_eq_iff.mp h
  refine view_eq_iff.mpr ⟨horders, hposition, ?_⟩
  simp only [setBook, Function.update_self]

/-- A trade; the feature of the two engines may differ before it. -/
theorem view_onTradeUpdate {u : MEMarketUpdate} {bbo : BBO} (ht : u.ticker_id_ = t)
    (h : e.view t = e'.view t) :
    (e.onTradeUpdate S u bbo).map (·.view t) = (e'.onTradeUpdate S u bbo).map (·.view t) := by
  obtain ⟨horders, hposition, hbook⟩ := view_eq_iff.mp h
  have hfeature : ({ e with feature_engine_ :=
        e.feature_engine_.onTradeUpdate S.toArith u bbo } : TradeEngine F).view t =
      ({ e' with feature_engine_ :=
        e'.feature_engine_.onTradeUpdate S.toArith u bbo } : TradeEngine F).view t := h
  refine view_bind_orders hfeature ?_
  unfold algoOnTradeUpdate
  split
  · subst ht
    simp only [risk, hposition]
    exact taker_congr _ _ rfl horders
  · exact congrArg Except.ok horders

/-- A change of the book. -/
theorem view_onOrderBookUpdate {bbo : BBO} (h : e.view t = e'.view t) :
    (e.onOrderBookUpdate S t bbo).map (·.view t) = (e'.onOrderBookUpdate S t bbo).map (·.view t) := by
  obtain ⟨horders, hposition, hbook⟩ := view_eq_iff.mp h
  have hupdated : ∀ e : TradeEngine F, ({ e with
      position_keeper_ := Function.update e.position_keeper_ t
        ((e.position_keeper_ t).updateBBO S.toArith bbo)
      feature_engine_ := e.feature_engine_.onOrderBookUpdate S.toArith bbo } : TradeEngine F).view t =
      ⟨e.order_manager_.view t, (e.position_keeper_ t).updateBBO S.toArith bbo,
        e.ticker_order_book_ t⟩ := by
    intro e
    simp only [view, Function.update_self]
  have hviews := (hupdated e).trans (Eq.trans (by rw [horders, hposition, hbook])
    (hupdated e').symm)
  unfold onOrderBookUpdate
  split
  · refine view_bind_orders hviews ?_
    unfold algoOnOrderBookUpdate
    split
    · simp only [risk, Function.update_self, hposition]
      exact maker_congr _ _ horders
    · exact congrArg Except.ok horders
  · rfl

theorem view_notify {u : MEMarketUpdate} {bbo : BBO} (ht : u.ticker_id_ = t)
    (h : e.view t = e'.view t) :
    (notify S bbo e (MarketOrderBook.notification u)).map (·.view t) =
      (notify S bbo e' (MarketOrderBook.notification u)).map (·.view t) := by
  unfold MarketOrderBook.notification
  split
  · exact view_onTradeUpdate ht h
  · subst ht
    exact view_onOrderBookUpdate h

/-- The strategy's answer to a response is decided by the view. -/
theorem view_algoOnOrderUpdate {r : MEClientResponse} (ht : r.ticker_id_ = t)
    (h : e.view t = e'.view t) :
    (e.algoOnOrderUpdate S r).map (·.view t) = (e'.algoOnOrderUpdate S r).map (·.view t) := by
  have horders := (view_eq_iff.mp h).1
  unfold algoOnOrderUpdate
  split
  · exact OrderManager.view_onOrderUpdate ht horders
  · exact OrderManager.view_onOrderUpdate ht horders
  · exact congrArg Except.ok horders

theorem view_keepFill {r : MEClientResponse} (ht : r.ticker_id_ = t) (h : e.view t = e'.view t) :
    (e.keepFill S r).map (·.view t) = (e'.keepFill S r).map (·.view t) := by
  subst ht
  obtain ⟨horders, hposition, hbook⟩ := view_eq_iff.mp h
  unfold keepFill
  split
  · split
    · refine congrArg Except.ok (view_eq_iff.mpr ⟨horders, ?_, hbook⟩)
      simp only [Function.update_self, hposition]
    · rfl
  · exact congrArg Except.ok h

/-- **A message for the ticker changes the view as the view says**, or stops both engines. -/
theorem step_view {event : Event} (ht : event.ticker_id = t) (h : e.view t = e'.view t) :
    (e.step S event).map (·.view t) = (e'.step S event).map (·.view t) := by
  cases event with
  | update u =>
    have hu : u.ticker_id_ = t := ht
    subst hu
    obtain ⟨-, -, hbook⟩ := view_eq_iff.mp h
    by_cases htick : u.ticker_id_ < ME_MAX_TICKERS
    · simp only [step, onMarketUpdate_eq htick, hbook]
      cases (e'.ticker_order_book_ u.ticker_id_).onMarketUpdate u with
      | error fault => rfl
      | ok book => exact view_notify rfl (view_setBook h)
    · simp only [step, onMarketUpdate, if_neg htick]
  | response r =>
    refine map_bind_congr (view_keepFill ht h) fun e₁ e₂ h₁₂ => ?_
    exact view_bind_orders h₁₂ (view_algoOnOrderUpdate ht h₁₂)

/-- What a step does to the order manager. -/
theorem step_orders {event : Event} (h : e.step S event = .ok e') :
    e'.order_manager_ = e.order_manager_ ∨
      (∃ risk bid_price ask_price clip, e'.order_manager_ =
        (e.order_manager_.moveOrder S.toArith risk event.ticker_id bid_price .BUY clip).moveOrder
          S.toArith risk event.ticker_id ask_price .SELL clip) ∨
      ∃ r : MEClientResponse, r.ticker_id_ = event.ticker_id ∧
        e'.order_manager_ = e.order_manager_.setOrder r.ticker_id_ r.side_
          (OrderManager.updated (e.order_manager_.ticker_side_order_ r.ticker_id_ r.side_) r) := by
  cases event with
  | update u =>
    rcases (onMarketUpdate_spec h).orders with horders | ⟨bid_price, ask_price, horders⟩
    · exact .inl horders
    · exact .inr (.inl ⟨_, bid_price, ask_price, _, (OrderManager.moveOrders_eq horders).2⟩)
  | response r =>
    have horders := (onOrderUpdate_spec h).orders
    unfold algoOnOrderUpdate at horders
    split at horders
    · exact .inr (.inr ⟨r, rfl, OrderManager.onOrderUpdate_eq horders⟩)
    · exact .inr (.inr ⟨r, rfl, OrderManager.onOrderUpdate_eq horders⟩)
    · exact .inl (Except.ok.inj horders).symm

theorem step_labelled {event : Event} (hlabel : e.order_manager_.Labelled)
    (h : e.step S event = .ok e') : e'.order_manager_.Labelled := by
  rcases step_orders h with horders | ⟨_, _, _, _, horders⟩ | ⟨r, _, horders⟩
  · rw [horders]
    exact hlabel
  · rw [horders]
    exact (hlabel.moveOrder _).moveOrder _
  · rw [horders]
    refine hlabel.setOrder ?_
    rw [OrderManager.ticker_id_updated]
    exact hlabel _ _

/-- Requests are never taken back. -/
theorem step_sent {event : Event} (h : e.step S event = .ok e') :
    (e.view t).orders.sent <+: (e'.view t).orders.sent := by
  apply OrderManager.requestsFor_prefix
  rcases step_orders h with horders | ⟨_, _, _, _, horders⟩ | ⟨r, _, horders⟩
  · rw [horders]
  · rw [horders]
    exact OrderManager.sent_moveOrder.trans OrderManager.sent_moveOrder
  · rw [horders]
    exact List.prefix_refl _

/-- **A message for another ticker leaves the view.** -/
theorem step_frame {event : Event} (hlabel : e.order_manager_.Labelled)
    (htick : t < ME_MAX_TICKERS) (ht : event.ticker_id ≠ t) (h : e.step S event = .ok e') :
    e'.view t = e.view t := by
  have horders : e'.order_manager_.view t = e.order_manager_.view t := by
    rcases step_orders h with horders | ⟨_, _, _, _, horders⟩ | ⟨r, hr, horders⟩
    · rw [horders]
    · rw [horders]
      exact (OrderManager.view_moveOrder_of_ne (hlabel.moveOrder _) ht htick).trans
        (OrderManager.view_moveOrder_of_ne hlabel ht htick)
    · rw [horders]
      exact OrderManager.view_setOrder_of_ne (hr.trans_ne ht)
  cases event with
  | update u =>
    have hupdated := onMarketUpdate_spec h
    exact view_eq_iff.mpr ⟨horders, hupdated.position t (Ne.symm ht), hupdated.book t (Ne.symm ht)⟩
  | response r =>
    have hanswered := onOrderUpdate_spec h
    refine view_eq_iff.mpr ⟨horders, ?_, congrFun hanswered.book t⟩
    rw [hanswered.position]
    split
    · exact Function.update_of_ne (Ne.symm ht) ..
    · rfl

/-! ### Runs -/

/-- A ticker is an observer that the other tickers do not disturb. -/
theorem isolated (S : Setup F) (htick : t < ME_MAX_TICKERS) :
    Isolated (step S) (fun e => e.view t) (fun event => decide (event.ticker_id = t))
      (fun e => e.order_manager_.Labelled) where
  invariant := fun _ _ _ hlabel h => step_labelled hlabel h
  decided := fun _ _ _ hx h => step_view (of_decide_eq_true hx) h
  frame := fun _ _ _ hlabel hx h => step_frame hlabel htick (of_decide_eq_false hx) h

/-- **Ticker isolation**: after two runs with the same messages for a ticker, the orders, the
position, the book and the requests of the ticker are the same, up to order ids.  When a fault
stopped one of them early, one has sent for the ticker what the other has, and perhaps more. -/
theorem isolated_run (S : Setup F) (htick : t < ME_MAX_TICKERS) {events events' : List Event}
    (h : eventsFor t events = eventsFor t events') :
    (∀ e e', (new S).run S events = .ok e → (new S).run S events' = .ok e' →
      e.view t = e'.view t) ∧
    (((lastState (step S) (new S) events).view t).orders.sent <+:
        ((lastState (step S) (new S) events').view t).orders.sent ∨
      ((lastState (step S) (new S) events').view t).orders.sent <+:
        ((lastState (step S) (new S) events).view t).orders.sent) := by
  have hnew : (new S).order_manager_.Labelled := OrderManager.labelled_new S.client_id_
  constructor
  · intro e e' he he'
    exact (isolated S htick).view_eq hnew h he he'
  · exact (isolated S htick).isPrefix_or_isPrefix (fun v => v.orders.sent)
      (fun _ _ _ hstep => step_sent hstep) hnew h

theorem isolated_run_twoSided :
    ((new makerSetup).run makerSetup twoSided).isOk = true ∧
      ((new makerSetup).run makerSetup (addUpdate 3 1 .BUY 50 :: twoSided)).isOk = true ∧
      (∀ e e', (new makerSetup).run makerSetup twoSided = .ok e →
        (new makerSetup).run makerSetup (addUpdate 3 1 .BUY 50 :: twoSided) = .ok e' →
        e.view 0 = e'.view 0) := by
  refine ⟨?_, ?_, ?_⟩
  · decide +kernel
  · decide +kernel
  · have hsame : eventsFor 0 twoSided = eventsFor 0 (addUpdate 3 1 .BUY 50 :: twoSided) := rfl
    exact (isolated_run makerSetup (by decide) hsame).1

/-- An update for an unknown ticker stops the engine before it quotes. -/
theorem not_isolated_unknownTicker :
    eventsFor 0 (addUpdate 8 1 .BUY 50 :: twoSided) = eventsFor 0 twoSided ∧
      ((lastState (step makerSetup) (new makerSetup)
          (addUpdate 8 1 .BUY 50 :: twoSided)).view 0).orders.sent ≠
        ((lastState (step makerSetup) (new makerSetup) twoSided).view 0).orders.sent := by
  constructor
  · rfl
  · decide +kernel

end TradeEngine

end TradingEcosystem
