import TradingEcosystem.System.Slots
import TradingEcosystem.Trading.TradeEngine
import TradingEcosystem.Lib.Unwinding
import Mathlib.Logic.Relation

/-!
# The Position Limit

A trade engine and an exchange that answers its orders, joined by two channels.  The risk check is
made once, when an order is sent; fills arrive later and on both sides.

- `Desk.Step` : a market update, a response, or an answer of the exchange
- `Desk.Limited` : on each side, the position and what is still open stay within the limit
- `Desk.positionLimit` : every run
-/

namespace TradingEcosystem

open Link

variable {F : Type}

/-! ## The risk check -/

namespace RiskInfo

/-- The exact values of what `checkPreTradeRisk` computes or converts as `int32_t`; nothing of it
when the order is too large. -/
def int32Values (risk : RiskInfo F) (side : Side) (qty : ℕ) : List ℤ :=
  if qty > risk.risk_cfg_.max_order_size_ then
    []
  else
    let signed_qty := sideToValue side * qty
    let position := risk.position_info_.position_ + signed_qty
    [qty, risk.risk_cfg_.max_position_, signed_qty, position, |position|]

variable {N : Arith F} {risk : RiskInfo F} {side : Side} {qty : ℕ}

/-- Nothing overflows while the position is within a limit below `2 ^ 30`. -/
theorem fits_int32Values (qty : ℕ) (hside : side.IsTrading) (hposition : |risk.position_info_.position_| ≤
    risk.risk_cfg_.max_position_) (hmax : risk.risk_cfg_.max_position_ < 2 ^ 30)
    (hsize : risk.risk_cfg_.max_order_size_ < 2 ^ 30) :
    ∀ v ∈ risk.int32Values side qty, FitsInt32 v := by
  obtain ⟨hlow, hhigh⟩ := abs_le.mp hposition
  have hvalue : sideToValue side = 1 ∨ sideToValue side = -1 := by
    rcases hside with rfl | rfl
    · exact .inl rfl
    · exact .inr rfl
  unfold int32Values FitsInt32
  split
  · intro v hv
    cases hv
  · next hle =>
    simp only [List.mem_cons, List.not_mem_nil, or_false]
    intro v hv
    rcases hvalue with hvalue | hvalue
    · rw [hvalue] at hv
      rcases abs_cases (risk.position_info_.position_ + 1 * qty) with ⟨habs, _⟩ | ⟨habs, _⟩
      · omega
      · omega
    · rw [hvalue] at hv
      rcases abs_cases (risk.position_info_.position_ + -1 * qty) with ⟨habs, _⟩ | ⟨habs, _⟩
      · omega
      · omega

/-- **An order that is allowed fits within the limit.** -/
theorem le_of_allowed (hside : side.IsTrading) (hposition : |risk.position_info_.position_| ≤
    risk.risk_cfg_.max_position_) (hmax : risk.risk_cfg_.max_position_ < 2 ^ 30)
    (hsize : risk.risk_cfg_.max_order_size_ < 2 ^ 30)
    (hallowed : risk.checkPreTradeRisk N side qty = .ALLOWED) :
    sideToValue side * risk.position_info_.position_ + qty ≤ risk.risk_cfg_.max_position_ := by
  have hfits := fits_int32Values qty hside hposition hmax hsize
  unfold int32Values at hfits
  unfold checkPreTradeRisk signedQty at hallowed
  split at hallowed
  · cases hallowed
  · next hle =>
    rw [if_neg hle] at hfits
    simp only [List.forall_mem_cons] at hfits
    obtain ⟨hqty, hmax', hsigned, hsum, habs, _⟩ := hfits
    rw [toInt32_of_fits hqty, toInt32_of_fits hmax', N.int32_eq _ hsigned, N.int32_eq _ hsum,
      N.int32_eq _ habs] at hallowed
    split at hallowed
    · cases hallowed
    · next hlimit =>
      obtain ⟨_, hhigh⟩ := abs_le.mp (not_lt.mp hlimit)
      obtain ⟨hlow, _⟩ := abs_le.mp (not_lt.mp hlimit)
      rcases hside with rfl | rfl
      · simp only [sideToValue] at hhigh ⊢
        omega
      · simp only [sideToValue] at hlow ⊢
        omega

end RiskInfo

/-! ## What is open -/

/-- The quantity of a working order that is not filled yet, as its owner knows it. -/
def OMOrder.openQty (o : OMOrder) : ℕ :=
  match o.order_state_ with
  | .PENDING_NEW | .LIVE | .PENDING_CANCEL => o.qty_
  | .INVALID | .DEAD => 0

/-- A response takes from what is open at least what it says was executed. -/
theorem Phase.openQty_deliver {c : ℕ} {o : OMOrder} {news : List MEClientRequest}
    {r : MEClientResponse} {answers : List MEClientResponse} {left : ℕ → Option ℕ}
    (h : Phase c o news (r :: answers) left) :
    (OrderManager.updated o r).openQty + (if r.type_ = .FILLED then r.exec_qty_ else 0) ≤
      o.openQty := by
  obtain ⟨hcases, _⟩ := h.answer_cases
  rcases hcases with ⟨hstate, haccepted, _⟩ | ⟨hstate, htold⟩
  · -- what was asked for is what is open now
    rw [OrderManager.updated_of_accepted haccepted]
    unfold OMOrder.openQty
    rw [haccepted, hstate]
    exact Nat.le_refl _
  · have hopen : o.openQty = o.qty_ := by
      unfold OMOrder.openQty
      rcases hstate with hstate | hstate
      · rw [hstate]
      · rw [hstate]
    rcases htold with ⟨hcanceled, _⟩ | ⟨hfilled, _, hsum, _⟩
    · rw [OrderManager.updated_of_canceled hcanceled, hcanceled]
      exact Nat.zero_le _
    · rw [if_pos hfilled, hopen]
      by_cases hzero : r.leaves_qty_ = 0
      · rw [OrderManager.updated_of_filled hfilled hzero]
        simp only [OMOrder.openQty]
        omega
      · rw [OrderManager.updated_of_partly_filled hfilled hzero]
        unfold OMOrder.openQty
        rcases hstate with hstate | hstate
        · simp only [hstate]
          omega
        · simp only [hstate]
          omega

/-! ## The system -/

/-- A trade engine and what connects it to an exchange. -/
structure Desk (F : Type) where
  engine : TradeEngine F
  link : Link

namespace Desk

variable {S : Setup F}

def new (S : Setup F) : Desk F := ⟨TradeEngine.new S, Link.empty⟩

/-- One step of one of the parties. -/
inductive Step (S : Setup F) : Desk F → Desk F → Prop where
  /-- The engine processes a market update; what it sends goes into the channel. -/
  | update {x : Desk F} {u : MEMarketUpdate} {e' : TradeEngine F}
      (h : x.engine.onMarketUpdate S u = .ok e') :
      Step S x ⟨e', x.link.ask
        (e'.order_manager_.sent.drop x.engine.order_manager_.sent.length)⟩
  /-- The engine processes the next response. -/
  | deliver {x : Desk F} {r : MEClientResponse} {rest : List MEClientResponse}
      {e' : TradeEngine F} (hresponses : x.link.responses = r :: rest)
      (h : x.engine.onOrderUpdate S r = .ok e') :
      Step S x ⟨e', { x.link with responses := rest }⟩
  | exchange {x : Desk F} {k' : Link} (h : Link.Step x.link k') : Step S x ⟨x.engine, k'⟩

/-- The states of the runs. -/
def Reachable (S : Setup F) (x : Desk F) : Prop := Relation.ReflTransGen (Step S) (new S) x

/-- The limits of the configuration. -/
def Moderate (S : Setup F) : Prop :=
  ∀ t, t < ME_MAX_TICKERS → (S.ticker_cfg t).risk_cfg_.max_position_ < 2 ^ 30 ∧
    (S.ticker_cfg t).risk_cfg_.max_order_size_ < 2 ^ 30

/-- On each side, the position and what is open of the side's order stay within the limit. -/
def Limited (S : Setup F) (positions : ℕ → ℤ) (m : OrderManager) : Prop :=
  ∀ t s, t < ME_MAX_TICKERS → s.IsTrading →
    sideToValue s * positions t + (m.ticker_side_order_ t s).openQty ≤
      (S.ticker_cfg t).risk_cfg_.max_position_

theorem Limited.abs_position_le {positions : ℕ → ℤ} {m : OrderManager} {t : ℕ} (h : Limited S positions m)
    (ht : t < ME_MAX_TICKERS) : |positions t| ≤ (S.ticker_cfg t).risk_cfg_.max_position_ := by
  have hbuy := h t .BUY ht (.inl rfl)
  have hsell := h t .SELL ht (.inr rfl)
  simp only [sideToValue] at hbuy hsell
  apply abs_le.mpr
  omega

/-- A move keeps within the limits. -/
theorem Limited.moveOrder {positions : ℕ → ℤ} {m : OrderManager} {risk : RiskInfo F} {t : ℕ}
    {s : Side} {price : ℤ} {qty : ℕ} (h : Limited S positions m) (hS : Moderate S)
    (ht : t < ME_MAX_TICKERS) (hs : s.IsTrading)
    (hcfg : risk.risk_cfg_ = (S.ticker_cfg t).risk_cfg_)
    (hposition : risk.position_info_.position_ = positions t) :
    Limited S positions (m.moveOrder S.toArith risk t price s qty) := by
  have houtcome := OrderManager.moveOrder_outcome S.toArith risk m t price s qty
  generalize m.moveOrder S.toArith risk t price s qty = moved at houtcome ⊢
  cases houtcome with
  | kept => exact h
  | sent _ hallowed =>
    -- the risk check saw the position with the whole new order filled
    have habs := h.abs_position_le ht
    rw [← hposition, ← hcfg] at habs
    obtain ⟨hmax, hsize⟩ := hS t ht
    rw [← hcfg] at hmax hsize
    have hle := RiskInfo.le_of_allowed hs habs hmax hsize hallowed
    rw [hposition, hcfg] at hle
    intro t' s' ht' hs'
    by_cases heq : t' = t ∧ s' = s
    · obtain ⟨rfl, rfl⟩ := heq
      have hnew : ((m.newOrder t' price s' qty).ticker_side_order_ t' s').openQty = qty := by
        unfold OrderManager.newOrder
        simp only [OrderManager.order_setOrder_self]
        rfl
      rw [hnew]
      exact hle
    · have hold : (m.newOrder t price s qty).ticker_side_order_ t' s' =
          m.ticker_side_order_ t' s' :=
        OrderManager.order_setOrder_of_ne heq
      rw [hold]
      exact h t' s' ht' hs'
  | canceled hstate =>
    -- an order waiting for its cancel is still open
    intro t' s' ht' hs'
    by_cases heq : t' = t ∧ s' = s
    · obtain ⟨rfl, rfl⟩ := heq
      have hsame : ((m.cancelOrder t' s').ticker_side_order_ t' s').openQty =
          (m.ticker_side_order_ t' s').openQty := by
        unfold OrderManager.cancelOrder
        rw [OrderManager.order_setOrder_self]
        unfold OMOrder.openQty
        rw [hstate]
      rw [hsame]
      exact h t' s' ht' hs'
    · have hold : (m.cancelOrder t s).ticker_side_order_ t' s' = m.ticker_side_order_ t' s' :=
        OrderManager.order_setOrder_of_ne heq
      rw [hold]
      exact h t' s' ht' hs'

/-- The positions of an engine. -/
def positions (e : TradeEngine F) (t : ℕ) : ℤ := (e.position_keeper_ t).position_

/-- What holds in every state of a run. -/
structure Sound (S : Setup F) (x : Desk F) : Prop where
  slots : Slots x.engine.order_manager_ x.link
  limited : Limited S (positions x.engine) x.engine.order_manager_

theorem sound_new (S : Setup F) : Sound S (new S) where
  slots := Slots.new S.client_id_
  limited := by
    intro t s _ _
    have hzero : sideToValue s * positions (new S).engine t +
        (((new S).engine.order_manager_.ticker_side_order_ t s).openQty : ℤ) = 0 := by
      show sideToValue s * 0 + 0 = 0
      rw [mul_zero, add_zero]
    rw [hzero]
    exact Int.natCast_nonneg _

/-- The engine processes a market update. -/
theorem Sound.update {x : Desk F} {u : MEMarketUpdate} {e' : TradeEngine F} (h : Sound S x)
    (hS : Moderate S) (hu : x.engine.onMarketUpdate S u = .ok e') :
    Sound S ⟨e', x.link.ask (e'.order_manager_.sent.drop x.engine.order_manager_.sent.length)⟩ := by
  have hupdated := TradeEngine.onMarketUpdate_spec hu
  have hpositions : positions e' = positions x.engine := funext hupdated.size
  rcases hupdated.orders with horders | ⟨bid_price, ask_price, horders⟩
  · refine ⟨?_, ?_⟩
    · rw [horders, List.drop_length, ask, List.append_nil]
      exact h.slots
    · rw [hpositions, horders]
      exact h.limited
  · obtain ⟨ht, hmoved⟩ := OrderManager.moveOrders_eq horders
    have hsize : (e'.risk S u.ticker_id_).position_info_.position_ =
        positions x.engine u.ticker_id_ := hupdated.size _
    refine ⟨h.slots.moveOrders horders, ?_⟩
    rw [hpositions, hmoved]
    exact (h.limited.moveOrder hS ht (.inl rfl) rfl hsize).moveOrder hS ht (.inr rfl) rfl hsize

/-- A fill that was not more than what was open moves the position within the limit. -/
theorem filledPosition_eq {p : PositionInfo F} {r : MEClientResponse} {max_position : ℕ}
    (hside : r.side_.IsTrading) (hmax : max_position < 2 ^ 30)
    (hposition : |p.position_| ≤ max_position)
    (hle : sideToValue r.side_ * p.position_ + r.exec_qty_ ≤ max_position) :
    FitsInt32 (p.position_ + r.exec_qty_ * sideToValue r.side_) ∧
      p.filledPosition r = p.position_ + r.exec_qty_ * sideToValue r.side_ := by
  obtain ⟨hlow, hhigh⟩ := abs_le.mp hposition
  have hfits : FitsInt32 (p.position_ + r.exec_qty_ * sideToValue r.side_) := by
    unfold FitsInt32
    rcases hside with hside | hside
    · rw [hside] at hle ⊢
      simp only [sideToValue] at hle ⊢
      omega
    · rw [hside] at hle ⊢
      simp only [sideToValue] at hle ⊢
      omega
  exact ⟨hfits, toInt32_of_fits hfits⟩

/-- What the next response may take: it is for an order whose open quantity covers it. -/
theorem Sound.covered {x : Desk F} {r : MEClientResponse} {rest : List MEClientResponse}
    (h : Sound S x) (hresponses : x.link.responses = r :: rest)
    (hconcerns : Concerns r.ticker_id_ r.side_ r) :
    r.side_.IsTrading ∧
      (OrderManager.updated
          (x.engine.order_manager_.ticker_side_order_ r.ticker_id_ r.side_) r).openQty +
        (if r.type_ = .FILLED then r.exec_qty_ else 0) ≤
      (x.engine.order_manager_.ticker_side_order_ r.ticker_id_ r.side_).openQty := by
  have hside : r.side_.IsTrading :=
    (h.slots.answered r (hresponses ▸ List.mem_cons_self ..) hconcerns).1
  have hanswers : x.link.answersFor r.ticker_id_ r.side_ =
      r :: ({ x.link with responses := rest } : Link).answersFor r.ticker_id_ r.side_ := by
    simp only [answersFor, hresponses]
    exact List.filter_cons_of_pos (decide_eq_true hconcerns)
  have hphase := h.slots.phase r.ticker_id_ r.side_ hside
  rw [hanswers] at hphase
  exact ⟨hside, hphase.openQty_deliver⟩

/-- The engine processes a response. -/
theorem Sound.deliver {x : Desk F} {r : MEClientResponse} {rest : List MEClientResponse}
    {e' : TradeEngine F} (h : Sound S x) (hS : Moderate S) (htrades : S.Trades)
    (hresponses : x.link.responses = r :: rest) (hr : x.engine.onOrderUpdate S r = .ok e') :
    Sound S ⟨e', { x.link with responses := rest }⟩ := by
  have hanswered := TradeEngine.onOrderUpdate_spec hr
  have horders := hanswered.orders
  rw [TradeEngine.algoOnOrderUpdate_eq htrades] at horders
  have hticker : r.ticker_id_ < ME_MAX_TICKERS := by
    unfold OrderManager.onOrderUpdate at horders
    split at horders
    · next hindex => exact hindex.1
    · cases horders
  refine ⟨h.slots.deliver hresponses horders, ?_⟩
  intro t s ht hs
  have hbefore := h.limited t s ht hs
  rw [OrderManager.order_onOrderUpdate horders]
  by_cases hconcerns : Concerns r.ticker_id_ r.side_ r
  · obtain ⟨hside, hcovered⟩ := h.covered hresponses hconcerns
    have hlimit := h.limited r.ticker_id_ r.side_ hticker hside
    by_cases hfilled : r.type_ = .FILLED
    · -- what the position gains on one side was open on that side
      rw [if_pos hfilled] at hcovered
      have hle : sideToValue r.side_ * positions x.engine r.ticker_id_ + r.exec_qty_ ≤
          (S.ticker_cfg r.ticker_id_).risk_cfg_.max_position_ := by omega
      have hfill := (filledPosition_eq hside (hS _ hticker).1
        (h.limited.abs_position_le hticker) hle).2
      have hposition : positions e' t = if t = r.ticker_id_ then
          positions x.engine t + r.exec_qty_ * sideToValue r.side_ else positions x.engine t := by
        unfold positions
        rw [hanswered.position, if_pos hfilled]
        split
        · next heq =>
          subst heq
          rw [Function.update_self, PositionInfo.position_addFill]
          exact hfill
        · next hne => rw [Function.update_of_ne hne]
      rw [hposition]
      by_cases heq : t = r.ticker_id_
      · subst heq
        rw [if_pos rfl]
        by_cases hsame : s = r.side_
        · subst hsame
          rw [if_pos ⟨rfl, rfl⟩]
          rcases hs with hs | hs
          · rw [hs] at hcovered hbefore ⊢
            simp only [sideToValue] at hbefore ⊢
            omega
          · rw [hs] at hcovered hbefore ⊢
            simp only [sideToValue] at hbefore ⊢
            omega
        · rw [if_neg fun hslot => hsame hslot.2]
          rcases hs with rfl | rfl
          · have hsell : r.side_ = .SELL := (hside.resolve_left fun hbuy => hsame hbuy.symm)
            rw [hsell]
            simp only [sideToValue] at hbefore ⊢
            omega
          · have hbuy : r.side_ = .BUY := (hside.resolve_right fun hsell => hsame hsell.symm)
            rw [hbuy]
            simp only [sideToValue] at hbefore ⊢
            omega
      · rw [if_neg heq, if_neg fun hslot => heq hslot.1]
        exact hbefore
    · rw [if_neg hfilled] at hcovered
      have hposition : positions e' t = positions x.engine t := by
        unfold positions
        rw [hanswered.position, if_neg hfilled]
      rw [hposition]
      split
      · next hslot =>
        obtain ⟨rfl, rfl⟩ := hslot
        omega
      · exact hbefore
  · have hfilled : r.type_ ≠ .FILLED := fun hfilled => hconcerns ⟨.inr (.inl hfilled), rfl, rfl⟩
    have hposition : positions e' t = positions x.engine t := by
      unfold positions
      rw [hanswered.position, if_neg hfilled]
    rw [hposition, Slots.updated_of_not_concerns hconcerns, ite_self]
    exact hbefore

/-- **One step keeps what holds of a run.** -/
theorem Sound.step {x x' : Desk F} (h : Sound S x) (hS : Moderate S) (htrades : S.Trades)
    (hstep : Step S x x') : Sound S x' := by
  cases hstep with
  | update hu => exact h.update hS hu
  | deliver hresponses hr => exact h.deliver hS htrades hresponses hr
  | exchange hk => exact ⟨h.slots.step hk, h.limited⟩

theorem sound_of_reachable {x : Desk F} (hS : Moderate S) (htrades : S.Trades)
    (hx : Reachable S x) : Sound S x := by
  induction hx with
  | refl => exact sound_new S
  | tail _ hstep ih => exact ih.step hS htrades hstep

/-! ## The limit -/

/-- The position limit in one state. -/
structure WithinLimit (S : Setup F) (x : Desk F) (t : ℕ) : Prop where
  position : |positions x.engine t| ≤ (S.ticker_cfg t).risk_cfg_.max_position_
  /-- Also if all of the working buy order were filled. -/
  buy : positions x.engine t + (x.engine.order_manager_.ticker_side_order_ t .BUY).openQty ≤
    (S.ticker_cfg t).risk_cfg_.max_position_
  sell : -(S.ticker_cfg t).risk_cfg_.max_position_ ≤
    positions x.engine t - (x.engine.order_manager_.ticker_side_order_ t .SELL).openQty
  /-- Whatever order the risk check is asked about. -/
  check : ∀ s qty, s.IsTrading → ∀ v ∈ (x.engine.risk S t).int32Values s qty, FitsInt32 v
  /-- The next fill. -/
  fill : ∀ r rest, x.link.responses = r :: rest → r.type_ = .FILLED → r.ticker_id_ = t →
    FitsInt32 (positions x.engine t + r.exec_qty_ * sideToValue r.side_)

/-- **The position limit holds over every run**, and no 32-bit arithmetic of the risk check or of
the position overflows. -/
theorem positionLimit {x : Desk F} (hS : Moderate S) (htrades : S.Trades) (hx : Reachable S x)
    {t : ℕ} (ht : t < ME_MAX_TICKERS) : WithinLimit S x t := by
  have hsound := sound_of_reachable hS htrades hx
  have habs := hsound.limited.abs_position_le ht
  obtain ⟨hmax, hsize⟩ := hS t ht
  have hbuy := hsound.limited t .BUY ht (.inl rfl)
  have hsell := hsound.limited t .SELL ht (.inr rfl)
  simp only [sideToValue] at hbuy hsell
  refine ⟨habs, by omega, by omega, ?_, ?_⟩
  · intro s qty hs
    exact RiskInfo.fits_int32Values qty hs habs hmax hsize
  · intro r rest hresponses hfilled hticker
    subst hticker
    obtain ⟨hside, hcovered⟩ := hsound.covered hresponses ⟨.inr (.inl hfilled), rfl, rfl⟩
    rw [if_pos hfilled] at hcovered
    have hlimit := hsound.limited r.ticker_id_ r.side_ ht hside
    exact (filledPosition_eq hside hmax habs (by unfold positions at hlimit; omega)).1

/-! ### A filled quote -/

theorem Reachable.update {x : Desk F} (hx : Reachable S x) (u : MEMarketUpdate)
    (e' : TradeEngine F) (h : x.engine.onMarketUpdate S u = .ok e') :
    Reachable S ⟨e', x.link.ask
      (e'.order_manager_.sent.drop x.engine.order_manager_.sent.length)⟩ :=
  hx.tail (.update h)

theorem Reachable.deliver {x : Desk F} (hx : Reachable S x) (r : MEClientResponse)
    (rest : List MEClientResponse) (e' : TradeEngine F) (hresponses : x.link.responses = r :: rest)
    (h : x.engine.onOrderUpdate S r = .ok e') :
    Reachable S ⟨e', { x.link with responses := rest }⟩ :=
  hx.tail (.deliver hresponses h)

theorem Reachable.exchange {x : Desk F} (hx : Reachable S x) {k' : Link}
    (h : Link.Step x.link k') : Reachable S ⟨x.engine, k'⟩ :=
  hx.tail (.exchange h)

/-- The request a new order of the market maker makes. -/
def quoteRequest (order_id : ℕ) (side : Side) (price : ℤ) : MEClientRequest where
  type_ := .NEW
  client_id_ := 1
  ticker_id_ := 0
  order_id_ := order_id
  side_ := side
  price_ := price
  qty_ := 10

def acceptedBid : MEClientResponse where
  type_ := .ACCEPTED
  client_id_ := 1
  ticker_id_ := 0
  client_order_id_ := 1
  side_ := .BUY
  price_ := 100
  exec_qty_ := 0
  leaves_qty_ := 10

def filledBid : MEClientResponse :=
  { acceptedBid with type_ := .FILLED, exec_qty_ := 10, leaves_qty_ := 0 }

/-- The engine after the first `n` of two bids and two asks. -/
def quoting (n : ℕ) : TradeEngine (Option ℚ) :=
  Lib.Unwinding.lastState (TradeEngine.step TradeEngine.makerSetup)
    (TradeEngine.new TradeEngine.makerSetup) (TradeEngine.twoSided.take n)

/-- The market maker quotes, its bid is accepted and filled: the position is ten. -/
theorem positionLimit_quoting : ∃ x : Desk (Option ℚ), positions x.engine 0 = 10 ∧
    WithinLimit TradeEngine.makerSetup x 0 := by
  have hS : Moderate TradeEngine.makerSetup := by
    intro t _
    constructor
    · show 100 < 2 ^ 30
      decide
    · show 50 < 2 ^ 30
      decide
  let bid := quoteRequest 1 .BUY 100
  let ask := quoteRequest 2 .SELL 105
  have h₀ : Reachable TradeEngine.makerSetup ⟨quoting 0, ⟨[], [], fun _ _ => none⟩⟩ := .refl
  have h₁ : Reachable TradeEngine.makerSetup ⟨quoting 1, ⟨[], [], fun _ _ => none⟩⟩ :=
    h₀.update (TradeEngine.added 0 1 .BUY 99) (quoting 1) rfl
  have h₂ : Reachable TradeEngine.makerSetup ⟨quoting 2, ⟨[], [], fun _ _ => none⟩⟩ :=
    h₁.update (TradeEngine.added 0 2 .BUY 100) (quoting 2) rfl
  have h₃ : Reachable TradeEngine.makerSetup ⟨quoting 3, ⟨[], [], fun _ _ => none⟩⟩ :=
    h₂.update (TradeEngine.added 0 3 .SELL 106) (quoting 3) rfl
  have h₄ : Reachable TradeEngine.makerSetup
      ⟨quoting 4, ⟨(quoting 4).order_manager_.sent, [], fun _ _ => none⟩⟩ :=
    h₃.update (TradeEngine.added 0 4 .SELL 105) (quoting 4) rfl
  have hsent : (quoting 4).order_manager_.sent = [bid, ask] := by decide +kernel
  rw [hsent] at h₄
  have h₅ := h₄.exchange (.answer (.accept (q := bid) (r := acceptedBid) rfl rfl rfl rfl rfl rfl))
  have h₆ := h₅.exchange
    (.answer (.fill (r := filledBid) (w := ⟨.BUY, 10⟩) rfl rfl rfl (by decide) rfl))
  have h₇ := h₆.deliver acceptedBid [filledBid] _ rfl rfl
  have h₈ := h₇.deliver filledBid [] _ rfl rfl
  refine ⟨_, ?_, positionLimit hS (.inl rfl) h₈ (by decide)⟩
  decide +kernel

end Desk

end TradingEcosystem
