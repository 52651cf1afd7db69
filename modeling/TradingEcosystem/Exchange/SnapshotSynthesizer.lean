import TradingEcosystem.Common.MemPool

/-!
# The Snapshot Synthesizer

`exchange/market_data/snapshot_synthesizer.{h,cpp}`: the live orders of every ticker, kept from
the numbered market updates of the exchange, and the cycle of messages that publishes them.
-/

namespace TradingEcosystem

structure SnapshotSynthesizer where
  /-- For each ticker the order with each market order id, in the order pool. -/
  ticker_orders_ : ℕ → ℕ → Option ℕ
  last_inc_seq_num_ : ℕ
  order_pool_ : MemPool MEMarketUpdate

namespace SnapshotSynthesizer

def new : SnapshotSynthesizer where
  ticker_orders_ := fun _ _ => none
  last_inc_seq_num_ := 0
  order_pool_ := MemPool.new ME_MAX_ORDER_IDS {}

/-- The entry for the order an update names. -/
def findOrder (s : SnapshotSynthesizer) (u : MEMarketUpdate) : Except Fault (Option ℕ) :=
  if u.order_id_ < ME_MAX_ORDER_IDS then .ok (s.ticker_orders_ u.ticker_id_ u.order_id_)
  else .error .outOfRange

/-- The three ASSERTs on the order of a `MODIFY` or `CANCEL`. -/
def expectOrder (s : SnapshotSynthesizer) (u : MEMarketUpdate) : Except Fault ℕ := do
  match ← s.findOrder u with
  | none => .error .assert
  | some order =>
    if (s.order_pool_.get order).order_id_ = u.order_id_ ∧
        (s.order_pool_.get order).side_ = u.side_ then
      .ok order
    else
      .error .assert

/-- Write the entry for the order an update names. -/
def setEntry (s : SnapshotSynthesizer) (u : MEMarketUpdate) (order : Option ℕ) :
    SnapshotSynthesizer :=
  { s with
    ticker_orders_ := Function.update s.ticker_orders_ u.ticker_id_
      (Function.update (s.ticker_orders_ u.ticker_id_) u.order_id_ order) }

/-- The `switch` of `addToSnapshot`. -/
def applyUpdate (s : SnapshotSynthesizer) (u : MEMarketUpdate) :
    Except Fault SnapshotSynthesizer :=
  match u.type_ with
  | .ADD => do
    match ← s.findOrder u with
    -- an order of this id is there already
    | some _ => .error .assert
    | none =>
      let (order, pool) ← s.order_pool_.allocate u
      .ok ({ s with order_pool_ := pool }.setEntry u (some order))
  | .MODIFY => do
    let order ← s.expectOrder u
    .ok { s with
      order_pool_ := s.order_pool_.modify order fun o =>
        { o with qty_ := u.qty_, price_ := u.price_ } }
  | .CANCEL => do
    let order ← s.expectOrder u
    let pool ← s.order_pool_.deallocate order
    .ok ({ s with order_pool_ := pool }.setEntry u none)
  | .SNAPSHOT_START | .CLEAR | .SNAPSHOT_END | .TRADE | .INVALID => .ok s

/-- Process an incremental market update. -/
def addToSnapshot (s : SnapshotSynthesizer) (market_update : MDPMarketUpdate) :
    Except Fault SnapshotSynthesizer :=
  if market_update.me_market_update_.ticker_id_ < ME_MAX_TICKERS then do
    let s ← s.applyUpdate market_update.me_market_update_
    -- the number is tested after the update was carried out
    if market_update.seq_num_ = s.last_inc_seq_num_ + 1 then
      .ok { s with last_inc_seq_num_ := market_update.seq_num_ }
    else
      .error .assert
  else
    .error .outOfRange

/-- What a cycle says about one ticker: a `CLEAR`, then the orders by ascending id. -/
def tickerUpdates (s : SnapshotSynthesizer) (ticker_id : ℕ) : List MEMarketUpdate :=
  { type_ := .CLEAR, ticker_id_ := ticker_id } ::
    (List.range ME_MAX_ORDER_IDS).filterMap fun order_id =>
      (s.ticker_orders_ ticker_id order_id).map s.order_pool_.get

/-- The messages of a full snapshot cycle. -/
def publishSnapshot (s : SnapshotSynthesizer) : List MDPMarketUpdate :=
  numbered 0 <|
    { type_ := .SNAPSHOT_START, order_id_ := s.last_inc_seq_num_ } ::
      ((List.range ME_MAX_TICKERS).flatMap s.tickerUpdates ++
        [{ type_ := .SNAPSHOT_END, order_id_ := s.last_inc_seq_num_ }])

/-- A sequence of incremental market updates. -/
def run (s : SnapshotSynthesizer) (market_updates : List MDPMarketUpdate) :
    Except Fault SnapshotSynthesizer :=
  market_updates.foldlM addToSnapshot s

variable {s s' : SnapshotSynthesizer}

theorem last_inc_seq_num_applyUpdate {u : MEMarketUpdate} (h : s.applyUpdate u = .ok s') :
    s'.last_inc_seq_num_ = s.last_inc_seq_num_ := by
  unfold applyUpdate at h
  split at h
  · obtain ⟨entry, -, h⟩ := bind_eq_ok.mp h
    cases entry with
    | some _ => cases h
    | none =>
      obtain ⟨_, -, heq⟩ := bind_eq_ok.mp h
      cases heq
      rfl
  · obtain ⟨_, -, heq⟩ := bind_eq_ok.mp h
    cases heq
    rfl
  · obtain ⟨_, -, h⟩ := bind_eq_ok.mp h
    obtain ⟨_, -, heq⟩ := bind_eq_ok.mp h
    cases heq
    rfl
  all_goals
    cases h
    rfl

/-- **Only the next number is taken.** -/
theorem seq_num_of_addToSnapshot {r : MDPMarketUpdate} (h : s.addToSnapshot r = .ok s') :
    r.seq_num_ = s.last_inc_seq_num_ + 1 ∧ s'.last_inc_seq_num_ = s.last_inc_seq_num_ + 1 := by
  unfold addToSnapshot at h
  split at h
  · obtain ⟨s₁, hs₁, h⟩ := bind_eq_ok.mp h
    rw [last_inc_seq_num_applyUpdate hs₁] at h
    split at h
    · next hseq =>
      cases h
      exact ⟨hseq, hseq⟩
    · cases h
  · cases h

end SnapshotSynthesizer

end TradingEcosystem
