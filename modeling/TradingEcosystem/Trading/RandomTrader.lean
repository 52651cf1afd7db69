import TradingEcosystem.Exchange.MatchingEngine

/-!
# The Random Trader

The `RANDOM` algorithm of `trading/trading_main.cpp`, which runs in `main` and not in the trade
engine: orders of random tickers, prices, quantities and sides, each followed by the cancellation
of a random one of all the orders sent before.  What `rand()` returns is a parameter.

- `RandomTrader.run` : what is passed to `sendClientRequest`
- `RandomTrader.Sound.run` : the requests that come of any random numbers
-/

namespace TradingEcosystem

/-- What `rand()` returns in one iteration. -/
structure Draws where
  ticker_id : ℕ
  price : ℕ
  qty : ℕ
  side : ℕ
  cxl_index : ℕ

structure RandomTrader where
  /-- The next order id. -/
  order_id : ℕ
  client_requests_vec : List MEClientRequest := []
  /-- Everything passed to `sendClientRequest` so far. -/
  sent : List MEClientRequest := []

namespace RandomTrader

/-- The bound of the loop. -/
def iterations : ℕ := 10000

/-- `ticker_base_price`, from the first random numbers. -/
def tickerBasePrice (rand : ℕ → ℕ) (ticker_id : ℕ) : ℤ := (rand ticker_id % 100 : ℕ) + 100

/-- `client_id * 1000` is of type `uint32_t`. -/
def new (client_id : ℕ) : RandomTrader where
  order_id := client_id * 1000 % 2 ^ 32

/-- The order of an iteration. -/
def newRequest (client_id : ℕ) (ticker_base_price : ℕ → ℤ) (order_id : ℕ) (d : Draws) :
    MEClientRequest :=
  let ticker_id := d.ticker_id % ME_MAX_TICKERS
  { type_ := .NEW
    client_id_ := client_id
    ticker_id_ := ticker_id
    order_id_ := order_id
    side_ := if d.side % 2 = 0 then .SELL else .BUY
    price_ := ticker_base_price ticker_id + (d.price % 10 : ℕ) + 1
    qty_ := 1 + d.qty % 100 + 1 }

/-- The cancellation of an order. -/
def cxlRequest (r : MEClientRequest) : MEClientRequest := { r with type_ := .CANCEL }

/-- One iteration of the loop. -/
def iterate (client_id : ℕ) (ticker_base_price : ℕ → ℤ) (t : RandomTrader) (d : Draws) :
    RandomTrader :=
  let new_request := newRequest client_id ticker_base_price t.order_id d
  let client_requests_vec := t.client_requests_vec ++ [new_request]
  let cxl_index : Fin client_requests_vec.length :=
    ⟨d.cxl_index % client_requests_vec.length,
      Nat.mod_lt _ (List.length_pos_of_ne_nil (List.concat_ne_nil _ _))⟩
  { order_id := t.order_id + 1
    client_requests_vec := client_requests_vec
    sent := t.sent ++ [new_request, cxlRequest (client_requests_vec.get cxl_index)] }

/-- The loop, which ends early when the exchange has been silent. -/
def run (client_id : ℕ) (rand : ℕ → ℕ) (draws : List Draws) : RandomTrader :=
  draws.foldl (iterate client_id (tickerBasePrice rand)) (new client_id)

/-! ## What is sent -/

/-- The ids of the orders sent. -/
def orderIds (requests : List MEClientRequest) : List ℕ :=
  (requests.filter fun r => decide (r.type_ = .NEW)).map MEClientRequest.order_id_

theorem orderIds_append (requests requests' : List MEClientRequest) :
    orderIds (requests ++ requests') = orderIds requests ++ orderIds requests' := by
  unfold orderIds
  rw [List.filter_append, List.map_append]

/-- What the fields of every request are like. -/
structure Plain (client_id : ℕ) (r : MEClientRequest) : Prop where
  type_ : r.type_ = .NEW ∨ r.type_ = .CANCEL
  client_id : r.client_id_ = client_id
  ticker_id : r.ticker_id_ < ME_MAX_TICKERS
  side : r.side_.IsTrading
  price : 101 ≤ r.price_ ∧ r.price_ ≤ 209
  qty : 2 ≤ r.qty_ ∧ r.qty_ ≤ 101

theorem plain_newRequest (client_id : ℕ) (rand : ℕ → ℕ) (order_id : ℕ) (d : Draws) :
    Plain client_id (newRequest client_id (tickerBasePrice rand) order_id d) where
  type_ := .inl rfl
  client_id := rfl
  ticker_id := Nat.mod_lt _ (by decide)
  side := by
    simp only [newRequest]
    split
    · exact .inr rfl
    · exact .inl rfl
  price := by
    simp only [newRequest, tickerBasePrice]
    omega
  qty := by
    simp only [newRequest]
    omega

theorem Plain.cxlRequest {client_id : ℕ} {r : MEClientRequest} (h : Plain client_id r) :
    Plain client_id (cxlRequest r) :=
  { h with type_ := .inr rfl }

/-- **What was sent after `n` iterations**: requests with plain fields, orders numbered one after
the other, and cancellations of orders among them. -/
structure Sound (client_id n : ℕ) (t : RandomTrader) : Prop where
  order_id : t.order_id = client_id * 1000 + n
  vec : ∀ r ∈ t.client_requests_vec, r ∈ t.sent ∧ r.type_ = .NEW
  plain : ∀ r ∈ t.sent, Plain client_id r
  ids : orderIds t.sent = List.range' (client_id * 1000) n
  canceled : ∀ r ∈ t.sent, r.type_ = .CANCEL → ∃ r' ∈ t.sent, r'.type_ = .NEW ∧ r = cxlRequest r'

theorem sound_new {client_id : ℕ} (hclient : client_id < ME_MAX_NUM_CLIENTS) :
    Sound client_id 0 (new client_id) where
  order_id := by
    simp only [ME_MAX_NUM_CLIENTS] at hclient
    have hsmall : client_id * 1000 % 2 ^ 32 = client_id * 1000 := Nat.mod_eq_of_lt (by omega)
    simp only [new, hsmall, Nat.add_zero]
  vec := fun _ hr => absurd hr List.not_mem_nil
  plain := fun _ hr => absurd hr List.not_mem_nil
  ids := rfl
  canceled := fun _ hr => absurd hr List.not_mem_nil

/-- One iteration sends one order more, and the cancellation of one of all the orders. -/
theorem Sound.iterate {client_id n : ℕ} {t : RandomTrader} (h : Sound client_id n t)
    (rand : ℕ → ℕ) (d : Draws) :
    Sound client_id (n + 1) (t.iterate client_id (tickerBasePrice rand) d) := by
  set new_request := newRequest client_id (tickerBasePrice rand) t.order_id d with hnew
  obtain ⟨chosen, hchosen, hsent⟩ : ∃ chosen ∈ t.client_requests_vec ++ [new_request],
      (t.iterate client_id (tickerBasePrice rand) d).sent =
        t.sent ++ [new_request, RandomTrader.cxlRequest chosen] :=
    ⟨_, List.get_mem _ _, rfl⟩
  have hplain : Plain client_id new_request := plain_newRequest ..
  -- the order to cancel was sent, in this iteration or before
  have hmem : chosen ∈ t.sent ++ [new_request] ∧ chosen.type_ = .NEW := by
    rcases List.mem_append.mp hchosen with hold | hlast
    · exact ⟨List.mem_append_left _ (h.vec _ hold).1, (h.vec _ hold).2⟩
    · rw [List.mem_singleton.mp hlast]
      exact ⟨List.mem_append_right _ (List.mem_singleton_self _), rfl⟩
  have hkept : ∀ r ∈ t.sent ++ [new_request],
      r ∈ t.sent ++ [new_request, RandomTrader.cxlRequest chosen] := by
    intro r hr
    rcases List.mem_append.mp hr with hr | hr
    · exact List.mem_append_left _ hr
    · exact List.mem_append_right _ (List.mem_singleton.mp hr ▸ List.mem_cons_self ..)
  have hplains : ∀ r ∈ t.sent ++ [new_request], Plain client_id r := by
    intro r hr
    rcases List.mem_append.mp hr with hr | hr
    · exact h.plain r hr
    · rw [List.mem_singleton.mp hr]
      exact hplain
  refine ⟨?order_id, ?vec, ?plain, ?ids, ?canceled⟩
  case order_id =>
    show t.order_id + 1 = _
    rw [h.order_id, Nat.add_assoc]
  case vec =>
    intro r hr
    rw [hsent]
    rcases List.mem_append.mp hr with hr | hr
    · exact ⟨List.mem_append_left _ (h.vec r hr).1, (h.vec r hr).2⟩
    · rw [List.mem_singleton.mp hr]
      exact ⟨hkept _ (List.mem_append_right _ (List.mem_singleton_self _)), rfl⟩
  case plain =>
    intro r hr
    rw [hsent] at hr
    rcases List.mem_append.mp hr with hr | hr
    · exact h.plain r hr
    · rcases List.mem_pair.mp hr with rfl | rfl
      · exact hplain
      · exact (hplains _ hmem.1).cxlRequest
  case ids =>
    have hone : orderIds [new_request, RandomTrader.cxlRequest chosen] = [t.order_id] := by
      simp [orderIds, hnew, newRequest, RandomTrader.cxlRequest]
    rw [hsent, orderIds_append, h.ids, hone, h.order_id, List.range'_1_concat]
  case canceled =>
    intro r hr htype
    rw [hsent] at hr ⊢
    rcases List.mem_append.mp hr with hr | hr
    · obtain ⟨r', hr', hfound⟩ := h.canceled r hr htype
      exact ⟨r', List.mem_append_left _ hr', hfound⟩
    · rcases List.mem_pair.mp hr with rfl | rfl
      · cases htype
      · exact ⟨chosen, hkept _ hmem.1, hmem.2, rfl⟩

/-- **Whatever the random numbers are**; induction on the iterations. -/
theorem Sound.run {client_id : ℕ} (hclient : client_id < ME_MAX_NUM_CLIENTS) (rand : ℕ → ℕ)
    (draws : List Draws) : Sound client_id draws.length (run client_id rand draws) := by
  induction draws using List.reverseRecOn with
  | nil => exact sound_new hclient
  | append_singleton draws d ih =>
    unfold RandomTrader.run at ih ⊢
    rw [List.foldl_append, List.length_append]
    exact ih.iterate rand d

end RandomTrader

end TradingEcosystem
