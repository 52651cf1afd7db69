import TradingEcosystem.Exchange.Answers
import TradingEcosystem.Lib.Ledger
import TradingEcosystem.Trading.RandomTrader
import Mathlib.Algebra.Order.BigOperators.Group.Finset

/-!
# Random Traders and the Exchange

Any number of clients run the random trader, each with its own random numbers.  Their requests come
to the matching engine in any order, and some may never come.

- `Session` : the requests of such clients
- `Session.validCalls` : they are valid calls of the books
- `random_traders_served` : the exchange answers all of them
-/

namespace TradingEcosystem

open MEOrderBook (Call)
open RandomTrader (orderIds Plain)

/-- Different pairs, when what is paired with each first component is different. -/
theorem nodup_map_pair {α β γ : Type} [DecidableEq β] {f : α → β} {g : α → γ} {as : List α}
    (h : ∀ b, ((as.filter fun a => decide (f a = b)).map g).Nodup) :
    (as.map fun a => (f a, g a)).Nodup := by
  induction as with
  | nil => exact List.nodup_nil
  | cons a as ih =>
    rw [List.map_cons, List.nodup_cons]
    constructor
    · intro hmem
      obtain ⟨b, hb, heq⟩ := List.mem_map.mp hmem
      obtain ⟨hf, hg⟩ := Prod.mk.inj heq
      have hfirst := h (f a)
      rw [List.filter_cons_of_pos (by simp), List.map_cons, List.nodup_cons] at hfirst
      apply hfirst.1
      rw [← hg]
      exact List.mem_map_of_mem (List.mem_filter.mpr ⟨hb, decide_eq_true hf⟩)
    · exact ih fun b => (h b).sublist (((List.sublist_cons_self a as).filter _).map g)

namespace RandomTrader

/-- What comes of the requests of random traders `active`: nothing that was not sent, and nothing
more often than it was sent. -/
structure Session (rand : ℕ → ℕ → ℕ) (draws : ℕ → List Draws) (active : Finset ℕ)
    (requests : List MEClientRequest) : Prop where
  client_id : ∀ c ∈ active, c < ME_MAX_NUM_CLIENTS
  loop : ∀ c ∈ active, (draws c).length ≤ RandomTrader.iterations
  sender : ∀ r ∈ requests, r.client_id_ ∈ active
  sent : ∀ c ∈ active, (Lib.Ledger.account MEClientRequest.client_id_ requests c).Subperm
    (run c (rand c) (draws c)).sent

variable {rand : ℕ → ℕ → ℕ} {draws : ℕ → List Draws} {active : Finset ℕ}
  {requests : List MEClientRequest}

theorem Session.mem_sent (h : Session rand draws active requests) {r : MEClientRequest}
    (hr : r ∈ requests) :
    r ∈ (run r.client_id_ (rand r.client_id_) (draws r.client_id_)).sent :=
  (h.sent _ (h.sender r hr)).subset (Lib.Ledger.mem_account.mpr ⟨hr, rfl⟩)

theorem Session.plain (h : Session rand draws active requests) {r : MEClientRequest}
    (hr : r ∈ requests) : Plain r.client_id_ r :=
  (Sound.run (h.client_id _ (h.sender r hr)) _ _).plain r (h.mem_sent hr)

/-- Orders are numbered from a thousand times the client's id on, and cancellations name orders. -/
theorem Session.order_id_lt (h : Session rand draws active requests) {r : MEClientRequest}
    (hr : r ∈ requests) : r.order_id_ < ME_MAX_ORDER_IDS := by
  have hactive := h.sender r hr
  have hclient := h.client_id _ hactive
  have hlen := h.loop _ hactive
  have hsound := Sound.run hclient (rand r.client_id_) (draws r.client_id_)
  have hids : ∀ r' ∈ (run r.client_id_ (rand r.client_id_) (draws r.client_id_)).sent,
      r'.type_ = .NEW → r'.order_id_ < ME_MAX_ORDER_IDS := by
    intro r' hr' htype
    have hmem : r'.order_id_ ∈
        orderIds (run r.client_id_ (rand r.client_id_) (draws r.client_id_)).sent :=
      List.mem_map_of_mem (List.mem_filter.mpr ⟨hr', decide_eq_true htype⟩)
    rw [hsound.ids, List.mem_range'_1] at hmem
    simp only [ME_MAX_NUM_CLIENTS] at hclient
    simp only [RandomTrader.iterations] at hlen
    simp only [ME_MAX_ORDER_IDS]
    omega
  rcases (h.plain hr).type_ with htype | htype
  · exact hids r (h.mem_sent hr) htype
  · obtain ⟨r', hr', hnew, heq⟩ := hsound.canceled r (h.mem_sent hr) htype
    rw [heq]
    exact hids r' hr' hnew

/-- The new orders of a client have different ids. -/
theorem Session.subperm_orderIds (h : Session rand draws active requests) {c : ℕ}
    (hc : c ∈ active) :
    (orderIds (Lib.Ledger.account MEClientRequest.client_id_ requests c)).Subperm
      (List.range' (c * 1000) (draws c).length) := by
  rw [← (Sound.run (h.client_id c hc) (rand c) (draws c)).ids]
  obtain ⟨requests', hperm, hsub⟩ := h.sent c hc
  exact ⟨orderIds requests', (hperm.filter _).map _, (hsub.filter _).map _⟩

theorem Session.keys_nodup (h : Session rand draws active requests) :
    ((requests.filter fun r => decide (r.type_ = .NEW)).map fun r =>
      (r.client_id_, r.order_id_)).Nodup := by
  apply nodup_map_pair
  intro c
  by_cases hc : c ∈ active
  · obtain ⟨ids, hperm, hsub⟩ := h.subperm_orderIds hc
    have hids := hperm.nodup_iff.mp (hsub.nodup List.nodup_range')
    rw [List.filter_filter]
    simpa only [orderIds, Lib.Ledger.account, List.filter_filter, Bool.and_comm] using hids
  · -- no request is from that client
    have hnone : ((requests.filter fun r => decide (r.type_ = .NEW)).filter fun r =>
        decide (r.client_id_ = c)) = [] := by
      rw [List.filter_eq_nil_iff]
      intro r hr hcr
      rw [decide_eq_true_iff] at hcr
      exact hc (hcr ▸ h.sender r (List.mem_filter.mp hr).1)
    rw [hnone]
    exact List.nodup_nil

/-- No more orders than iterations. -/
theorem Session.newCount_le (h : Session rand draws active requests) :
    newCount requests ≤ active.card * RandomTrader.iterations := by
  have hcount : newCount requests = ((requests.filter fun r => decide (r.type_ = .NEW)).map
      fun _ => 1).sum := by
    simp [newCount, List.countP_eq_length_filter]
  have hsender : ∀ r ∈ requests.filter fun r => decide (r.type_ = .NEW), r.client_id_ ∈ active :=
    fun r hr => h.sender r (List.mem_filter.mp hr).1
  rw [hcount, ← Lib.Ledger.sum_balance hsender]
  apply Finset.sum_le_card_nsmul
  intro c hc
  have hlen := (h.subperm_orderIds hc).length_le
  rw [List.length_range'] at hlen
  have hbalance : Lib.Ledger.balance MEClientRequest.client_id_ (fun _ => 1)
      (requests.filter fun r => decide (r.type_ = .NEW)) c =
      (orderIds (Lib.Ledger.account MEClientRequest.client_id_ requests c)).length := by
    simp [Lib.Ledger.balance, Lib.Ledger.account, orderIds, List.filter_filter, Bool.and_comm]
  rw [hbalance]
  exact hlen.trans (h.loop c hc)

/-- The new orders among the calls of one book. -/
theorem filterMap_newKey_callsOf (t : ℕ) (requests : List MEClientRequest) :
    ((callsOf t requests).filterMap Call.newKey).Sublist
      ((requests.filter fun r => decide (r.type_ = .NEW)).map fun r =>
        (r.client_id_, r.order_id_)) := by
  induction requests with
  | nil => exact .slnil
  | cons r requests ih =>
    by_cases ht : r.ticker_id_ = t
    · cases htype : r.type_ with
      | NEW =>
        have hc : r.call? = some (.add r.client_id_ r.order_id_ r.side_ r.price_ r.qty_) := by
          simp [MEClientRequest.call?, htype]
        subst ht
        rw [callsOf_cons_self hc, List.filter_cons_of_pos (by simp [htype])]
        exact ih.cons_cons _
      | CANCEL =>
        have hc : r.call? = some (.cancel r.client_id_ r.order_id_) := by
          simp [MEClientRequest.call?, htype]
        subst ht
        rw [callsOf_cons_self hc, List.filter_cons_of_neg (by simp [htype])]
        exact ih
      | _ =>
        have hnone : callsOf t (r :: requests) = callsOf t requests := by
          simp [callsOf, MEClientRequest.call?, htype]
        rw [hnone, List.filter_cons_of_neg (by simp [htype])]
        exact ih
    · rw [callsOf_cons_ne ht]
      exact ih.trans (((List.sublist_cons_self r requests).filter _).map _)

/-- **What the books are told is valid**, with the prices in any window that holds 101 to 209. -/
theorem Session.validCalls (h : Session rand draws active requests) {base : ℤ}
    (hbase : base ≤ 101 ∧ 209 < base + ME_MAX_PRICE_LEVELS) (t : ℕ) :
    ValidCalls base (callsOf t requests) where
  valid := by
    intro c hc
    obtain ⟨r, hr, hcall⟩ := List.mem_filterMap.mp hc
    have hplain := h.plain hr
    have hid := h.order_id_lt hr
    split at hcall
    · rcases hplain.type_ with htype | htype
      · simp only [MEClientRequest.call?, htype] at hcall
        obtain rfl := Option.some.inj hcall
        have hprice := hplain.price
        have hqty := hplain.qty
        exact ⟨hplain.side, h.client_id _ (h.sender r hr), hid, by omega, by omega⟩
      · simp only [MEClientRequest.call?, htype] at hcall
        obtain rfl := Option.some.inj hcall
        exact hid
    · cases hcall
  keys_nodup := h.keys_nodup.sublist (filterMap_newKey_callsOf t requests)

theorem Session.dispatched (h : Session rand draws active requests) :
    MatchingEngine.Dispatched requests := by
  intro r hr
  refine ⟨(h.plain hr).ticker_id, ?_⟩
  rcases (h.plain hr).type_ with htype | htype
  · simp [MEClientRequest.call?, htype]
  · simp [MEClientRequest.call?, htype]

end RandomTrader

open RandomTrader (Session)

/-- **Random traders are served.**  With at most 104 clients that trade at random, whatever their
random numbers are and however their requests interleave, the matching engine gets through all of
them and answers each one. -/
theorem random_traders_served {rand : ℕ → ℕ → ℕ} {draws : ℕ → List Draws} {active : Finset ℕ}
    {requests : List MEClientRequest} (h : Session rand draws active requests)
    (hactive : active.card ≤ 104) :
    ∃ e, MatchingEngine.new.run requests = .ok e ∧
      List.Forall₂ Answers requests (answers e.sent) := by
  have hcount : newCount requests < ME_MAX_ORDER_IDS := by
    have hle := h.newCount_le
    simp only [RandomTrader.iterations] at hle
    simp only [ME_MAX_ORDER_IDS]
    omega
  have hvalid : ∀ t, ValidCalls 0 (callsOf t requests) := h.validCalls (by decide)
  -- the prices fit the window from 1 on as well
  have hfit : ∀ t, t < ME_MAX_TICKERS → PriorityBook.empty.Along (PriorityBook.Fitting t) t
      (callsOf t requests) := fun t _ =>
    PriorityBook.along_fitting t (hvalid t) (h.validCalls (by decide) t)
      ((length_newKey_callsOf_le t requests).trans_lt hcount)
  have hadm : ∀ t, t < ME_MAX_TICKERS → PriorityBook.empty.Along PriorityBook.Admits t
      (callsOf t requests) := fun t _ =>
    PriorityBook.along_admits.mpr (PriorityBook.ValidCalls.admitted t (hvalid t))
  obtain ⟨e, hrun⟩ := MatchingEngine.ok_run MatchingEngine.refines_new h.dispatched hfit
  obtain ⟨responses, hsent, hall⟩ :=
    MatchingEngine.answered_run MatchingEngine.refines_new h.dispatched hadm hrun
  refine ⟨e, hrun, ?_⟩
  rw [hsent]
  exact hall

/-- What a random trader sends in one iteration. -/
def oneIteration (client_id : ℕ) : List MEClientRequest :=
  (RandomTrader.run client_id (· + client_id) [⟨3, 5, 7, client_id, 0⟩]).sent

/-- The requests of client 2 come between those of client 1. -/
def between : List MEClientRequest :=
  (oneIteration 1).take 1 ++ oneIteration 2 ++ (oneIteration 1).drop 1

theorem session_between :
    Session (fun c => (· + c)) (fun c => [⟨3, 5, 7, c, 0⟩]) {1, 2} between where
  client_id := by decide
  loop := by decide
  sender := by decide +kernel
  sent := by
    intro c hc
    have heq : Lib.Ledger.account MEClientRequest.client_id_ between c = oneIteration c := by
      rcases Finset.mem_insert.mp hc with rfl | hc
      · decide +kernel
      · rw [Finset.mem_singleton.mp hc]
        decide +kernel
    rw [heq]
    exact List.Subperm.refl _

theorem random_traders_served_between :
    between.map MEClientRequest.order_id_ = [1000, 2000, 2000, 1000] ∧
      ∃ e, MatchingEngine.new.run between = .ok e ∧
        List.Forall₂ Answers between (answers e.sent) :=
  ⟨by decide +kernel, random_traders_served session_between (by decide)⟩

end TradingEcosystem
