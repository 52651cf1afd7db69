import TradingEcosystem.Exchange.MatchingEngine
import TradingEcosystem.Lib.Unwinding

/-!
# The Books of the Exchange Do Not Disturb Each Other

One thread serves the books of all tickers, and all of them write to the same two queues.  What
becomes of a ticker is decided by the requests for it, whatever the other requests are, and whether
they are valid or not.

- `MEOrderBook.Emits` : a call of a book sends messages of its ticker only
- `MatchingEngine.view` : what concerns a ticker
- `MatchingEngine.tickers_isolated` : it depends on the requests for the ticker only
-/

namespace TradingEcosystem

open Lib.Unwinding

/-! ## What a book sends -/

namespace MEOrderBook

variable {b b' b'' : MEOrderBook} {t : ℕ}

/-- From `b` to `b'` messages of ticker `t` were sent, and no others. -/
def Emits (t : ℕ) (b b' : MEOrderBook) : Prop :=
  ∃ events, b'.sent = b.sent ++ events ∧ ∀ event ∈ events, event.ticker_id = t

theorem emits_of_sent (h : b'.sent = b.sent) : Emits t b b' :=
  ⟨[], by rw [h, List.append_nil], fun _ hmem => absurd hmem List.not_mem_nil⟩

theorem Emits.trans (h : Emits t b b') (h' : Emits t b' b'') : Emits t b b'' := by
  obtain ⟨events, hsent, hall⟩ := h
  obtain ⟨events', hsent', hall'⟩ := h'
  refine ⟨events ++ events', by rw [hsent', hsent, List.append_assoc], fun event hmem => ?_⟩
  rcases List.mem_append.mp hmem with hmem | hmem
  · exact hall event hmem
  · exact hall' event hmem

theorem Emits.response (h : Emits t b b') {r : MEClientResponse} (hr : r.ticker_id_ = t) :
    Emits t b (b'.sendClientResponse r) :=
  h.trans ⟨[.response r], rfl, fun _ hmem => by rw [List.mem_singleton.mp hmem]; exact hr⟩

theorem Emits.update (h : Emits t b b') {u : MEMarketUpdate} (hu : u.ticker_id_ = t) :
    Emits t b (b'.sendMarketUpdate u) :=
  h.trans ⟨[.update u], rfl, fun _ hmem => by rw [List.mem_singleton.mp hmem]; exact hu⟩

theorem emits_removeOrder {o : ℕ} (h : b.removeOrder o = .ok b') : Emits t b b' := by
  obtain ⟨book, -, hbook⟩ := bind_eq_ok.mp h
  cases hbook
  exact emits_of_sent rfl

variable {client_id client_order_id : ℕ} {side : Side} {price : ℤ}

/-- A match sends the two fills, the trade, and what becomes of the resting order. -/
theorem emits_matchOrder {id itr leaves leaves' : ℕ}
    (h : b.matchOrder t client_id side client_order_id id itr leaves = .ok (b', leaves')) :
    Emits t b b' := by
  unfold matchOrder at h
  simp only at h
  set b₁ : MEOrderBook := { b with
    book := b.book.modInfo itr fun order =>
      { order with qty_ := qtySub order.qty_ (min leaves (b.order itr).qty_) } }
  have h₁ : Emits t b b₁ := emits_of_sent rfl
  split at h
  · -- the resting order is used up
    obtain ⟨b₂, hremove, h⟩ := bind_eq_ok.mp h
    cases h
    refine ((((h₁.response ?_).response ?_).update ?_).update ?_).trans (emits_removeOrder hremove)
    all_goals rfl
  · cases h
    refine (((h₁.response ?_).response ?_).update ?_).update ?_
    all_goals rfl

/-- The two loops of `checkForMatch`; induction on their rounds. -/
theorem emits_matchLoop {id : ℕ} {fuel : ℕ} :
    ∀ {b b' : MEOrderBook} {leaves leaves' : ℕ},
      matchLoop t client_id side client_order_id id price fuel b leaves = .ok (b', leaves') →
      Emits t b b' := by
  induction fuel with
  | zero =>
    intro b b' leaves leaves' h
    cases h
  | succ fuel ih =>
    intro b b' leaves leaves' h
    rw [matchLoop] at h
    split at h
    · cases h
      exact emits_of_sent rfl
    · split at h
      · cases h
        exact emits_of_sent rfl
      · obtain ⟨itr, -, h⟩ := bind_eq_ok.mp h
        split at h
        · cases h
          exact emits_of_sent rfl
        · obtain ⟨⟨b₁, leaves₁⟩, hmatch, hloop⟩ := bind_eq_ok.mp h
          exact (emits_matchOrder hmatch).trans (ih hloop)

theorem emits_add {qty : ℕ} (h : b.add client_id client_order_id t side price qty = .ok b') :
    Emits t b b' := by
  obtain ⟨⟨b₁, leaves⟩, hcheck, hrest⟩ := bind_eq_ok.mp h
  have hchecked : Emits t b b₁ := by
    have hid : Emits t b b.generateNewMarketOrderId.2 := emits_of_sent rfl
    have hfirst : ∀ r : MEClientResponse, r.ticker_id_ = t →
        Emits t b (b.generateNewMarketOrderId.2.sendClientResponse r) := fun _ hr => hid.response hr
    unfold checkForMatch at hcheck
    split at hcheck
    · exact (hfirst _ rfl).trans (emits_matchLoop hcheck)
    · cases hcheck
      exact hfirst _ rfl
  simp only at hrest
  split at hrest
  · -- what is left goes into the book
    obtain ⟨priority, -, hrest⟩ := bind_eq_ok.mp hrest
    obtain ⟨book, -, hrest⟩ := bind_eq_ok.mp hrest
    cases hrest
    exact (hchecked.trans (emits_of_sent rfl)).update rfl
  · cases hrest
    exact hchecked

theorem emits_cancel {order_id : ℕ} (h : b.cancel client_id order_id t = .ok b') :
    Emits t b b' := by
  obtain ⟨found, -, h⟩ := bind_eq_ok.mp h
  cases found with
  | none =>
    cases h
    exact (emits_of_sent rfl).response rfl
  | some o =>
    obtain ⟨b₁, hremove, h⟩ := bind_eq_ok.mp h
    cases h
    exact ((emits_removeOrder hremove).update rfl).response rfl

end MEOrderBook

/-! ## What the engine does with a ticker -/

namespace MatchingEngine

open MEOrderBook (Emits)

variable {e e' : MatchingEngine} {r : MEClientRequest} {t : ℕ}

theorem emits_dispatch {b b' : MEOrderBook} (h : dispatch b r = .ok b') :
    Emits r.ticker_id_ b b' := by
  unfold dispatch at h
  cases htype : r.type_ with
  | NEW =>
    simp only [htype] at h
    exact MEOrderBook.emits_add h
  | CANCEL =>
    simp only [htype] at h
    exact MEOrderBook.emits_cancel h
  | INVALID | UNKNOWN _ =>
    simp only [htype] at h
    cases h

/-- The book of a ticker, and all that was sent about the ticker. -/
def view (t : ℕ) (e : MatchingEngine) : MEOrderBook × List MEEvent :=
  (e.ticker_order_book_ t, eventsOf t e.sent)

theorem eventsOf_append (t : ℕ) (events events' : List MEEvent) :
    eventsOf t (events ++ events') = eventsOf t events ++ eventsOf t events' :=
  List.filter_append ..

/-- **The view of a ticker decides what a request for it does to the view.** -/
theorem process_view (hr : r.ticker_id_ = t) (h : e.view t = e'.view t) :
    (e.processClientRequest r).map (view t) = (e'.processClientRequest r).map (view t) := by
  obtain ⟨hbook, hevents⟩ := Prod.mk.inj h
  subst hr
  unfold processClientRequest
  split
  · simp only [hbook]
    cases dispatch (e'.ticker_order_book_ r.ticker_id_) r with
    | error fault => rfl
    | ok book =>
      simp only [ok_bind, Except.map, view, store_self, store_sent, eventsOf_append, hevents]
  · rfl

/-- **A request for another ticker leaves the view.** -/
theorem process_frame (hr : r.ticker_id_ ≠ t) (h : e.processClientRequest r = .ok e') :
    e'.view t = e.view t := by
  unfold processClientRequest at h
  split at h
  · obtain ⟨book, hdispatch, h⟩ := bind_eq_ok.mp h
    obtain rfl := Except.ok.inj h
    obtain ⟨events, hsent, hall⟩ := emits_dispatch hdispatch
    -- all that was sent is about the other ticker
    have hnone : eventsOf t events = [] := by
      refine List.filter_eq_nil_iff.mpr fun event hmem => ?_
      rw [hall event hmem]
      simpa using hr
    simp only [view, store_ne e (Ne.symm hr), store_sent, eventsOf_append, hsent,
      List.drop_left, hnone, List.append_nil]
  · cases h

/-- The requests for a ticker. -/
def requestsOf (t : ℕ) (requests : List MEClientRequest) : List MEClientRequest :=
  requests.filter fun r => decide (r.ticker_id_ = t)

theorem isolated (t : ℕ) :
    Isolated processClientRequest (view t) (fun r => decide (r.ticker_id_ = t))
      (fun _ => True) where
  invariant := fun _ _ _ _ _ => trivial
  decided := fun _ _ _ hr h => process_view (of_decide_eq_true hr) h
  frame := fun _ _ _ _ hr h => process_frame (of_decide_eq_false hr) h

/-- Messages are never taken back. -/
theorem view_process (h : e.processClientRequest r = .ok e') :
    (e.view t).2 <+: (e'.view t).2 := by
  unfold processClientRequest at h
  split at h
  · obtain ⟨book, -, h⟩ := bind_eq_ok.mp h
    obtain rfl := Except.ok.inj h
    simp only [view, store_sent, eventsOf_append]
    exact List.prefix_append _ _
  · cases h

/-- **Ticker isolation in the matching engine**, for any requests at all.  A run leaves each ticker
with the book and the messages it would have if the requests for it had come alone.  When a fault
stops one of two runs with the same requests for a ticker, the one has sent of the ticker what the
other has, and perhaps more. -/
theorem tickers_isolated (t : ℕ) {requests requests' : List MEClientRequest}
    (h : requestsOf t requests = requestsOf t requests') :
    (∀ e, new.run requests = .ok e →
      ∃ e', new.run (requestsOf t requests') = .ok e' ∧ e.view t = e'.view t) ∧
    (eventsOf t (lastState processClientRequest new requests).sent <+:
        eventsOf t (lastState processClientRequest new requests').sent ∨
      eventsOf t (lastState processClientRequest new requests').sent <+:
        eventsOf t (lastState processClientRequest new requests).sent) := by
  constructor
  · intro e he
    rw [← h]
    exact (isolated t).run_filter trivial rfl he
  · exact (isolated t).isPrefix_or_isPrefix Prod.snd (fun _ _ _ hstep => view_process hstep)
      trivial h

/-- A bid and an ask that meet, and between them a bid for another ticker. -/
def bidBetween : List MEClientRequest :=
  let order (client_id ticker_id : ℕ) (side : Side) : MEClientRequest :=
    { type_ := .NEW, client_id_ := client_id, ticker_id_ := ticker_id, order_id_ := 1,
      side_ := side, price_ := 100, qty_ := 5 }
  [order 1 0 .BUY, order 2 3 .BUY, order 3 0 .SELL]

theorem tickers_isolated_bidBetween : ∃ e e', new.run bidBetween = .ok e ∧
    new.run (requestsOf 0 bidBetween) = .ok e' ∧ e.view 0 = e'.view 0 ∧
    (e.view 0).2.length = 7 := by
  obtain ⟨e, he, hlen⟩ : ∃ e, new.run bidBetween = .ok e ∧ (e.view 0).2.length = 7 := by
    have hrun : ((new.run bidBetween).toOption.map fun e => (e.view 0).2.length) = some 7 := by
      decide +kernel
    cases he : new.run bidBetween with
    | error fault =>
      rw [he] at hrun
      cases hrun
    | ok e =>
      rw [he] at hrun
      exact ⟨e, rfl, Option.some.inj hrun⟩
  have hisolated := tickers_isolated 0 (rfl : requestsOf 0 bidBetween = requestsOf 0 bidBetween)
  obtain ⟨e', he', hview⟩ := hisolated.1 e he
  exact ⟨e, e', he, he', hview, hlen⟩

end MatchingEngine

end TradingEcosystem
