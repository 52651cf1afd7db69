import TradingEcosystem.Exchange.Runs

/-!
# The Matching Engine

`exchange/matcher/matching_engine.{h,cpp}`: one book for each ticker, and the dispatch of the
client requests to them.

- `processClientRequest` : one request
- `processClientRequest_spec` : it is one call of one book
- `run_spec` : a run of the engine is a run of each of its books
-/

namespace TradingEcosystem

open LimitBook
open MEOrderBook (Call)

structure MatchingEngine where
  /-- The book of each ticker below `ME_MAX_TICKERS`. -/
  ticker_order_book_ : ℕ → MEOrderBook
  /-- Everything written to the two outgoing queues so far. -/
  sent : List MEEvent

namespace MatchingEngine

def new : MatchingEngine where
  ticker_order_book_ := MEOrderBook.new
  sent := []

/-- The `switch` of `processClientRequest`. -/
def dispatch (order_book : MEOrderBook) (r : MEClientRequest) : Except Fault MEOrderBook :=
  match r.type_ with
  | .NEW => order_book.add r.client_id_ r.order_id_ r.ticker_id_ r.side_ r.price_ r.qty_
  | .CANCEL => order_book.cancel r.client_id_ r.order_id_ r.ticker_id_
  | .INVALID | .UNKNOWN _ => .error .assert

/-- The engine after its book of a ticker became `book` and sent `events`. -/
def store (e : MatchingEngine) (ticker_id : ℕ) (book : MEOrderBook) (events : List MEEvent) :
    MatchingEngine where
  ticker_order_book_ := Function.update e.ticker_order_book_ ticker_id book
  sent := e.sent ++ events

@[simp] theorem store_self (e : MatchingEngine) (t : ℕ) (book : MEOrderBook)
    (events : List MEEvent) : (e.store t book events).ticker_order_book_ t = book :=
  Function.update_self ..

theorem store_ne (e : MatchingEngine) {t t' : ℕ} (h : t' ≠ t) (book : MEOrderBook)
    (events : List MEEvent) :
    (e.store t book events).ticker_order_book_ t' = e.ticker_order_book_ t' :=
  Function.update_of_ne h ..

@[simp] theorem store_sent (e : MatchingEngine) (t : ℕ) (book : MEOrderBook)
    (events : List MEEvent) : (e.store t book events).sent = e.sent ++ events := rfl

/-- Process a client request.  What the book sends is written to the outgoing queues. -/
def processClientRequest (e : MatchingEngine) (r : MEClientRequest) :
    Except Fault MatchingEngine :=
  if r.ticker_id_ < ME_MAX_TICKERS then do
    let order_book := e.ticker_order_book_ r.ticker_id_
    let book ← dispatch order_book r
    .ok (e.store r.ticker_id_ book (book.sent.drop order_book.sent.length))
  else
    .error .outOfRange

/-- A sequence of client requests. -/
def run (e : MatchingEngine) (requests : List MEClientRequest) : Except Fault MatchingEngine :=
  requests.foldlM processClientRequest e

end MatchingEngine

/-! ## Requests as calls -/

/-- The call a request makes. -/
def MEClientRequest.call? (r : MEClientRequest) : Option Call :=
  match r.type_ with
  | .NEW => some (.add r.client_id_ r.order_id_ r.side_ r.price_ r.qty_)
  | .CANCEL => some (.cancel r.client_id_ r.order_id_)
  | .INVALID | .UNKNOWN _ => none

/-- The calls a sequence of requests makes to the book of a ticker. -/
def callsOf (ticker_id : ℕ) (requests : List MEClientRequest) : List Call :=
  requests.filterMap fun r => if r.ticker_id_ = ticker_id then r.call? else none

def MEEvent.ticker_id : MEEvent → ℕ
  | .response r => r.ticker_id_
  | .update u => u.ticker_id_

/-- The part of a log that concerns a ticker. -/
def eventsOf (ticker_id : ℕ) (events : List MEEvent) : List MEEvent :=
  events.filter fun event => decide (event.ticker_id = ticker_id)

theorem callsOf_cons_self {r : MEClientRequest} {requests : List MEClientRequest} {c : Call}
    (hc : r.call? = some c) :
    callsOf r.ticker_id_ (r :: requests) = c :: callsOf r.ticker_id_ requests := by
  unfold callsOf
  rw [List.filterMap_cons_some]
  rw [if_pos rfl, hc]

theorem callsOf_cons_ne {r : MEClientRequest} {requests : List MEClientRequest} {t : ℕ}
    (h : r.ticker_id_ ≠ t) : callsOf t (r :: requests) = callsOf t requests := by
  unfold callsOf
  rw [List.filterMap_cons_none]
  rw [if_neg h]

/-- The number of orders a log says were added to the books. -/
def addCount (events : List MEEvent) : ℕ :=
  (marketUpdates events).countP fun u => decide (u.type_ = .ADD)

/-- The number of new orders requested. -/
def newCount (requests : List MEClientRequest) : ℕ :=
  requests.countP fun r => decide (r.type_ = .NEW)

theorem addCount_append (events events' : List MEEvent) :
    addCount (events ++ events') = addCount events + addCount events' := by
  unfold addCount
  rw [marketUpdates_append, List.countP_append]

/-- A ticker's new orders are among all the new orders. -/
theorem length_newKey_callsOf_le (t : ℕ) (requests : List MEClientRequest) :
    ((callsOf t requests).filterMap Call.newKey).length ≤ newCount requests := by
  unfold callsOf newCount
  rw [List.filterMap_filterMap, List.length_filterMap_eq_countP]
  apply List.countP_mono_left
  intro r _ hsome
  apply decide_eq_true
  split at hsome
  · unfold MEClientRequest.call? at hsome
    split at hsome
    · assumption
    · cases hsome
    · cases hsome
    · cases hsome
  · cases hsome

namespace PriorityBook

theorem ticker_id_fillEvents {ticker_id : ℕ} (taker maker : MEOrderInfo) (fill leaves : ℕ) :
    ∀ event ∈ fillEvents ticker_id taker maker fill leaves, event.ticker_id = ticker_id := by
  intro event hevent
  simp only [fillEvents, List.mem_cons, List.not_mem_nil, or_false] at hevent
  rcases hevent with rfl | rfl | rfl | rfl
  · rfl
  · rfl
  · rfl
  · show MEMarketUpdate.ticker_id_ _ = ticker_id
    split <;> rfl

theorem ticker_id_sweep {ticker_id : ℕ} (taker : MEOrderInfo) (makers : List MEOrderInfo) :
    ∀ leaves : ℕ, ∀ event ∈ (sweep ticker_id taker makers leaves).2.2,
      event.ticker_id = ticker_id := by
  induction makers with
  | nil =>
    intro leaves event hevent
    cases hevent
  | cons maker makers ih =>
    intro leaves event hevent
    rw [sweep] at hevent
    split at hevent
    · cases hevent
    · simp only at hevent
      split at hevent
      · rcases List.mem_append.mp hevent with hevent | hevent
        · exact ticker_id_fillEvents _ _ _ _ event hevent
        · exact ih _ event hevent
      · exact ticker_id_fillEvents _ _ _ _ event hevent

/-- Everything a book publishes carries its ticker. -/
theorem ticker_id_step {P : PriorityBook} {ticker_id : ℕ} {c : Call} :
    ∀ event ∈ (P.step ticker_id c).2, event.ticker_id = ticker_id := by
  intro event hevent
  cases c with
  | add client_id client_order_id s price qty =>
    simp only [step, add] at hevent
    split at hevent
    · rcases List.mem_cons.mp hevent with rfl | hevent
      · rfl
      · exact ticker_id_sweep _ _ _ event hevent
    · rcases List.mem_append.mp hevent with hevent | hevent
      · rcases List.mem_cons.mp hevent with rfl | hevent
        · rfl
        · exact ticker_id_sweep _ _ _ event hevent
      · rw [List.mem_singleton.mp hevent]
        rfl
  | cancel client_id order_id =>
    simp only [step, cancel] at hevent
    split at hevent
    · rw [List.mem_singleton.mp hevent]
      rfl
    · simp only [List.mem_cons, List.not_mem_nil, or_false] at hevent
      rcases hevent with rfl | rfl <;> rfl

/-- A sweep adds no order. -/
theorem addCount_sweep {ticker_id : ℕ} {taker : MEOrderInfo} {makers : List MEOrderInfo} :
    ∀ {leaves : ℕ}, addCount (sweep ticker_id taker makers leaves).2.2 = 0 := by
  induction makers with
  | nil =>
    intro leaves
    rfl
  | cons maker makers ih =>
    intro leaves
    have hfill : ∀ fill rest : ℕ,
        addCount (fillEvents ticker_id taker maker fill rest) = 0 := by
      intro fill rest
      unfold fillEvents
      split
      · rfl
      · rfl
    rw [sweep]
    split
    · rfl
    · simp only
      split
      · rw [addCount_append, hfill, ih]
      · exact hfill _ _

/-- A call adds at most the order it asks for. -/
theorem addCount_step {P : PriorityBook} {ticker_id : ℕ} {c : Call} :
    addCount (P.step ticker_id c).2 ≤ ([c].filterMap Call.newKey).length := by
  cases c with
  | add client_id client_order_id s price qty =>
    show addCount (P.add ticker_id client_id client_order_id s price qty).2 ≤ 1
    have haccepted : ∀ o : MEOrderInfo, addCount [acceptedEvent o] = 0 := fun _ => rfl
    simp only [add]
    split
    · rw [← List.singleton_append, addCount_append, haccepted, addCount_sweep]
      exact Nat.zero_le _
    · rw [addCount_append, ← List.singleton_append, addCount_append, haccepted, addCount_sweep]
      exact Nat.le_refl _
  | cancel client_id order_id =>
    show addCount (P.cancel ticker_id client_id order_id).2 ≤ 0
    simp only [cancel]
    split
    · exact Nat.le_refl _
    · exact Nat.le_refl _

end PriorityBook

/-! ## The engine is its books -/

namespace MatchingEngine

/-- The book of each ticker holds the orders of `P`. -/
structure Refines (e : MatchingEngine) (P : ℕ → PriorityBook) : Prop where
  ticker_id : ∀ t, (e.ticker_order_book_ t).ticker_id_ = t
  books : ∀ t, ∃ sh, MEOrderBook.Refines (e.ticker_order_book_ t) sh (P t)
  wf : ∀ t, (P t).WF

theorem refines_new : Refines MatchingEngine.new fun _ => PriorityBook.empty where
  ticker_id := fun _ => rfl
  books := fun t => ⟨Shape.empty, MEOrderBook.refines_new t⟩
  wf := fun _ => PriorityBook.WF.empty

theorem dispatch_eq_step {order_book : MEOrderBook} {r : MEClientRequest} {c : Call}
    (hticker : order_book.ticker_id_ = r.ticker_id_) (hc : r.call? = some c) :
    dispatch order_book r = order_book.step c := by
  unfold MEClientRequest.call? at hc
  unfold dispatch
  split at hc
  · obtain rfl := Option.some.inj hc
    simp only [MEOrderBook.step, hticker]
  · obtain rfl := Option.some.inj hc
    simp only [MEOrderBook.step, hticker]
  · cases hc
  · cases hc

/-- **A request that fits is one call of one book**, unless a pool of the book gets down to its
last block. -/
theorem processClientRequest_spec_of_fits {e : MatchingEngine} {P : ℕ → PriorityBook}
    {r : MEClientRequest} {c : Call} (h : Refines e P) (hticker : r.ticker_id_ < ME_MAX_TICKERS)
    (hc : r.call? = some c) (hfits : (P r.ticker_id_).Fits c) :
    (∃ book, (e.ticker_order_book_ r.ticker_id_).step c = .ok book ∧
      e.processClientRequest r =
        .ok (e.store r.ticker_id_ book ((P r.ticker_id_).published r.ticker_id_ c)) ∧
      Refines (e.store r.ticker_id_ book ((P r.ticker_id_).published r.ticker_id_ c))
        (Function.update P r.ticker_id_ ((P r.ticker_id_).step r.ticker_id_ c).1)) ∨
    (e.processClientRequest r = .error .outOfSpace ∧
      ¬ ((P r.ticker_id_).step r.ticker_id_ c).1.Room) := by
  obtain ⟨sh, hbook⟩ := h.books r.ticker_id_
  have hdispatch := dispatch_eq_step (h.ticker_id r.ticker_id_) hc
  rcases MEOrderBook.step_spec_of_fits hbook (h.wf r.ticker_id_) hfits with
    ⟨book, sh', hstep, hbook', hsent, hticker'⟩ | ⟨herr, hfull⟩
  · rw [h.ticker_id] at hbook' hsent hticker'
    -- the engine passes on what the book has sent since
    have hdrop : book.sent.drop (e.ticker_order_book_ r.ticker_id_).sent.length =
        (P r.ticker_id_).published r.ticker_id_ c := by
      rw [hsent, List.drop_left]
    refine .inl ⟨book, hstep, ?run, ?ticker_id, ?books, ?wf⟩
    case run =>
      unfold processClientRequest
      simp only [if_pos hticker, hdispatch, hstep, ok_bind, hdrop]
    case ticker_id =>
      intro t
      by_cases ht : t = r.ticker_id_
      · subst ht
        rw [store_self]
        exact hticker'
      · rw [store_ne _ ht]
        exact h.ticker_id t
    case books =>
      intro t
      by_cases ht : t = r.ticker_id_
      · subst ht
        rw [store_self, Function.update_self]
        exact ⟨sh', hbook'⟩
      · rw [store_ne _ ht, Function.update_of_ne ht]
        exact h.books t
    case wf =>
      intro t
      by_cases ht : t = r.ticker_id_
      · subst ht
        rw [Function.update_self]
        exact (h.wf _).step_of_fits hfits
      · rw [Function.update_of_ne ht]
        exact h.wf t
  · rw [h.ticker_id] at hfull
    refine .inr ⟨?_, hfull⟩
    unfold processClientRequest
    simp only [if_pos hticker, hdispatch, herr, error_bind]

/-- **A request is one call of one book**, unless a pool of the book gets down to its last
block. -/
theorem processClientRequest_spec {e : MatchingEngine} {P : ℕ → PriorityBook} {r : MEClientRequest}
    {c : Call} (h : Refines e P) (hticker : r.ticker_id_ < ME_MAX_TICKERS)
    (hc : r.call? = some c) (hadm : (P r.ticker_id_).Admits c) :
    (∃ book, (e.ticker_order_book_ r.ticker_id_).step c = .ok book ∧
      e.processClientRequest r =
        .ok (e.store r.ticker_id_ book ((P r.ticker_id_).step r.ticker_id_ c).2) ∧
      Refines (e.store r.ticker_id_ book ((P r.ticker_id_).step r.ticker_id_ c).2)
        (Function.update P r.ticker_id_ ((P r.ticker_id_).step r.ticker_id_ c).1)) ∨
    e.processClientRequest r = .error .outOfSpace := by
  rw [← PriorityBook.published_eq hadm]
  exact (processClientRequest_spec_of_fits h hticker hc hadm.fits).imp_right And.left

/-- The requests are NEW or CANCEL, for existing tickers. -/
def Dispatched (requests : List MEClientRequest) : Prop :=
  ∀ r ∈ requests, r.ticker_id_ < ME_MAX_TICKERS ∧ r.call?.isSome

theorem length_newKey_le_newCount {r : MEClientRequest} {c : Call} (hc : r.call? = some c) :
    ([c].filterMap Call.newKey).length ≤ newCount [r] := by
  unfold MEClientRequest.call? at hc
  unfold newCount
  split at hc
  · next htype =>
    obtain rfl := Option.some.inj hc
    rw [List.countP_cons_of_pos (by simp [htype])]
    exact Nat.le_refl _
  · obtain rfl := Option.some.inj hc
    exact Nat.zero_le _
  · cases hc
  · cases hc

/-- **A run of the engine is a run of each of its books**; induction on the requests. -/
theorem run_spec {requests : List MEClientRequest} :
    ∀ {e : MatchingEngine} {P : ℕ → PriorityBook}, Refines e P → Dispatched requests →
      (∀ t, t < ME_MAX_TICKERS → (P t).Admitted t (callsOf t requests)) →
      (∃ e' events, e.run requests = .ok e' ∧ e'.sent = e.sent ++ events ∧
        (∀ event ∈ events, event.ticker_id < ME_MAX_TICKERS) ∧
        addCount events ≤ newCount requests ∧ ∀ t, t < ME_MAX_TICKERS →
        (e.ticker_order_book_ t).run (callsOf t requests) = .ok (e'.ticker_order_book_ t) ∧
        eventsOf t events = (PriorityBook.run t (P t) (callsOf t requests)).2) ∨
      e.run requests = .error .outOfSpace := by
  induction requests with
  | nil =>
    intro e P _ _ _
    exact .inl ⟨e, [], rfl, (List.append_nil _).symm, (by simp), Nat.le_refl _,
      fun t _ => ⟨rfl, rfl⟩⟩
  | cons r requests ih =>
    intro e P h hdis hadm
    have hrun : e.run (r :: requests) = e.processClientRequest r >>= fun e => e.run requests :=
      List.foldlM_cons ..
    obtain ⟨hticker, hsome⟩ := hdis r (List.mem_cons_self ..)
    obtain ⟨c, hc⟩ := Option.isSome_iff_exists.mp hsome
    have hadm_r := hadm _ hticker
    rw [callsOf_cons_self hc] at hadm_r
    rcases processClientRequest_spec h hticker hc hadm_r.1 with ⟨book, hstep, hproc, h'⟩ | herr
    · -- the calls still to come are admitted, of every book
      have hadm' : ∀ t, t < ME_MAX_TICKERS → (Function.update P r.ticker_id_
          ((P r.ticker_id_).step r.ticker_id_ c).1 t).Admitted t (callsOf t requests) := by
        intro t ht
        by_cases heq : t = r.ticker_id_
        · subst heq
          rw [Function.update_self]
          exact hadm_r.2
        · rw [Function.update_of_ne heq]
          have hadm_t := hadm t ht
          rwa [callsOf_cons_ne (Ne.symm heq)] at hadm_t
      rw [hrun, hproc, ok_bind]
      rcases ih h' (fun r' hr' => hdis r' (List.mem_cons_of_mem _ hr')) hadm' with
        ⟨e', events, hrun', hsent', htickers, hcount, hbooks⟩ | herr
      · -- the request's events come first, and all of them are of its ticker
        set first := ((P r.ticker_id_).step r.ticker_id_ c).2 with hfirst
        have hfirst_ticker : ∀ event ∈ first, event.ticker_id = r.ticker_id_ :=
          PriorityBook.ticker_id_step
        refine .inl ⟨e', first ++ events, hrun', ?_, ?_, ?_, fun t ht => ?_⟩
        · rw [hsent', store_sent, List.append_assoc]
        · intro event hevent
          rcases List.mem_append.mp hevent with hevent | hevent
          · rw [hfirst_ticker event hevent]
            exact hticker
          · exact htickers event hevent
        · have hadd : addCount first ≤ ([c].filterMap Call.newKey).length :=
            PriorityBook.addCount_step
          have hnew : newCount (r :: requests) = newCount [r] + newCount requests := by
            rw [← List.singleton_append]
            exact List.countP_append
          rw [addCount_append, hnew]
          exact Nat.add_le_add (hadd.trans (length_newKey_le_newCount hc)) hcount
        obtain ⟨hbook, hevents⟩ := hbooks t ht
        by_cases heq : t = r.ticker_id_
        · -- the book of the request makes one call more
          subst heq
          rw [store_self] at hbook
          rw [Function.update_self] at hevents
          rw [callsOf_cons_self hc]
          have hone : eventsOf r.ticker_id_ first = first :=
            List.filter_eq_self.mpr fun event hevent =>
              decide_eq_true (hfirst_ticker event hevent)
          constructor
          · show List.foldlM MEOrderBook.step _ (c :: _) = _
            rw [List.foldlM_cons, hstep]
            exact hbook
          · unfold eventsOf at hevents hone ⊢
            rw [List.filter_append, hone, hevents]
            rfl
        · -- the other books are not touched
          rw [store_ne _ heq] at hbook
          rw [Function.update_of_ne heq] at hevents
          rw [callsOf_cons_ne (Ne.symm heq)]
          have hnone : eventsOf t first = [] :=
            List.filter_eq_nil_iff.mpr fun event hevent => by
              rw [decide_eq_true_eq, hfirst_ticker event hevent]
              exact Ne.symm heq
          refine ⟨hbook, ?_⟩
          unfold eventsOf at hevents hnone ⊢
          rw [List.filter_append, hnone, hevents, List.nil_append]
      · exact .inr herr
    · right
      rw [hrun, herr, error_bind]

/-- Whatever the engine has sent, the book of its ticker sent. -/
theorem mem_sent {requests : List MEClientRequest} {e : MatchingEngine} (hdis : Dispatched requests)
    (hadm : ∀ t, t < ME_MAX_TICKERS → PriorityBook.empty.Admitted t (callsOf t requests))
    (hrun : new.run requests = .ok e) {event : MEEvent} (h : event ∈ e.sent) :
    event.ticker_id < ME_MAX_TICKERS ∧
      event ∈ (PriorityBook.run event.ticker_id .empty (callsOf event.ticker_id requests)).2 := by
  rcases run_spec refines_new hdis hadm with ⟨e', events, hrun', hsent, htickers, -, hbooks⟩ | herr
  · obtain rfl := Except.ok.inj (hrun.symm.trans hrun')
    have hsent : e.sent = events := hsent
    rw [hsent] at h
    have hticker := htickers event h
    refine ⟨hticker, ?_⟩
    rw [← (hbooks _ hticker).2]
    exact List.mem_filter.mpr ⟨h, decide_eq_true rfl⟩
  · rw [hrun] at herr
    cases herr

/-- **What every call of a book publishes, the engine sends**, where the calls keep an invariant of
the books. -/
theorem forall_sent {requests : List MEClientRequest} {e : MatchingEngine}
    {I : PriorityBook → Prop} {G : Call → Prop} {p : MEEvent → Prop} (hdis : Dispatched requests)
    (hadm : ∀ t, t < ME_MAX_TICKERS → PriorityBook.empty.Admitted t (callsOf t requests))
    (hrun : new.run requests = .ok e) (hempty : I .empty) (hG : ∀ t, ∀ c ∈ callsOf t requests, G c)
    (hstep : ∀ t, t < ME_MAX_TICKERS → ∀ P c, I P → P.WF → P.Admits c → G c →
      I (P.step t c).1 ∧ ∀ event ∈ (P.step t c).2, p event) :
    ∀ event ∈ e.sent, p event := by
  intro event hevent
  obtain ⟨hticker, hmem⟩ := mem_sent hdis hadm hrun hevent
  exact PriorityBook.forall_run (hstep _ hticker) hempty PriorityBook.WF.empty (hadm _ hticker)
    (hG _) event hmem

end MatchingEngine

end TradingEcosystem
