import TradingEcosystem.Exchange.MatchingEngine
import TradingEcosystem.Exchange.Sessions

/-!
# What the Exchange Survives

The order server and the matching engine behind it, while clients send records of any bit
pattern.  The checks on a record are spread over both, and some are missing.

- `Exchange.handle` : a record arrives and is processed
- `Survives` : neither component faults, and an invalid request leaves every book alone
- `survives_iff` : the requests the exchange survives, in the states it reaches by them
-/

namespace TradingEcosystem

open MEOrderBook (Call)

/-! ## The two components -/

structure Exchange where
  order_server_ : OrderServer := {}
  matching_engine_ : MatchingEngine := MatchingEngine.new
  /-- How many requests the engine has read from its queue. -/
  next_read : ℕ := 0

namespace Exchange

def new : Exchange := {}

/-- The engine processes the next request of its queue. -/
def processNext (x : Exchange) : Except Fault Exchange :=
  match x.order_server_.fifo_sequencer_.incoming_requests_[x.next_read]? with
  | none => .ok x
  | some request => do
    let engine ← x.matching_engine_.processClientRequest request
    .ok { x with matching_engine_ := engine, next_read := x.next_read + 1 }

/-- The two threads take their steps in any order. -/
inductive Event where
  | server (event : OrderServer.Event)
  | engine

def step (x : Exchange) : Event → Except Fault Exchange
  | .server event => do
    let server ← x.order_server_.step event
    .ok { x with order_server_ := server }
  | .engine => x.processNext

def run (x : Exchange) (events : List Event) : Except Fault Exchange := events.foldlM step x

/-- A record arrives, and the engine processes its request if the server takes it. -/
def handle (x : Exchange) (socket : ℕ) (rx_time : ℤ) (request : OMClientRequest) :
    Except Fault Exchange := do
  let server ← x.order_server_.onRequest socket rx_time request
  if (x.order_server_.noted socket request).InSession socket request then do
    let engine ← x.matching_engine_.processClientRequest request.me_client_request_
    .ok { x with order_server_ := server, matching_engine_ := engine }
  else
    .ok { x with order_server_ := server }

/-- The book of a ticker. -/
def book (x : Exchange) (ticker_id : ℕ) : MEOrderBook :=
  x.matching_engine_.ticker_order_book_ ticker_id

end Exchange

/-! ## Valid requests -/

/-- A known type, ids within the tables, and for a NEW a side that can trade. -/
def MEClientRequest.Valid (r : MEClientRequest) : Prop :=
  r.client_id_ < ME_MAX_NUM_CLIENTS ∧ r.ticker_id_ < ME_MAX_TICKERS ∧
    r.order_id_ < ME_MAX_ORDER_IDS ∧ (r.type_ = .CANCEL ∨ r.type_ = .NEW ∧ r.side_.IsTrading)

instance : DecidablePred MEClientRequest.Valid := fun _ => inferInstanceAs (Decidable (_ ∧ _))

/-- A valid request is a call within the book's arrays. -/
theorem MEClientRequest.Valid.call {r : MEClientRequest} (h : r.Valid) (hqty : r.qty_ < 2 ^ 32) :
    ∃ c, r.call? = some c ∧ c.InRange := by
  obtain ⟨hclient, -, hoid, htype | ⟨htype, hside⟩⟩ := h
  · refine ⟨.cancel r.client_id_ r.order_id_, ?_, fun _ => hoid⟩
    unfold MEClientRequest.call?
    rw [htype]
  · refine ⟨.add r.client_id_ r.order_id_ r.side_ r.price_ r.qty_, ?_, hside, hclient, hoid, hqty⟩
    unfold MEClientRequest.call?
    rw [htype]

/-! ## A book counts every order it accepts -/

namespace MEOrderBook

variable {b b' : MEOrderBook}

theorem next_id_removeOrder {o : ℕ} (h : b.removeOrder o = .ok b') :
    b'.next_market_order_id_ = b.next_market_order_id_ := by
  obtain ⟨book, -, hbook⟩ := bind_eq_ok.mp h
  cases hbook
  rfl

theorem next_id_matchOrder {ticker_id client_id client_order_id id itr leaves_qty leaves' : ℕ}
    {side : Side}
    (h : b.matchOrder ticker_id client_id side client_order_id id itr leaves_qty =
      .ok (b', leaves')) : b'.next_market_order_id_ = b.next_market_order_id_ := by
  unfold matchOrder at h
  simp only at h
  split at h
  · -- the resting order is used up
    obtain ⟨b₁, hremove, hrest⟩ := bind_eq_ok.mp h
    cases hrest
    have hnext := next_id_removeOrder hremove
    exact hnext
  · cases h
    rfl

/-- Matching accepts no order; induction on the rounds of the loop. -/
theorem next_id_matchLoop {ticker_id client_id client_order_id id : ℕ} {side : Side} {price : ℤ}
    {fuel : ℕ} :
    ∀ {b b' : MEOrderBook} {leaves_qty leaves' : ℕ},
      matchLoop ticker_id client_id side client_order_id id price fuel b leaves_qty =
        .ok (b', leaves') → b'.next_market_order_id_ = b.next_market_order_id_ := by
  induction fuel with
  | zero =>
    intro b b' leaves_qty leaves' h
    cases h
  | succ fuel ih =>
    intro b b' leaves_qty leaves' h
    rw [matchLoop] at h
    split at h
    · cases h
      rfl
    · split at h
      · cases h
        rfl
      · obtain ⟨itr, -, h⟩ := bind_eq_ok.mp h
        split at h
        · cases h
          rfl
        · obtain ⟨⟨b₁, leaves₁⟩, hmatch, hloop⟩ := bind_eq_ok.mp h
          exact (ih hloop).trans (next_id_matchOrder hmatch)

/-- **Every order that is accepted uses up an id.** -/
theorem next_id_add {client_id client_order_id ticker_id qty : ℕ} {side : Side} {price : ℤ}
    (h : b.add client_id client_order_id ticker_id side price qty = .ok b') :
    b'.next_market_order_id_ = b.next_market_order_id_ + 1 := by
  obtain ⟨⟨b₁, leaves⟩, hcheck, hrest⟩ := bind_eq_ok.mp h
  have hchecked : b₁.next_market_order_id_ = b.next_market_order_id_ + 1 := by
    unfold checkForMatch at hcheck
    split at hcheck
    · exact next_id_matchLoop hcheck
    · cases hcheck
      rfl
  simp only at hrest
  split at hrest
  · obtain ⟨priority, -, hrest⟩ := bind_eq_ok.mp hrest
    obtain ⟨book, -, hrest⟩ := bind_eq_ok.mp hrest
    cases hrest
    exact hchecked
  · cases hrest
    exact hchecked

/-- A call that fits the arrays goes through exactly when the pools have room for its result. -/
theorem Holds.step_ok_iff {unique : Prop} {sh : Shape} {P : PriorityBook} {c : Call}
    (h : Holds unique b sh P) (hsound : P.Sound) (hrange : c.InRange)
    (hkey : unique → P.KeyFree c) (hslot : P.SlotFree c) :
    (∃ b', b.step c = .ok b') ↔ (P.step b.ticker_id_ c).1.Room := by
  constructor
  · rintro ⟨b', hstep⟩
    cases c with
    | add client_id client_order_id s price qty =>
      rcases add_holds h hsound hrange hkey hslot b.ticker_id_ with ⟨b'', sh', hrun, h', -⟩ | ⟨herr, -⟩
      · exact h'.room
      · cases hstep.symm.trans herr
    | cancel client_id order_id =>
      -- a cancel leaves some of the orders
      have hin : (P.step b.ticker_id_ (.cancel client_id order_id)).1.Within P := by
        simp only [PriorityBook.step, PriorityBook.cancel]
        split
        · exact ⟨fun s _ => List.Sublist.refl _, rfl⟩
        · exact PriorityBook.within_erase P _
      exact hin.room h.room
  · intro hroom
    rcases step_holds h hsound hrange hkey hslot with ⟨b', -, -, hstep, -⟩ | ⟨-, hfull⟩
    · exact ⟨b', hstep⟩
    · exact absurd hroom hfull

end MEOrderBook

/-! ## The server -/

namespace OrderServer

variable {s s' : OrderServer} {socket : ℕ} {rx_time : ℤ} {request : OMClientRequest}

/-- The server takes a record in when its client is in the tables and, if it is the next one of its
session, the sequencer has a place for it. -/
def TakesIn (s : OrderServer) (socket : ℕ) (request : OMClientRequest) : Prop :=
  request.me_client_request_.client_id_ < ME_MAX_NUM_CLIENTS ∧
    ((s.noted socket request).InSession socket request →
      s.fifo_sequencer_.pending_client_requests_.length < ME_MAX_PENDING_REQUESTS)

instance (s : OrderServer) (socket : ℕ) (request : OMClientRequest) :
    Decidable (s.TakesIn socket request) := inferInstanceAs (Decidable (_ ∧ _))

/-- Every request in the sequencer and in the engine's queue fits its types. -/
def QueuesOnWire (s : OrderServer) : Prop :=
  (∀ q ∈ s.fifo_sequencer_.pending_client_requests_, q.request_.OnWire) ∧
    ∀ r ∈ s.fifo_sequencer_.incoming_requests_, r.OnWire

theorem exists_onRequest_iff (rx_time : ℤ) :
    (∃ s', s.onRequest socket rx_time request = .ok s') ↔ s.TakesIn socket request := by
  unfold onRequest TakesIn
  by_cases hclient : request.me_client_request_.client_id_ < ME_MAX_NUM_CLIENTS
  · rw [if_pos hclient]
    by_cases hin : (s.noted socket request).InSession socket request
    · simp only [if_pos hin, accept, FIFOSequencer.addClientRequest, fifo_noted]
      by_cases hfull : s.fifo_sequencer_.pending_client_requests_.length ≥ ME_MAX_PENDING_REQUESTS
      · simp [hfull, hclient, hin]
      · simp [hfull, hclient, Nat.lt_of_not_le hfull]
    · simp [hin, hclient]
  · simp [hclient]

theorem QueuesOnWire.onRequest (h : s.QueuesOnWire) (hwire : request.me_client_request_.OnWire)
    (hstep : s.onRequest socket rx_time request = .ok s') : s'.QueuesOnWire := by
  obtain ⟨-, ⟨-, rfl⟩ | ⟨-, haccept⟩⟩ := onRequest_cases hstep
  · unfold QueuesOnWire
    rw [fifo_noted]
    exact h
  · obtain ⟨fifo, hfifo, hrest⟩ := bind_eq_ok.mp haccept
    unfold FIFOSequencer.addClientRequest at hfifo
    rw [fifo_noted] at hfifo
    split at hfifo
    · cases hfifo
    · cases hfifo
      cases hrest
      refine ⟨?_, h.2⟩
      intro q hq
      rcases List.mem_append.mp hq with hq | hq
      · exact h.1 q hq
      · rw [List.mem_singleton.mp hq]
        exact hwire

/-- Every record the server gets to in this event is taken in. -/
def TakesInAll (s : OrderServer) : Event → Prop
  | .read socket rx_time bytes =>
    Lib.Runs.Along (fun s r => s.onRequest socket rx_time r) (fun s r => s.TakesIn socket r)
      (s.setInbound socket ((s.sockets socket).inbound_data_ ++ bytes))
      (records ((s.sockets socket).inbound_data_ ++ bytes))
  | .readFinished _ => True

/-- The server goes on when it takes every record in. -/
theorem exists_step {event : Event} (h : s.QueuesOnWire) (htakes : s.TakesInAll event) :
    ∃ s', s.step event = .ok s' ∧ s'.QueuesOnWire := by
  cases event with
  | read socket rx_time bytes =>
    have hread : ∃ s₁, (records ((s.sockets socket).inbound_data_ ++ bytes)).foldlM
        (fun s r => s.onRequest socket rx_time r)
        (s.setInbound socket ((s.sockets socket).inbound_data_ ++ bytes)) = .ok s₁ ∧
          s₁.QueuesOnWire := by
      have hwire : ∀ r ∈ records ((s.sockets socket).inbound_data_ ++ bytes),
          r.me_client_request_.OnWire := by
        intro r hr
        obtain ⟨record, -, rfl⟩ := List.mem_map.mp hr
        exact OMClientRequest.onWire_ofBytes record
      refine Lib.Runs.exists_ok ?_ ?_ (Lib.Runs.Along.and_forall hwire htakes)
      · intro s r h hr
        obtain ⟨s', hstep⟩ := (exists_onRequest_iff rx_time).mpr hr.1
        exact ⟨s', hstep, h.onRequest hr.2 hstep⟩
      · exact h
    obtain ⟨s₁, hrecords, h₁⟩ := hread
    refine ⟨s₁.setInbound socket
      (Lib.Wire.rest OMClientRequest.size ((s.sockets socket).inbound_data_ ++ bytes)), ?_, h₁⟩
    show s.read socket rx_time bytes = _
    unfold read recvCallback
    rw [inbound_setInbound_self]
    exact bind_eq_ok.mpr ⟨s₁, hrecords, rfl⟩
  | readFinished std_sort =>
    refine ⟨s.recvFinishedCallback std_sort, rfl, ?_, ?_⟩
    · intro q hq
      cases hq
    · intro r hr
      rcases List.mem_append.mp hr with hr | hr
      · exact h.2 r hr
      · obtain ⟨q, hq, rfl⟩ := List.mem_map.mp hr
        exact h.1 q ((std_sort.perm _).mem_iff.mp hq)

end OrderServer

/-! ## The engine -/

/-- Nothing of a book changed, but perhaps the log of what it sent. -/
def MEOrderBook.Untouched (b b' : MEOrderBook) : Prop :=
  b'.book = b.book ∧ b'.next_market_order_id_ = b.next_market_order_id_

namespace MatchingEngine

variable {e e' : MatchingEngine} {r : MEClientRequest}

/-- Each book is the one of its ticker, and its memory is in order. -/
def Sane (e : MatchingEngine) : Prop :=
  ∀ t, (e.ticker_order_book_ t).ticker_id_ = t ∧
    ∃ sh P, MEOrderBook.Holds False (e.ticker_order_book_ t) sh P ∧ P.Sound

/-- An incoming order comes to a free price slot of its book. -/
def SlotFree (e : MatchingEngine) (r : MEClientRequest) : Prop :=
  ∀ c ∈ r.call?, (e.ticker_order_book_ r.ticker_id_).toPriorityBook.SlotFree c

/-- With the request carried out, neither pool of its book is used up. -/
def HasRoom (e : MatchingEngine) (r : MEClientRequest) : Prop :=
  ∀ c ∈ r.call?,
    ((e.ticker_order_book_ r.ticker_id_).toPriorityBook.step r.ticker_id_ c).1.Room

instance (e : MatchingEngine) (r : MEClientRequest) : Decidable (e.SlotFree r) :=
  inferInstanceAs (Decidable (∀ c ∈ r.call?, _))

instance (e : MatchingEngine) (r : MEClientRequest) : Decidable (e.HasRoom r) :=
  inferInstanceAs (Decidable (∀ c ∈ r.call?, _))

theorem sane_new : MatchingEngine.new.Sane := fun t =>
  ⟨rfl, Shape.empty, PriorityBook.empty, (MEOrderBook.refines_new t).holds False,
    PriorityBook.WF.empty.sound⟩

/-- A request that is a call goes through when its book carries the call out. -/
theorem process_eq_ok {c : Call} (hticker : r.ticker_id_ < ME_MAX_TICKERS)
    (hbook : (e.ticker_order_book_ r.ticker_id_).ticker_id_ = r.ticker_id_)
    (hc : r.call? = some c) :
    e.processClientRequest r = .ok e' ↔
      ∃ book, (e.ticker_order_book_ r.ticker_id_).step c = .ok book ∧
        e' = e.store r.ticker_id_ book
          (book.sent.drop (e.ticker_order_book_ r.ticker_id_).sent.length) := by
  unfold processClientRequest
  simp only [if_pos hticker, dispatch_eq_step hbook hc, bind_eq_ok]
  constructor
  · rintro ⟨book, hstep, hstore⟩
    exact ⟨book, hstep, (Except.ok.inj hstore).symm⟩
  · rintro ⟨book, hstep, rfl⟩
    exact ⟨book, hstep, rfl⟩

/-- **A valid request that comes to a free slot goes through exactly when there is room.** -/
theorem Sane.process_iff (h : e.Sane) (hvalid : r.Valid) (hqty : r.qty_ < 2 ^ 32)
    (hslot : e.SlotFree r) :
    ((∃ e', e.processClientRequest r = .ok e') ↔ e.HasRoom r) ∧
      ∀ e', e.processClientRequest r = .ok e' → e'.Sane := by
  obtain ⟨c, hc, hrange⟩ := hvalid.call hqty
  obtain ⟨hticker, sh, P, hholds, hsound⟩ := h r.ticker_id_
  have hslot' : P.SlotFree c := hholds.toPriorityBook_eq ▸ hslot c hc
  constructor
  · have hstep := hholds.step_ok_iff hsound hrange (fun hfalse => hfalse.elim) hslot'
    rw [hticker] at hstep
    have hroom : e.HasRoom r ↔ (P.step r.ticker_id_ c).1.Room := by
      unfold HasRoom
      rw [hc, hholds.toPriorityBook_eq]
      simp
    rw [hroom, ← hstep]
    constructor
    · rintro ⟨e', hprocess⟩
      obtain ⟨book, hbook, -⟩ := (process_eq_ok hvalid.2.1 hticker hc).mp hprocess
      exact ⟨book, hbook⟩
    · rintro ⟨book, hbook⟩
      exact ⟨_, (process_eq_ok hvalid.2.1 hticker hc).mpr ⟨book, hbook, rfl⟩⟩
  · intro e' hprocess t
    obtain ⟨book, hbook, rfl⟩ := (process_eq_ok hvalid.2.1 hticker hc).mp hprocess
    by_cases ht : t = r.ticker_id_
    · subst ht
      rw [store_self]
      rcases MEOrderBook.step_holds hholds hsound hrange (fun hfalse => hfalse.elim) hslot' with
        ⟨book', sh', P', hbook', hholds', hsound', hticker'⟩ | ⟨herr, -⟩
      · obtain rfl := Except.ok.inj (hbook.symm.trans hbook')
        exact ⟨hticker'.trans hticker, sh', P', hholds', hsound'⟩
      · cases hbook.symm.trans herr
    · rw [store_ne _ ht]
      exact h t

/-- **An invalid request does not leave the books alone**, if it does not stop the process. -/
theorem not_untouched_of_invalid (hvalid : ¬ r.Valid) (hclient : r.client_id_ < ME_MAX_NUM_CLIENTS)
    (h : e.processClientRequest r = .ok e') :
    r.ticker_id_ < ME_MAX_TICKERS ∧
      ¬ (e.ticker_order_book_ r.ticker_id_).Untouched (e'.ticker_order_book_ r.ticker_id_) := by
  unfold processClientRequest at h
  split at h
  · next hticker =>
    refine ⟨hticker, ?_⟩
    obtain ⟨book, hdispatch, hstore⟩ := bind_eq_ok.mp h
    cases hstore
    rw [store_self]
    unfold dispatch at hdispatch
    split at hdispatch
    · -- every NEW uses up a market order id
      intro huntouched
      have hnext := MEOrderBook.next_id_add hdispatch
      rw [huntouched.2] at hnext
      omega
    · -- the id of a CANCEL is looked up with `at`
      next htype =>
      have hoid : ¬ r.order_id_ < ME_MAX_ORDER_IDS := fun hoid =>
        hvalid ⟨hclient, hticker, hoid, .inl htype⟩
      unfold MEOrderBook.cancel MEOrderBook.findCancelable LimitBook.getKey at hdispatch
      rw [if_pos hclient, if_neg] at hdispatch
      · cases hdispatch
      · intro hrange
        exact hoid (of_decide_eq_true (Bool.and_eq_true_iff.mp hrange).2)
    · cases hdispatch
    · cases hdispatch
  · cases h

end MatchingEngine

/-! ## The exchange -/

namespace Exchange

variable {x x' : Exchange} {socket : ℕ} {rx_time : ℤ} {request : OMClientRequest}

/-- Neither component faults, and if the request is invalid every book is left as it was. -/
def Survives (x : Exchange) (socket : ℕ) (rx_time : ℤ) (request : OMClientRequest) : Prop :=
  ∃ x', x.handle socket rx_time request = .ok x' ∧
    (¬ request.me_client_request_.Valid →
      ∀ t, t < ME_MAX_TICKERS → (x.book t).Untouched (x'.book t))

/-- What an incoming record must meet. -/
def Acceptable (x : Exchange) (socket : ℕ) (request : OMClientRequest) : Prop :=
  x.order_server_.TakesIn socket request ∧
    ((x.order_server_.noted socket request).InSession socket request →
      request.me_client_request_.Valid ∧ x.matching_engine_.HasRoom request.me_client_request_)

/-- The server takes in what it gets to, and the request the engine gets to is valid, comes to a
free slot and finds room. -/
def Meets (x : Exchange) : Event → Prop
  | .server event => x.order_server_.TakesInAll event
  | .engine => ∀ r ∈ x.order_server_.fifo_sequencer_.incoming_requests_[x.next_read]?,
      r.Valid ∧ x.matching_engine_.SlotFree r ∧ x.matching_engine_.HasRoom r

/-- What the steps of a run keep. -/
def Kept (x : Exchange) : Prop := x.order_server_.QueuesOnWire ∧ x.matching_engine_.Sane

theorem kept_new : Kept new := by
  refine ⟨⟨?_, ?_⟩, MatchingEngine.sane_new⟩
  · intro q hq
    cases hq
  · intro r hr
    cases hr

/-- One step of either thread. -/
theorem Kept.exists_step {event : Event} (h : Kept x) (hmeets : x.Meets event) :
    ∃ x', x.step event = .ok x' ∧ Kept x' := by
  cases event with
  | server event =>
    obtain ⟨server, hstep, hserver⟩ := OrderServer.exists_step h.1 hmeets
    exact ⟨{ x with order_server_ := server }, bind_eq_ok.mpr ⟨server, hstep, rfl⟩, hserver, h.2⟩
  | engine =>
    show ∃ x', x.processNext = .ok x' ∧ Kept x'
    unfold processNext
    split
    · exact ⟨x, rfl, h⟩
    · next r hr =>
      obtain ⟨hvalid, hslot, hroom⟩ := hmeets r hr
      have hwire := h.1.2 r (List.mem_of_getElem? hr)
      obtain ⟨hiff, hsane⟩ := h.2.process_iff hvalid hwire.qty hslot
      obtain ⟨engine, hprocess⟩ := hiff.mpr hroom
      exact ⟨_, bind_eq_ok.mpr ⟨engine, hprocess, rfl⟩, h.1, hsane engine hprocess⟩

/-- A record that is not the next one of its session stops at the server. -/
theorem handle_of_not_inSession
    (hin : ¬ (x.order_server_.noted socket request).InSession socket request) :
    x.Survives socket rx_time request ↔ x.order_server_.TakesIn socket request := by
  unfold Survives handle
  simp only [if_neg hin, bind_eq_ok]
  rw [← OrderServer.exists_onRequest_iff rx_time]
  constructor
  · rintro ⟨x', ⟨server, hserver, -⟩, -⟩
    exact ⟨server, hserver⟩
  · rintro ⟨server, hserver⟩
    exact ⟨_, ⟨server, hserver, rfl⟩, fun _ t _ => ⟨rfl, rfl⟩⟩

/-- A record that is the next one of its session reaches the engine. -/
theorem handle_of_inSession (h : Kept x)
    (hin : (x.order_server_.noted socket request).InSession socket request)
    (hwire : request.me_client_request_.OnWire)
    (hslot : request.me_client_request_.Valid →
      x.matching_engine_.SlotFree request.me_client_request_) :
    x.Survives socket rx_time request ↔
      x.order_server_.TakesIn socket request ∧ request.me_client_request_.Valid ∧
        x.matching_engine_.HasRoom request.me_client_request_ := by
  unfold Survives handle
  simp only [if_pos hin, bind_eq_ok]
  rw [← OrderServer.exists_onRequest_iff rx_time]
  constructor
  · rintro ⟨x', ⟨server, hserver, engine, hprocess, hx'⟩, huntouched⟩
    obtain rfl := Except.ok.inj hx'
    have hvalid : request.me_client_request_.Valid := by
      by_contra hvalid
      have htakes := (OrderServer.exists_onRequest_iff rx_time).mp ⟨server, hserver⟩
      obtain ⟨hticker, htouched⟩ :=
        MatchingEngine.not_untouched_of_invalid hvalid htakes.1 hprocess
      exact htouched (huntouched hvalid _ hticker)
    obtain ⟨hiff, -⟩ := h.2.process_iff hvalid hwire.qty (hslot hvalid)
    exact ⟨⟨server, hserver⟩, hvalid, hiff.mp ⟨engine, hprocess⟩⟩
  · rintro ⟨⟨server, hserver⟩, hvalid, hroom⟩
    obtain ⟨hiff, -⟩ := h.2.process_iff hvalid hwire.qty (hslot hvalid)
    obtain ⟨engine, hprocess⟩ := hiff.mpr hroom
    exact ⟨_, ⟨server, hserver, engine, hprocess, rfl⟩, fun hinvalid => absurd hvalid hinvalid⟩

/-- **What the exchange survives**: a run whose records and requests all meet the condition goes
through, and in the state it reaches a further record is survived exactly when it is acceptable. -/
theorem survives_iff {events : List Event} (hmeets : Lib.Runs.Along step Meets new events) :
    ∃ x, new.run events = .ok x ∧ ∀ socket rx_time request, request.me_client_request_.OnWire →
      (request.me_client_request_.Valid →
        x.matching_engine_.SlotFree request.me_client_request_) →
      (x.Survives socket rx_time request ↔ x.Acceptable socket request) := by
  obtain ⟨x, hrun, hkept⟩ := Lib.Runs.exists_ok (fun _ _ => Kept.exists_step) kept_new hmeets
  refine ⟨x, hrun, ?_⟩
  intro socket rx_time request hwire hslot
  unfold Acceptable
  by_cases hin : (x.order_server_.noted socket request).InSession socket request
  · rw [handle_of_inSession hkept hin hwire hslot]
    constructor
    · intro h
      exact ⟨h.1, fun _ => h.2⟩
    · intro h
      exact ⟨h.1, h.2 hin⟩
  · rw [handle_of_not_inSession hin]
    constructor
    · intro h
      exact ⟨h, fun hin' => absurd hin' hin⟩
    · intro h
      exact h.1

/-- A sort that keeps the order of requests received at the same time. -/
def stableSort : StdSort where
  sort := List.insertionSort fun a b => a.recv_time_ ≤ b.recv_time_
  perm := List.perm_insertionSort _
  sorted := fun l => (List.pairwise_insertionSort _ l).imp fun h => Int.not_lt.mpr h

/-- A record of client 1: sequence number 1, NEW, ticker 0, id 7, BUY 5 at 10. -/
def newRecord : List UInt8 :=
  [1, 0, 0, 0, 0, 0, 0, 0, 1, 1, 0, 0, 0, 0, 0, 0, 0, 7, 0, 0, 0, 0, 0, 0, 0, 1,
    10, 0, 0, 0, 0, 0, 0, 0, 5, 0, 0, 0]

instance (x : Exchange) : DecidablePred x.Meets
  | .server (.read ..) => inferInstanceAs (Decidable (Lib.Runs.Along _ _ _ _))
  | .server (.readFinished _) => isTrue trivial
  | .engine => inferInstanceAs (Decidable (∀ r ∈ _, _))

/-- The order is read, published and processed. -/
theorem survives_iff_newRecord :
    ∃ x, new.run [.server (.read 0 5 newRecord), .server (.readFinished stableSort), .engine] =
        .ok x ∧
      ∀ socket rx_time request, request.me_client_request_.OnWire →
        (request.me_client_request_.Valid →
          x.matching_engine_.SlotFree request.me_client_request_) →
        (x.Survives socket rx_time request ↔ x.Acceptable socket request) :=
  survives_iff (by decide +kernel)

/-- Client 1 cancels an order id behind the end of its table. -/
def strayCancel : OMClientRequest where
  seq_num_ := 1
  me_client_request_ :=
    { type_ := .CANCEL, client_id_ := 1, ticker_id_ := 0, order_id_ := ME_MAX_ORDER_IDS,
      side_ := .BUY, price_ := 10, qty_ := 5 }

/-- The lookup of the order throws, and nothing catches it. -/
theorem not_survives_strayCancel :
    ¬ ∀ (events : List Event) (x : Exchange) (socket : ℕ) (rx_time : ℤ)
      (request : OMClientRequest), new.run events = .ok x →
      request.me_client_request_.OnWire →
      (x.order_server_.noted socket request).InSession socket request →
      x.Survives socket rx_time request := by
  intro h
  have hwire : strayCancel.me_client_request_.OnWire := 
    ⟨by decide, by decide, by decide, ⟨by decide, by decide⟩, ⟨by decide, by decide⟩, by decide⟩
  obtain ⟨x', hhandle, -⟩ := h [] new 0 5 strayCancel rfl hwire (by decide)
  have hthrows : new.handle 0 5 strayCancel = .error .outOfRange := rfl
  cases hthrows.symm.trans hhandle

end Exchange

end TradingEcosystem
