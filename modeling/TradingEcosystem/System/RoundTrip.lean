import TradingEcosystem.Exchange.Answers
import TradingEcosystem.Exchange.OrderServerThread
import TradingEcosystem.System.Relay
import TradingEcosystem.System.Requests

/-!
# Requests and Their Answers

The order gateways of all clients, the exchange, and a connection for each gateway between them, as
byte streams in both directions.  All threads take their steps in any order; of a connection only this
is known, that what arrives is the first part of what was sent.

- `Act` : the steps of the exchange
- `Served` : the engine has processed the first requests of its queue
- `answers_come_back` : every request is answered, to its client, and once
-/

namespace TradingEcosystem

open MEOrderBook (Call)
open MatchingEngine (Dispatched)

namespace RoundTrip

/-! ## The exchange -/

/-- A step of the order server or of the matching engine. -/
inductive Act where
  | server (event : OrderServer.Event)
  | engine
  | respond
  | flush (socket : ℕ)

def Act.event : Act → Relay.Event
  | .server event => .exchange (.server event)
  | .engine => .exchange .engine
  | .respond => .respond
  | .flush socket => .flush socket

def Act.server? : Act → Option OrderServer.Event
  | .server event => some event
  | .engine | .respond | .flush _ => none

/-- What the TCP server of the order server calls back. -/
def serverEvents (acts : List Act) : List OrderServer.Event := acts.filterMap Act.server?

variable {client_of : ℕ → ℕ} {x x' : Relay}

/-- **Requests come in as if there were no responses**; induction on the steps. -/
theorem server_run {acts : List Act} :
    ∀ {x x' : Relay}, x.run (acts.map Act.event) = .ok x' →
      x.server.incoming.run (serverEvents acts) = .ok x'.server.incoming := by
  induction acts with
  | nil =>
    intro x x' hrun
    obtain rfl : x = x' := Except.ok.inj hrun
    rfl
  | cons act acts ih =>
    intro x x' hrun
    obtain ⟨x₁, hstep, hrest⟩ := Lib.Runs.foldlM_cons_eq_ok.mp hrun
    have hacts := ih hrest
    cases act with
    | server event =>
      obtain ⟨exchange, hexchange, hstep⟩ := bind_eq_ok.mp hstep
      obtain rfl := Except.ok.inj hstep
      obtain ⟨server, hserver, hexchange⟩ := bind_eq_ok.mp hexchange
      obtain rfl := Except.ok.inj hexchange
      exact Lib.Runs.foldlM_cons_eq_ok.mpr ⟨_, OrderServer.incoming_step hserver, hacts⟩
    | engine =>
      obtain ⟨exchange, hexchange, hstep⟩ := bind_eq_ok.mp hstep
      obtain rfl := Except.ok.inj hstep
      have hsame : exchange.order_server_ = x.exchange.order_server_ := by
        have hprocess : x.exchange.processNext = .ok exchange := hexchange
        unfold Exchange.processNext at hprocess
        split at hprocess
        · obtain rfl := Except.ok.inj hprocess
          rfl
        · obtain ⟨engine, -, hprocess⟩ := bind_eq_ok.mp hprocess
          obtain rfl := Except.ok.inj hprocess
          rfl
      have hserver : ({ x with exchange := exchange } : Relay).server = x.server := hsame
      rw [hserver] at hacts
      exact hacts
    | respond =>
      have hserver : x₁.server.incoming = x.server.incoming := by
        have hrespond : x.respond = .ok x₁ := hstep
        unfold Relay.respond at hrespond
        split at hrespond
        · obtain rfl := Except.ok.inj hrespond
          rfl
        · obtain ⟨server, hsend, hrespond⟩ := bind_eq_ok.mp hrespond
          obtain rfl := Except.ok.inj hrespond
          exact OrderServer.incoming_sendResponse hsend
      rw [hserver] at hacts
      exact hacts
    | flush socket =>
      obtain rfl : x.flush socket = x₁ := Except.ok.inj hstep
      have hserver : (x.flush socket).server.incoming = x.server.incoming :=
        OrderServer.incoming_flushSocket .all
      rw [hserver] at hacts
      exact hacts

/-- The queue between the order server and the matching engine. -/
def queue (x : Relay) : List MEClientRequest := x.server.fifo_sequencer_.incoming_requests_

/-- The requests the matching engine has processed. -/
def processed (x : Relay) : List MEClientRequest := (queue x).take x.exchange.next_read

/-- **The engine is where the requests it has processed have led it.** -/
structure Served (x : Relay) : Prop where
  next_read : x.exchange.next_read ≤ (queue x).length
  engine : MatchingEngine.new.run (processed x) = .ok x.exchange.matching_engine_

theorem served_new (client_of : ℕ → ℕ) : Served (Relay.new client_of) where
  next_read := Nat.le_refl _
  engine := rfl

/-- The order server writes to the end of the queue. -/
theorem queue_isPrefix {s s' : OrderServer} {event : OrderServer.Event}
    (h : s.step event = .ok s') :
    s.fifo_sequencer_.incoming_requests_ <+: s'.fifo_sequencer_.incoming_requests_ := by
  cases event with
  | read socket rx_time bytes =>
    obtain ⟨s₁, hrecords, rfl⟩ := OrderServer.read_eq_ok h
    have hkept : s₁.fifo_sequencer_.incoming_requests_ = s.fifo_sequencer_.incoming_requests_ := by
      refine Lib.Runs.invariant_of_step (I := fun t : OrderServer =>
        t.fifo_sequencer_.incoming_requests_ = s.fifo_sequencer_.incoming_requests_) ?_ ?_ hrecords
      · intro t request t' ht hstep
        obtain ⟨-, ⟨-, rfl⟩ | ⟨-, haccept⟩⟩ := OrderServer.onRequest_cases hstep
        · rw [OrderServer.fifo_noted]
          exact ht
        · -- a request that is accepted waits for the sequencer
          obtain ⟨fifo, hfifo, haccept⟩ := bind_eq_ok.mp haccept
          obtain rfl := Except.ok.inj haccept
          unfold FIFOSequencer.addClientRequest at hfifo
          split at hfifo
          · cases hfifo
          · obtain rfl := Except.ok.inj hfifo
            simp only [OrderServer.fifo_noted]
            exact ht
      · rfl
    show _ <+: s₁.fifo_sequencer_.incoming_requests_
    rw [hkept]
  | readFinished std_sort =>
    obtain rfl := Except.ok.inj h
    exact List.prefix_append _ _

/-- What was processed stays processed when the queue grows. -/
theorem Served.server (h : Served x) {server : OrderServer}
    (hqueue : queue x <+: server.fifo_sequencer_.incoming_requests_) :
    Served (x.setServer server) := by
  obtain ⟨more, hmore⟩ := hqueue
  have hprocessed : processed (x.setServer server) = processed x := by
    show server.fifo_sequencer_.incoming_requests_.take x.exchange.next_read = _
    rw [← hmore, List.take_append_of_le_length h.next_read]
    rfl
  constructor
  · show x.exchange.next_read ≤ server.fifo_sequencer_.incoming_requests_.length
    rw [← hmore, List.length_append]
    exact h.next_read.trans (Nat.le_add_right ..)
  · rw [hprocessed]
    exact h.engine

theorem Served.step {act : Act} (h : Served x) (hstep : x.step act.event = .ok x') : Served x' := by
  cases act with
  | server event =>
    obtain ⟨exchange, hexchange, hstep⟩ := bind_eq_ok.mp hstep
    obtain rfl := Except.ok.inj hstep
    obtain ⟨server, hserver, hexchange⟩ := bind_eq_ok.mp hexchange
    obtain rfl := Except.ok.inj hexchange
    exact h.server (queue_isPrefix hserver)
  | engine =>
    obtain ⟨exchange, hexchange, hstep⟩ := bind_eq_ok.mp hstep
    obtain rfl := Except.ok.inj hstep
    have hprocess : x.exchange.processNext = .ok exchange := hexchange
    unfold Exchange.processNext at hprocess
    split at hprocess
    · obtain rfl := Except.ok.inj hprocess
      exact h
    · next request hrequest =>
      obtain ⟨engine, hengine, hprocess⟩ := bind_eq_ok.mp hprocess
      obtain rfl := Except.ok.inj hprocess
      have hget : (queue x)[x.exchange.next_read]? = some request := hrequest
      constructor
      · exact (List.getElem?_eq_some_iff.mp hget).1
      · show MatchingEngine.new.run ((queue x).take (x.exchange.next_read + 1)) = _
        rw [List.take_add_one, hget]
        exact Lib.Runs.foldlM_append_eq_ok.mpr
          ⟨_, h.engine, Lib.Runs.foldlM_cons_eq_ok.mpr ⟨_, hengine, rfl⟩⟩
  | respond =>
    have hrespond : x.respond = .ok x' := hstep
    unfold Relay.respond at hrespond
    split at hrespond
    · obtain rfl := Except.ok.inj hrespond
      exact h
    · next r _ =>
      obtain ⟨server, hsend, hrespond⟩ := bind_eq_ok.mp hrespond
      obtain rfl := Except.ok.inj hrespond
      obtain ⟨-, -, -, hfifo, -⟩ := OrderServer.sendResponse_eq_ok hsend
      have hqueue : queue x <+: server.fifo_sequencer_.incoming_requests_ := by
        rw [hfifo]
        exact List.prefix_refl _
      exact ⟨(h.server hqueue).next_read, (h.server hqueue).engine⟩
  | flush socket =>
    obtain rfl : x.flush socket = x' := Except.ok.inj hstep
    exact h.server (List.prefix_refl _)

theorem served_run {acts : List Act} (hrun : (Relay.new client_of).run (acts.map Act.event) = .ok x) :
    Served x := by
  unfold Relay.run at hrun
  rw [List.foldlM_map] at hrun
  exact Lib.Runs.invariant_of_step (fun _ _ _ h hstep => Served.step h hstep) (served_new client_of)
    hrun

/-! ## The requests that come in -/

/-- Distinct values in each class are distinct, if a value tells its class. -/
theorem nodup_filterMap {α β γ : Type} [DecidableEq γ] {f : α → Option β} {g : α → γ} {h : β → γ}
    {l : List α} (hclass : ∀ a ∈ l, ∀ b, f a = some b → h b = g a)
    (hnd : ∀ c, ((l.filter fun a => decide (g a = c)).filterMap f).Nodup) :
    (l.filterMap f).Nodup := by
  unfold List.Nodup at hnd ⊢
  rw [List.pairwise_filterMap, List.pairwise_iff_forall_sublist]
  intro a a' hsub b hb b' hb' heq
  have ha : a ∈ l := hsub.subset (List.mem_cons_self ..)
  have ha' : a' ∈ l := hsub.subset (List.mem_cons_of_mem _ (List.mem_singleton_self _))
  -- equal values are of one class
  have hsame : g a' = g a := by
    rw [← hclass a ha b hb, ← hclass a' ha' b' hb', heq]
  have hpair : [a, a'].Sublist (l.filter fun x => decide (g x = g a)) := by
    have hfilter := hsub.filter fun x => decide (g x = g a)
    simpa [hsame] using hfilter
  have hclass' := hnd (g a)
  rw [List.pairwise_filterMap, List.pairwise_iff_forall_sublist] at hclass'
  exact hclass' hpair b hb b' hb' heq

/-- The order id that a request for a ticker introduces, with its client. -/
def newKeyIn (t : ℕ) (r : MEClientRequest) : Option (ℕ × ℕ) :=
  (if r.ticker_id_ = t then r.call? else none).bind Call.newKey

theorem newKeys_callsOf (t : ℕ) (requests : List MEClientRequest) :
    (callsOf t requests).filterMap Call.newKey = requests.filterMap (newKeyIn t) :=
  List.filterMap_filterMap

theorem client_newKeyIn {t : ℕ} {r : MEClientRequest} {key : ℕ × ℕ} (h : newKeyIn t r = some key) :
    key.1 = r.client_id_ := by
  unfold newKeyIn MEClientRequest.call? at h
  split at h
  · cases htype : r.type_ with
    | NEW =>
      simp only [htype] at h
      rw [← Option.some.inj h]
    | CANCEL | INVALID | UNKNOWN _ =>
      simp only [htype] at h
      cases h
  · cases h

section intake

open OrderServer (AllAccepted Sequenced onSocket)
open Gateways (requests)
open GatewayThread (requestRecords)

variable {turns : ℕ → List GatewayTurn} {s : OrderServer}

/-- The order server has taken in first requests of the gateways, and handed them on. -/
structure TakenIn (turns : ℕ → List GatewayTurn) (s : OrderServer) : Prop where
  accepted : AllAccepted (fun k => requestRecords (requests turns k)) s
  sequenced : s.Sequenced

/-- The requests accepted on a connection are the first of its gateway. -/
theorem TakenIn.onSocket_isPrefix (h : TakenIn turns s) (k : ℕ) :
    (onSocket k s.accepted).map (·.me_client_request_) <+: requests turns k := by
  have hrecords := (h.accepted.received k).map (·.me_client_request_)
  rw [GatewayThread.map_requestRecords] at hrecords
  rw [h.accepted.accepted]
  exact hrecords

/-- Whatever is accepted comes from the gateway of its connection. -/
theorem TakenIn.mem_accepted (h : TakenIn turns s) {a : Received} (ha : a ∈ s.accepted) :
    a.request.me_client_request_ ∈ requests turns a.socket := by
  rw [h.accepted.accepted] at ha
  exact (Gateways.mem_requestRecords (h.accepted.mem ha)).2

/-- The accepted requests of a client are those of its connection. -/
theorem TakenIn.filter_client (h : TakenIn turns s) (hgateways : Gateways client_of turns)
    (hclients : Function.Injective client_of) (k : ℕ) :
    s.accepted.filter (fun a => decide (a.client_id = client_of k)) =
      s.accepted.filter fun a => decide (a.socket = k) := by
  apply List.filter_congr
  intro a ha
  have hclient : a.client_id = client_of a.socket := (hgateways.mem_own (h.mem_accepted ha)).1
  rw [hclient]
  exact decide_eq_decide.mpr hclients.eq_iff

/-- What is in the queue was accepted. -/
theorem TakenIn.queue_subperm (h : TakenIn turns s) :
    s.fifo_sequencer_.incoming_requests_.Subperm
      (s.accepted.map fun a => a.request.me_client_request_) :=
  (List.sublist_append_left ..).subperm.trans h.sequenced.subperm

/-- **What is in the queue is valid**, if the requests of each gateway are. -/
theorem TakenIn.validCalls (h : TakenIn turns s) (hgateways : Gateways client_of turns)
    (hclients : Function.Injective client_of) {base : ℤ} {t : ℕ}
    (hvalid : ∀ k, ValidCalls base (callsOf t (requests turns k))) {rs : List MEClientRequest}
    (hrs : rs.Sublist s.fifo_sequencer_.incoming_requests_) :
    ValidCalls base (callsOf t rs) := by
  have hsubperm := hrs.subperm.trans h.queue_subperm
  constructor
  · intro c hc
    obtain ⟨r, hr, hcall⟩ := List.mem_filterMap.mp hc
    obtain ⟨a, ha, rfl⟩ := List.mem_map.mp (hsubperm.subset hr)
    exact (hvalid a.socket).valid c (List.mem_filterMap.mpr ⟨_, h.mem_accepted ha, hcall⟩)
  · -- keys are repeated neither by one client nor by two
    have hall : (s.accepted.filterMap fun a => newKeyIn t a.request.me_client_request_).Nodup := by
      refine nodup_filterMap (g := Received.client_id) (h := Prod.fst)
        (fun a _ key hkey => client_newKeyIn hkey) fun c => ?_
      cases hfirst : s.accepted.filter fun a => decide (a.client_id = c) with
      | nil => exact List.nodup_nil
      | cons a rest =>
        have ha : a ∈ s.accepted.filter fun a => decide (a.client_id = c) :=
          hfirst ▸ List.mem_cons_self ..
        obtain ⟨ha, hc⟩ := List.mem_filter.mp ha
        have hclient : c = client_of a.socket :=
          (of_decide_eq_true hc).symm.trans (hgateways.mem_own (h.mem_accepted ha)).1
        rw [← hfirst, hclient, h.filter_client hgateways hclients]
        have hprefix := ((h.onSocket_isPrefix a.socket).filterMap (newKeyIn t)).sublist
        have hnodup := (hvalid a.socket).keys_nodup
        rw [newKeys_callsOf] at hnodup
        have hsocket := hnodup.sublist hprefix
        unfold onSocket at hsocket
        rw [List.map_map, List.filterMap_map] at hsocket
        exact hsocket
    obtain ⟨l, hperm, hsub⟩ := hsubperm
    have hkeys := hsub.filterMap (newKeyIn t)
    rw [List.filterMap_map] at hkeys
    rw [newKeys_callsOf]
    exact ((hperm.filterMap (newKeyIn t)).nodup_iff).mp (hall.sublist hkeys)

/-- **Each client's requests in the queue** are some of those its gateway sent, each once. -/
theorem TakenIn.subperm_client (h : TakenIn turns s) (hgateways : Gateways client_of turns)
    (hclients : Function.Injective client_of) (k : ℕ) :
    (s.fifo_sequencer_.incoming_requests_.filter fun r =>
      decide (r.client_id_ = client_of k)).Subperm (requests turns k) := by
  have hfilter := h.queue_subperm.filter fun r => decide (r.client_id_ = client_of k)
  rw [List.filter_map] at hfilter
  have hclient := h.filter_client hgateways hclients k
  refine hfilter.trans ?_
  refine List.Subperm.trans ?_ (h.onSocket_isPrefix k).sublist.subperm
  unfold onSocket
  rw [List.map_map, ← hclient]
  exact List.Subperm.refl _

/-- When the sequencer has handed everything on, all accepted requests of a client are in the queue. -/
theorem TakenIn.perm_client (h : TakenIn turns s) (hgateways : Gateways client_of turns)
    (hclients : Function.Injective client_of)
    (hpending : s.fifo_sequencer_.pending_client_requests_ = []) (k : ℕ) :
    (s.fifo_sequencer_.incoming_requests_.filter fun r =>
      decide (r.client_id_ = client_of k)).Perm
      ((onSocket k s.accepted).map (·.me_client_request_)) := by
  have hall : s.fifo_sequencer_.incoming_requests_.Perm
      (s.accepted.map fun a => a.request.me_client_request_) := by
    have hsequenced := h.sequenced
    unfold OrderServer.Sequenced OrderServer.handedOn at hsequenced
    rw [hpending, List.map_nil, List.append_nil] at hsequenced
    exact hsequenced
  have hfilter := hall.filter fun r => decide (r.client_id_ = client_of k)
  rw [List.filter_map] at hfilter
  unfold onSocket
  rw [List.map_map, ← h.filter_client hgateways hclients k]
  exact hfilter

end intake

/-! ## The answers that come back -/

/-- The responses that are no executions. -/
def answersIn (responses : List MEClientResponse) : List MEClientResponse :=
  responses.filter fun r => decide (r.type_ ≠ .FILLED)

/-- The answers to a client answer its requests. -/
theorem answered_client {requests : List MEClientRequest} {responses : List MEClientResponse}
    (h : List.Forall₂ Answers requests responses) (c : ℕ) :
    List.Forall₂ Answers (requests.filter fun r => decide (r.client_id_ = c))
      ((responses.filter fun r => decide (r.client_id_ = c)).map MEClientResponse.held) := by
  rw [List.forall₂_map_right_iff]
  refine List.rel_filter (R := Answers) ?_ h
  intro request response hanswers
  show decide (request.client_id_ = c) = true ↔ decide (response.client_id_ = c) = true
  rw [hanswers.1]

/-- What the engine answered to a client, in the order in which it was sent. -/
theorem answersIn_responsesTo (x : Relay) (c : ℕ) :
    answersIn ((x.responsesTo c).map MEClientResponse.held) =
      ((answers x.exchange.matching_engine_.sent).filter fun r =>
        decide (r.client_id_ = c)).map MEClientResponse.held := by
  unfold answersIn answers Relay.responsesTo Relay.responses
  rw [List.filter_map, List.filter_comm]
  rfl

/-! ## The whole system -/

open OrderServer (bytesOn)
open Gateways (requests)
open GatewayThread (arriving)

/-- A moment of the whole system: the gateways after some turns, the exchange after some steps.  What
has arrived on a connection is the first part of what was sent, in both directions. -/
structure Connected (client_of : ℕ → ℕ) (turns : ℕ → List GatewayTurn) (acts : List Act)
    (threads : ℕ → GatewayThread) (x : Relay) : Prop where
  gateways : ∀ k, (GatewayThread.new (client_of k)).run (turns k) = .ok (threads k)
  exchange : (Relay.new client_of).run (acts.map Act.event) = .ok x
  up : ∀ k, bytesOn k (serverEvents acts) <+: (threads k).tcp_socket_.wire
  down : ∀ k, arriving (turns k) <+: (x.server.sockets k).wire

/-- Nothing is on its way any more: everything sent on connection `k` has arrived, and the exchange
has done all it was asked. -/
structure AtRest (turns : ℕ → List GatewayTurn) (acts : List Act) (threads : ℕ → GatewayThread)
    (x : Relay) (k : ℕ) : Prop where
  up : bytesOn k (serverEvents acts) = (threads k).tcp_socket_.outbound
  sequenced : x.server.fifo_sequencer_.pending_client_requests_ = []
  processed : x.exchange.next_read = (queue x).length
  sent : x.next_sent = x.responses.length ∧ (x.server.sockets k).outbound_data_ = []
  down : arriving (turns k) = (x.server.sockets k).wire

variable {turns : ℕ → List GatewayTurn} {acts : List Act} {threads : ℕ → GatewayThread}

/-- A gateway sends the records of its requests. -/
theorem Connected.outbound (h : Connected client_of turns acts threads x)
    (hgateways : Gateways client_of turns) (k : ℕ) :
    (threads k).tcp_socket_.outbound = GatewayThread.requestStream (requests turns k) := by
  obtain ⟨t, hrun, hstreams, hsent⟩ :=
    (GatewayThread.streams_new (client_of k)).run (hgateways.fits k) (hgateways.accepts k)
  obtain rfl : t = threads k := Except.ok.inj (hrun.symm.trans (h.gateways k))
  rw [hstreams.outbound, hsent]
  rfl

/-- **The order server takes in** what the gateways sent. -/
theorem Connected.takenIn (h : Connected client_of turns acts threads x)
    (hgateways : Gateways client_of turns) : TakenIn turns x.server.incoming := by
  have hserver : OrderServer.new.run (serverEvents acts) = .ok x.server.incoming :=
    server_run h.exchange
  have harrives : OrderServer.Arrives
      (fun k => GatewayThread.requestRecords (requests turns k))
      fun k => [] ++ bytesOn k (serverEvents acts) := by
    intro k
    show bytesOn k (serverEvents acts) <+: GatewayThread.requestStream (requests turns k)
    rw [← h.outbound hgateways k]
    exact (h.up k).trans (List.prefix_append ..)
  obtain ⟨-, hok⟩ := OrderServer.allAccepted_new.run hgateways.carries hgateways.read_back
    OrderServer.framed_new harrives
  exact ⟨hok _ hserver, Lib.Runs.invariant_of_step
    (fun _ _ _ hs hstep => OrderServer.Sequenced.step hs hstep) OrderServer.sequenced_new hserver⟩

/-- All requests of a gateway whose bytes have arrived are accepted. -/
theorem Connected.accepted_all (h : Connected client_of turns acts threads x)
    (hgateways : Gateways client_of turns) {k : ℕ}
    (hup : bytesOn k (serverEvents acts) = (threads k).tcp_socket_.outbound) :
    OrderServer.onSocket k x.server.accepted =
      GatewayThread.requestRecords (requests turns k) := by
  have hframed := (OrderServer.lawful_run (server_run h.exchange)).framed k
  rw [hup, h.outbound hgateways k, hgateways.records_requestStream] at hframed
  have hsame : x.server.accepted = x.server.received := (h.takenIn hgateways).accepted.accepted
  rw [hsame]
  exact hframed

/-- The exchange with the gateways at the other ends of its connections. -/
def joined (turns : ℕ → List GatewayTurn) (threads : ℕ → GatewayThread) (x : Relay) : Relay :=
  { x with delivered := fun k => arriving (turns k), gateways := fun k => (threads k).receiver }

/-- **The gateways read** what the order server sent. -/
theorem Connected.relays (h : Connected client_of turns acts threads x)
    (hgateways : Gateways client_of turns) : (joined turns threads x).Relays client_of := by
  have hkept := Relay.kept_run h.exchange
  have hjoined : Relay.Kept client_of (joined turns threads x) :=
    { queues := hkept.queues
      engine := hkept.engine
      next_sent := hkept.next_sent
      next_seq := hkept.next_seq
      outbound := hkept.outbound
      delivered := h.down
      received := fun k => by
        have hreceived := GatewayThread.received_run (OrderGateway.received_new (client_of k))
          (h.gateways k)
        rw [List.nil_append] at hreceived
        exact hreceived }
  refine hjoined.relays fun c k hbound => ?_
  -- a client is bound to the connection of its first request
  have haccepted := (h.takenIn hgateways).accepted
  have hfirst := (haccepted.session c).bound
  have hbound' : x.server.incoming.cid_tcp_socket_ c = some k := hbound
  rw [hbound', eq_comm, Option.map_eq_some_iff] at hfirst
  obtain ⟨a, ha, rfl⟩ := hfirst
  obtain ⟨ha, hc⟩ := List.mem_filter.mp (List.mem_of_head? ha)
  have hmem : a ∈ x.server.incoming.accepted := haccepted.accepted ▸ ha
  exact (hgateways.mem_own ((h.takenIn hgateways).mem_accepted hmem)).1.symm.trans
    (of_decide_eq_true hc)

/-- What the engine has processed, a gateway sent. -/
theorem Connected.exists_sender (h : Connected client_of turns acts threads x)
    (hgateways : Gateways client_of turns) {r : MEClientRequest} (hr : r ∈ processed x) :
    ∃ k, r ∈ requests turns k := by
  have htaken := h.takenIn hgateways
  have hsub : (processed x).Sublist x.server.incoming.fifo_sequencer_.incoming_requests_ :=
    List.take_sublist ..
  obtain ⟨a, ha, rfl⟩ := List.mem_map.mp ((hsub.subperm.trans htaken.queue_subperm).subset hr)
  exact ⟨a.socket, htaken.mem_accepted ha⟩

/-- The engine has processed valid requests, if the gateways send such. -/
theorem Connected.validCalls (h : Connected client_of turns acts threads x)
    (hgateways : Gateways client_of turns) (hclients : Function.Injective client_of) {base : ℕ → ℤ}
    (hvalid : ∀ k t, t < ME_MAX_TICKERS → ValidCalls (base t) (callsOf t (requests turns k)))
    {t : ℕ} (ht : t < ME_MAX_TICKERS) : ValidCalls (base t) (callsOf t (processed x)) :=
  (h.takenIn hgateways).validCalls hgateways hclients (fun k => hvalid k t ht)
    (List.take_sublist ..)

/-- **The engine answers** what it has processed. -/
theorem Connected.answered (h : Connected client_of turns acts threads x)
    (hgateways : Gateways client_of turns) (hclients : Function.Injective client_of)
    (hdis : ∀ k, Dispatched (requests turns k)) {base : ℕ → ℤ}
    (hvalid : ∀ k t, t < ME_MAX_TICKERS → ValidCalls (base t) (callsOf t (requests turns k))) :
    List.Forall₂ Answers (processed x) (answers x.exchange.matching_engine_.sent) := by
  have hprocessed : Dispatched (processed x) := by
    intro r hr
    obtain ⟨k, hk⟩ := h.exists_sender hgateways hr
    exact hdis k r hk
  have hadm : ∀ t, t < ME_MAX_TICKERS →
      PriorityBook.empty.Along PriorityBook.Admits t (callsOf t (processed x)) := fun t ht =>
    PriorityBook.along_admits.mpr (PriorityBook.ValidCalls.admitted t
      (h.validCalls hgateways hclients hvalid ht))
  obtain ⟨responses, hsent, hall⟩ := MatchingEngine.answered_run MatchingEngine.refines_new
    hprocessed hadm (served_run h.exchange).engine
  rw [hsent]
  exact hall

end RoundTrip

namespace RoundTrip

open OrderServer (bytesOn)
open GatewayThread (arriving)

def newOrder : MEClientRequest :=
  { type_ := .NEW, client_id_ := 1, ticker_id_ := 0, order_id_ := 1, side_ := .BUY,
    price_ := 100, qty_ := 10 }

def cancelOrder : MEClientRequest := { newOrder with type_ := .CANCEL }

/-- What the exchange answers. -/
def accepted : MEClientResponse :=
  { type_ := .ACCEPTED, client_id_ := 1, ticker_id_ := 0, client_order_id_ := 1,
    market_order_id_ := 1, side_ := .BUY, price_ := 100, exec_qty_ := 0, leaves_qty_ := 10 }

def canceled : MEClientResponse :=
  { type_ := .CANCELED, client_id_ := 1, ticker_id_ := 0, client_order_id_ := 1,
    market_order_id_ := 1, side_ := .BUY, price_ := 100, leaves_qty_ := 10 }

/-- Client 1 sends an order, cancels it when it has been accepted, and waits for the answer. -/
def orderTurns (k : ℕ) : List GatewayTurn :=
  if k = 0 then
    [⟨[], .all, [newOrder]⟩, ⟨OMClientResponse.toBytes ⟨1, accepted⟩, .all, [cancelOrder]⟩,
      ⟨[], .all, []⟩, ⟨OMClientResponse.toBytes ⟨2, canceled⟩, .all, []⟩]
  else []

/-- What the exchange does meanwhile. -/
def orderActs : List Act :=
  [.server (.read 0 5 (OMClientRequest.toBytes ⟨1, newOrder⟩)),
    .server (.readFinished Exchange.stableSort), .engine, .respond, .flush 0,
    .server (.read 0 9 (OMClientRequest.toBytes ⟨2, cancelOrder⟩)),
    .server (.readFinished Exchange.stableSort), .engine, .respond, .flush 0]

theorem gateways_orderTurns : Gateways (· + 1) orderTurns := by
  have hturns : ∀ k, ∀ x ∈ orderTurns k, k = 0 ∧ x.os = .all ∧
      (x.client_requests = [newOrder] ∨ x.client_requests = [cancelOrder] ∨
        x.client_requests = []) := by
    intro k x hx
    unfold orderTurns at hx
    split at hx
    · next hk =>
      simp only [List.mem_cons, List.not_mem_nil, or_false] at hx
      rcases hx with rfl | rfl | rfl | rfl <;> simp [hk]
    · cases hx
  have hfew : ∀ k, (orderTurns k).flatMap GatewayTurn.client_requests ≠ [] → k = 0 := by
    intro k hne
    obtain ⟨r, hr⟩ := List.exists_mem_of_ne_nil _ hne
    obtain ⟨x, hx, -⟩ := List.mem_flatMap.mp hr
    exact (hturns k x hx).1
  have hnew : newOrder.OnWire :=
    ⟨by decide, by decide, by decide, ⟨by decide, rfl⟩, ⟨by decide, by decide⟩, by decide⟩
  have hcancel : cancelOrder.OnWire :=
    ⟨by decide, by decide, by decide, ⟨by decide, rfl⟩, ⟨by decide, by decide⟩, by decide⟩
  constructor
  · intro k x hx r hr
    obtain ⟨rfl, -, heq | heq | heq⟩ := hturns k x hx
    · rw [heq] at hr
      rw [List.mem_singleton.mp hr]
      exact ⟨rfl, ⟨by decide, rfl⟩, hnew⟩
    · rw [heq] at hr
      rw [List.mem_singleton.mp hr]
      exact ⟨rfl, ⟨by decide, rfl⟩, hcancel⟩
    · rw [heq] at hr
      cases hr
  · intro k hne
    rw [hfew k hne]
    decide
  · exact fun k k' _ _ heq => Nat.succ_inj.mp heq
  · intro k x hx
    unfold GatewayThread.Fits
    obtain ⟨-, -, heq | heq | heq⟩ := hturns k x hx
    all_goals
      rw [heq]
      decide
  · intro k
    unfold orderTurns
    split
    · exact Nat.lt_two_pow_self.trans_le (Nat.pow_le_pow_right (by decide) (by decide))
    · exact Nat.two_pow_pos 64
  · intro k
    refine Lib.Runs.Along.mono ?_ (Lib.Runs.along_trivial.and_forall (hturns k))
    intro t x hx _
    rw [hx.2.2.1]
    rfl

/-- Where the gateway of client 1 and the exchange end up. -/
theorem runs_orderTurns :
    ∃ t x, (GatewayThread.new 1).run (orderTurns 0) = .ok t ∧
      (Relay.new (· + 1)).run (orderActs.map Act.event) = .ok x ∧
      t.tcp_socket_.wire = bytesOn 0 (serverEvents orderActs) ∧
      t.tcp_socket_.outbound_data_ = [] ∧
      t.gateway.incoming_responses_ = [accepted, canceled] ∧
      (x.server.sockets 0).wire = arriving (orderTurns 0) ∧
      (x.server.sockets 0).outbound_data_ = [] ∧
      x.server.fifo_sequencer_.pending_client_requests_ = [] ∧
      x.exchange.next_read = (queue x).length ∧ x.next_sent = x.responses.length := by
  obtain ⟨t, ht⟩ : ∃ t, (GatewayThread.new 1).run (orderTurns 0) = .ok t :=
    exists_ok_of_isOk (by decide +kernel)
  obtain ⟨x, hx⟩ : ∃ x, (Relay.new (· + 1)).run (orderActs.map Act.event) = .ok x :=
    exists_ok_of_isOk (by decide +kernel)
  have hgateway : ((GatewayThread.new 1).run (orderTurns 0)).toOption.map (fun t =>
      (t.tcp_socket_.wire, t.tcp_socket_.outbound_data_, t.gateway.incoming_responses_)) =
      some (bytesOn 0 (serverEvents orderActs), [], [accepted, canceled]) := by decide +kernel
  have hexchange : ((Relay.new (· + 1)).run (orderActs.map Act.event)).toOption.map (fun x =>
      ((x.server.sockets 0).wire, (x.server.sockets 0).outbound_data_,
        x.server.fifo_sequencer_.pending_client_requests_.length,
        (x.exchange.next_read, (queue x).length), (x.next_sent, x.responses.length))) =
      some (arriving (orderTurns 0), [], 0, (2, 2), (2, 2)) := by decide +kernel
  rw [ht] at hgateway
  rw [hx] at hexchange
  have hgateway := Option.some.inj hgateway
  have hexchange := Option.some.inj hexchange
  simp only [Prod.mk.injEq] at hgateway hexchange
  obtain ⟨hwire, hout, hgot⟩ := hgateway
  obtain ⟨hsent, hnone, hpending, ⟨hread, hqueue⟩, hnext, hresponses⟩ := hexchange
  exact ⟨t, x, ht, hx, hwire, hout, hgot, hsent, hnone,
    List.eq_nil_of_length_eq_zero hpending, hread.trans hqueue.symm,
    hnext.trans hresponses.symm⟩

/-- The requests of client 1, which is alone. -/
theorem validCalls_orderTurns (k t : ℕ) :
    ValidCalls 0 (callsOf t (Gateways.requests orderTurns k)) := by
  by_cases hk : k = 0
  · subst hk
    by_cases ht : t = 0
    · subst ht
      exact ⟨by decide, by decide⟩
    · have hnil : callsOf t (Gateways.requests orderTurns 0) = [] := by
        simp [callsOf, Gateways.requests, orderTurns, newOrder, cancelOrder, Ne.symm ht]
      rw [hnil]
      exact ⟨by simp, List.nodup_nil⟩
  · have hnil : callsOf t (Gateways.requests orderTurns k) = [] := by
      simp [callsOf, Gateways.requests, orderTurns, hk]
    rw [hnil]
    exact ⟨by simp, List.nodup_nil⟩

theorem dispatched_orderTurns (k : ℕ) : Dispatched (Gateways.requests orderTurns k) := by
  by_cases hk : k = 0
  · simp [Dispatched, Gateways.requests, orderTurns, hk, newOrder, cancelOrder,
      MEClientRequest.call?, ME_MAX_TICKERS]
  · simp [Dispatched, Gateways.requests, orderTurns, hk]

theorem bytesOn_orderActs {k : ℕ} (hk : k ≠ 0) : bytesOn k (serverEvents orderActs) = [] := by
  have hevents : serverEvents orderActs =
      [.read 0 5 (OMClientRequest.toBytes ⟨1, newOrder⟩), .readFinished Exchange.stableSort,
        .read 0 9 (OMClientRequest.toBytes ⟨2, cancelOrder⟩), .readFinished Exchange.stableSort] :=
    rfl
  rw [hevents]
  unfold bytesOn
  simp only [List.flatMap_cons, List.flatMap_nil, if_neg (Ne.symm hk), List.append_nil]

/-- The whole system, when client 1 has got both answers. -/
theorem connected_orderTurns : ∃ threads x, Connected (· + 1) orderTurns orderActs threads x ∧
    AtRest orderTurns orderActs threads x 0 ∧
    (threads 0).gateway.incoming_responses_ = [accepted, canceled] := by
  obtain ⟨t, x, ht, hx, hwire, hout, hgot, hsent, hnone, hpending, hread, hnext⟩ := runs_orderTurns
  -- the other gateways do nothing
  let threads : ℕ → GatewayThread := fun k => if k = 0 then t else GatewayThread.new (k + 1)
  have hconnected : Connected (· + 1) orderTurns orderActs threads x := by
    constructor
    · intro k
      by_cases hk : k = 0
      · subst hk
        exact ht
      · simp only [threads, orderTurns, if_neg hk]
        rfl
    · exact hx
    · intro k
      by_cases hk : k = 0
      · subst hk
        exact hwire ▸ List.prefix_rfl
      · rw [bytesOn_orderActs hk]
        exact List.nil_prefix
    · intro k
      by_cases hk : k = 0
      · subst hk
        exact hsent ▸ List.prefix_rfl
      · have hnil : arriving (orderTurns k) = [] := by
          simp [arriving, orderTurns, hk]
        rw [hnil]
        exact List.nil_prefix
  refine ⟨threads, x, hconnected, ⟨?_, hpending, hread, ⟨hnext, hnone⟩, hsent.symm⟩, hgot⟩
  show _ = t.tcp_socket_.wire ++ t.tcp_socket_.outbound_data_
  rw [hout, List.append_nil, hwire]

end RoundTrip

end TradingEcosystem
