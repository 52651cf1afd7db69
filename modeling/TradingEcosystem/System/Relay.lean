import TradingEcosystem.Exchange.Responses
import TradingEcosystem.Exchange.Survival
import TradingEcosystem.Trading.OrderGateway

/-!
# Responses Reach their Clients

The exchange, its connections and the order gateway at the other end of each.  The server reads
requests of any kind off any connection, the engine processes them, the server sends the responses
one by one, and each connection delivers its bytes in chunks of any size, all in any order.

- `Relay` : the components and the bytes on their way
- `Kept` : what every step keeps
- `Relays` : what the gateways have forwarded
- `responses_reach_clients` : every response reaches its client once and in order
-/

namespace TradingEcosystem

structure Relay where
  exchange : Exchange := .new
  /-- How many responses the server has read from its queue. -/
  next_sent : ℕ := 0
  /-- The bytes each connection has delivered so far. -/
  delivered : ℕ → List UInt8 := fun _ => []
  /-- The gateway at the other end of each connection. -/
  gateways : ℕ → OrderGateway

namespace Relay

/-- The client at the other end of connection `k` is `client_of k`. -/
def new (client_of : ℕ → ℕ) : Relay where
  gateways := fun k => OrderGateway.new (client_of k)

def server (x : Relay) : OrderServer := x.exchange.order_server_

/-- Everything the engine wrote to the queue of the server. -/
def responses (x : Relay) : List MEClientResponse :=
  clientResponses x.exchange.matching_engine_.sent

def responsesTo (x : Relay) (c : ℕ) : List MEClientResponse :=
  x.responses.filter fun r => decide (r.client_id_ = c)

def setServer (x : Relay) (server : OrderServer) : Relay :=
  { x with exchange := { x.exchange with order_server_ := server } }

/-- The server sends the next response. -/
def respond (x : Relay) : Except Fault Relay :=
  match x.responses[x.next_sent]? with
  | none => .ok x
  | some r => do
    let server ← x.server.sendResponse r
    .ok { x.setServer server with next_sent := x.next_sent + 1 }

/-- The system takes the send buffer of a connection. -/
def flush (x : Relay) (socket : ℕ) : Relay :=
  x.setServer { x.server with
    sockets := Function.update x.server.sockets socket ((x.server.sockets socket).flush .all) }

/-- The next `n` bytes of a connection arrive. -/
def deliver (x : Relay) (socket n : ℕ) : Relay :=
  let bytes := ((x.server.sockets socket).wire.drop (x.delivered socket).length).take n
  { x with
    delivered := Function.update x.delivered socket (x.delivered socket ++ bytes)
    gateways := Function.update x.gateways socket ((x.gateways socket).read bytes) }

inductive Event where
  | exchange (event : Exchange.Event)
  | respond
  | flush (socket : ℕ)
  | deliver (socket n : ℕ)

def step (x : Relay) : Event → Except Fault Relay
  | .exchange event => do
    let exchange ← x.exchange.step event
    .ok { x with exchange := exchange }
  | .respond => x.respond
  | .flush socket => .ok (x.flush socket)
  | .deliver socket n => .ok (x.deliver socket n)

def run (x : Relay) (events : List Event) : Except Fault Relay := events.foldlM step x

/-! ## What is claimed -/

/-- Every client is bound to a connection of its own gateway. -/
def Owns (client_of : ℕ → ℕ) (x : Relay) : Prop :=
  ∀ c k, x.server.cid_tcp_socket_ c = some k → client_of k = c

/-- Every response has been sent, and every byte on connection `k` has arrived. -/
def AllDelivered (x : Relay) (k : ℕ) : Prop :=
  x.next_sent = x.responses.length ∧ (x.server.sockets k).outbound_data_ = [] ∧
    x.delivered k = (x.server.sockets k).wire

/-- The gateways forwarded what the engine produced for their clients, unaltered and in order. -/
structure Relays (client_of : ℕ → ℕ) (x : Relay) : Prop where
  rejected : ∀ k, (x.gateways k).rejected = []
  forwarded : ∀ k, (x.gateways k).incoming_responses_ <+:
    (x.responsesTo (client_of k)).map MEClientResponse.held
  complete : ∀ c k, x.server.cid_tcp_socket_ c = some k → x.AllDelivered k →
    (x.gateways k).incoming_responses_ = (x.responsesTo c).map MEClientResponse.held
  /-- Nothing is produced for a client that sent nothing. -/
  silent : ∀ c, x.server.cid_tcp_socket_ c = none → x.responsesTo c = []

/-! ## What every step keeps -/

/-- The responses sent so far. -/
def sentResponses (x : Relay) : List MEClientResponse := x.responses.take x.next_sent

/-- Those to one client. -/
def sentTo (x : Relay) (c : ℕ) : List MEClientResponse :=
  x.sentResponses.filter fun r => decide (r.client_id_ = c)

/-- Those to the clients that are bound to connection `k`. -/
def sentOn (x : Relay) (k : ℕ) : List MEClientResponse :=
  x.sentResponses.filter fun r => decide (x.server.cid_tcp_socket_ r.client_id_ = some k)

/-- The bytes of the responses to one client. -/
def stream (responses : List MEClientResponse) : List UInt8 :=
  ((OrderGateway.numbered 1 (responses.map MEClientResponse.held)).map
    OMClientResponse.toBytes).flatten

structure Kept (client_of : ℕ → ℕ) (x : Relay) : Prop where
  queues : x.server.QueuesFrom x.server.Bound
  engine : x.exchange.matching_engine_.Courteous x.server.Bound
  next_sent : x.next_sent ≤ x.responses.length
  next_seq : ∀ c, x.server.cid_next_outgoing_seq_num_ c = (x.sentTo c).length + 1
  outbound : x.Owns client_of → ∀ k, (x.server.sockets k).outbound = stream (x.sentOn k)
  delivered : ∀ k, x.delivered k <+: (x.server.sockets k).wire
  received : ∀ k, OrderGateway.Received (client_of k) (x.gateways k) (x.delivered k)

variable {client_of : ℕ → ℕ} {x x' : Relay}

theorem kept_new (client_of : ℕ → ℕ) : Kept client_of (new client_of) where
  queues := ⟨fun _ hq => absurd hq List.not_mem_nil, fun _ hr => absurd hr List.not_mem_nil⟩
  engine := MatchingEngine.courteous_new
  next_sent := Nat.le_refl _
  next_seq := fun _ => rfl
  outbound := fun _ _ => rfl
  delivered := fun _ => List.nil_prefix
  received := fun k => OrderGateway.received_new (client_of k)

/-- **The server reads or sequences requests.** -/
theorem Kept.serverStep {server : OrderServer} (h : Kept client_of x)
    (hsame : OrderServer.SameOutgoing x.server server) (hqueues : server.QueuesFrom server.Bound) :
    Kept client_of (x.setServer server) where
  queues := hqueues
  engine := h.engine.mono fun _ hc => hc.mono hsame.bound
  next_sent := h.next_sent
  next_seq := fun c => by
    show server.cid_next_outgoing_seq_num_ c = _
    rw [hsame.next_seq]
    exact h.next_seq c
  outbound := fun howns k => by
    -- whoever was answered was bound before
    have hsent : (x.setServer server).sentOn k = x.sentOn k := by
      apply List.filter_congr
      intro r hr
      obtain ⟨-, k', hk'⟩ := (h.engine.sent r (List.mem_of_mem_take hr)).client_id
      have hstays := hsame.bound _ _ hk'
      show decide (server.cid_tcp_socket_ r.client_id_ = some k) = _
      rw [hk', hstays]
    rw [hsent]
    exact (hsame.outbound k).trans (h.outbound (fun c k hk => howns c k (hsame.bound c k hk)) k)
  delivered := fun k => by
    show _ <+: (server.sockets k).wire
    rw [hsame.wire]
    exact h.delivered k
  received := h.received

/-- **The engine processes a request** of a client that can be answered. -/
theorem Kept.engineStep {e : MatchingEngine} {n : ℕ} (h : Kept client_of x)
    (hsent : x.exchange.matching_engine_.sent <+: e.sent) (he : e.Courteous x.server.Bound) :
    Kept client_of
      { x with exchange := { x.exchange with matching_engine_ := e, next_read := n } } := by
  obtain ⟨more, hmore⟩ := hsent
  have hresponses : clientResponses e.sent = x.responses ++ clientResponses more := by
    rw [← hmore, clientResponses_append]
    rfl
  have htake : (clientResponses e.sent).take x.next_sent = x.sentResponses := by
    rw [hresponses, List.take_append_of_le_length h.next_sent]
    rfl
  refine ⟨h.queues, he, ?_, fun c => ?_, fun howns k => ?_, h.delivered, h.received⟩
  · show x.next_sent ≤ (clientResponses e.sent).length
    rw [hresponses, List.length_append]
    exact h.next_sent.trans (Nat.le_add_right ..)
  · unfold sentTo sentResponses responses
    simp only [htake]
    exact h.next_seq c
  · unfold sentOn sentResponses responses
    simp only [htake]
    exact h.outbound howns k

/-- Under ownership, what is sent on the connection of a client is what is sent to it. -/
theorem sentOn_eq (howns : x.Owns client_of) {c k : ℕ}
    (hbound : x.server.cid_tcp_socket_ c = some k) : x.sentOn k = x.sentTo c := by
  apply List.filter_congr
  intro r _
  apply decide_eq_decide.mpr
  constructor
  · intro hr
    exact (howns _ _ hr).symm.trans (howns _ _ hbound)
  · intro hr
    rw [hr]
    exact hbound

theorem stream_concat (responses : List MEClientResponse) (r : MEClientResponse) :
    stream (responses ++ [r]) =
      stream responses ++ OMClientResponse.toBytes ⟨responses.length + 1, r⟩ := by
  have hbytes : OMClientResponse.toBytes ⟨(1 + responses.length) % 2 ^ 64, r.held⟩ =
      OMClientResponse.toBytes ⟨responses.length + 1, r⟩ := by
    have hseq : Lib.Wire.toBytes 8 ((1 + responses.length) % 2 ^ 64) =
        Lib.Wire.toBytes 8 (1 + responses.length) := Lib.Wire.toBytes_mod 8 _
    unfold OMClientResponse.toBytes
    rw [r.toBytes_held, hseq, Nat.add_comm]
  unfold stream
  rw [List.map_append, List.map_singleton, OrderGateway.numbered_concat, List.length_map,
    List.map_append, List.flatten_append, List.map_singleton, hbytes, List.flatten_singleton]

/-- **The server sends a response** on the connection of its client. -/
theorem Kept.respond (h : Kept client_of x) (hstep : x.respond = .ok x') : Kept client_of x' := by
  unfold Relay.respond at hstep
  split at hstep
  · cases hstep
    exact h
  · next r hr =>
    obtain ⟨server, hsend, hstep⟩ := bind_eq_ok.mp hstep
    cases hstep
    obtain ⟨k, hk, hsockets, hfifo, hnext, hwire, hothers, hout⟩ :=
      OrderServer.sendResponse_eq_ok hsend
    have hbound : OrderServer.Bound server = OrderServer.Bound x.server := by
      unfold OrderServer.Bound
      rw [hsockets]
    have htake : x.responses.take (x.next_sent + 1) = x.sentResponses ++ [r] := by
      rw [List.take_add_one, hr]
      rfl
    refine ⟨?queues, ?engine, ?sent, fun c => ?next_seq, fun howns k' => ?outbound,
      fun k' => ?delivered, h.received⟩
    case queues =>
      show OrderServer.QueuesFrom server.Bound server
      unfold OrderServer.QueuesFrom
      rw [hbound, hfifo]
      exact h.queues
    case engine =>
      show MatchingEngine.Courteous server.Bound _
      rw [hbound]
      exact h.engine
    case sent =>
      exact (List.getElem?_eq_some_iff.mp hr).1
    case next_seq =>
      show server.cid_next_outgoing_seq_num_ c =
        ((x.responses.take (x.next_sent + 1)).filter _).length + 1
      rw [hnext, htake, List.filter_append, List.length_append]
      by_cases hc : r.client_id_ = c
      · -- the client's counter goes up with the response it is sent
        subst hc
        have hlast : [r].filter (fun r' => decide (r'.client_id_ = r.client_id_)) = [r] :=
          List.filter_cons_of_pos (decide_eq_true rfl)
        rw [Function.update_self, h.next_seq, hlast]
        rfl
      · have hlast : [r].filter (fun r' => decide (r'.client_id_ = c)) = [] :=
          List.filter_cons_of_neg fun heq => hc (of_decide_eq_true heq)
        rw [Function.update_of_ne (Ne.symm hc), h.next_seq, hlast]
        rfl
    case outbound =>
      have howns' : x.Owns client_of := fun c k hc => howns c k (by rw [← hsockets] at hc; exact hc)
      show (server.sockets k').outbound =
        stream ((x.responses.take (x.next_sent + 1)).filter fun r =>
          decide (server.cid_tcp_socket_ r.client_id_ = some k'))
      rw [htake, List.filter_append, hsockets]
      by_cases hk' : k' = k
      · -- the connection of its client, whose number is its client's counter
        subst hk'
        have hlast : [r].filter (fun r' =>
            decide (x.server.cid_tcp_socket_ r'.client_id_ = some k')) = [r] :=
          List.filter_cons_of_pos (decide_eq_true hk)
        rw [hlast]
        show _ = stream (x.sentOn k' ++ [r])
        rw [stream_concat, hout, h.outbound howns', h.next_seq, sentOn_eq howns' hk]
      · have hother : ¬ x.server.cid_tcp_socket_ r.client_id_ = some k' := by
          intro heq
          rw [hk] at heq
          exact hk' (Option.some.inj heq).symm
        have hlast : [r].filter (fun r' =>
            decide (x.server.cid_tcp_socket_ r'.client_id_ = some k')) = [] :=
          List.filter_cons_of_neg fun heq => hother (of_decide_eq_true heq)
        rw [hlast, List.append_nil, hothers k' hk']
        exact h.outbound howns' k'
    case delivered =>
      show _ <+: (server.sockets k').wire
      rw [hwire]
      exact h.delivered k'

theorem Kept.flush (h : Kept client_of x) (socket : ℕ) : Kept client_of (x.flush socket) := by
  have hsockets : ∀ k, ((x.flush socket).server.sockets k).outbound =
      (x.server.sockets k).outbound ∧
      (x.server.sockets k).wire <+: ((x.flush socket).server.sockets k).wire := by
    intro k
    show (Function.update x.server.sockets socket _ k).outbound = _ ∧
      _ <+: (Function.update x.server.sockets socket _ k).wire
    by_cases hk : k = socket
    · subst hk
      rw [Function.update_self]
      constructor
      · rw [TCPSocket.outbound_flush]
        apply congrArg (_ ++ ·)
        exact List.take_of_length_le (Nat.le_refl _)
      · exact List.prefix_append ..
    · rw [Function.update_of_ne hk]
      exact ⟨rfl, List.prefix_refl _⟩
  exact ⟨h.queues, h.engine, h.next_sent, h.next_seq,
    fun howns k => (hsockets k).1.trans (h.outbound howns k),
    fun k => (h.delivered k).trans (hsockets k).2, h.received⟩

/-- **A chunk arrives** at the gateway. -/
theorem Kept.deliver (h : Kept client_of x) (socket n : ℕ) :
    Kept client_of (x.deliver socket n) := by
  refine ⟨h.queues, h.engine, h.next_sent, h.next_seq, h.outbound, fun k => ?_, fun k => ?_⟩
  · show Function.update x.delivered socket _ k <+: (x.server.sockets k).wire
    by_cases hk : k = socket
    · subst hk
      rw [Function.update_self]
      obtain ⟨more, hmore⟩ := h.delivered k
      rw [← hmore, List.drop_left]
      exact (List.prefix_append_right_inj _).mpr (List.take_prefix ..)
    · rw [Function.update_of_ne hk]
      exact h.delivered k
  · show OrderGateway.Received _ (Function.update x.gateways socket _ k)
      (Function.update x.delivered socket _ k)
    by_cases hk : k = socket
    · subst hk
      rw [Function.update_self, Function.update_self]
      exact (h.received k).read _
    · rw [Function.update_of_ne hk, Function.update_of_ne hk]
      exact h.received k

/-- **Every step** keeps it. -/
theorem Kept.step {event : Event} (h : Kept client_of x) (hstep : x.step event = .ok x') :
    Kept client_of x' := by
  cases event with
  | exchange event =>
    obtain ⟨exchange, hexchange, hstep⟩ := bind_eq_ok.mp hstep
    cases hstep
    cases event with
    | server event =>
      obtain ⟨server, hserver, hexchange⟩ := bind_eq_ok.mp hexchange
      cases hexchange
      obtain ⟨hsame, hqueues⟩ := OrderServer.SameOutgoing.step h.queues hserver
      exact h.serverStep hsame hqueues
    | engine =>
      have hprocess : x.exchange.processNext = .ok exchange := hexchange
      unfold Exchange.processNext at hprocess
      split at hprocess
      · cases hprocess
        exact h
      · next r hr =>
        obtain ⟨e, he, hprocess⟩ := bind_eq_ok.mp hprocess
        cases hprocess
        have hfrom : r.From x.server.Bound := h.queues.2 r (List.mem_of_getElem? hr)
        exact h.engineStep (MatchingEngine.sent_process he) (h.engine.process hfrom he)
  | respond => exact h.respond hstep
  | flush socket =>
    cases hstep
    exact h.flush socket
  | deliver socket n =>
    cases hstep
    exact h.deliver socket n

theorem kept_run {events : List Event} (hrun : (new client_of).run events = .ok x) :
    Kept client_of x :=
  Lib.Runs.invariant_of_step (fun _ _ _ => Kept.step) (kept_new client_of) hrun

/-! ## What the gateways forward -/

/-- The records a gateway has read are the first ones of those sent to it. -/
theorem Kept.records (h : Kept client_of x) (howns : x.Owns client_of) (k : ℕ) :
    OrderGateway.records (x.delivered k) <+:
        OrderGateway.numbered 1 ((x.sentOn k).map MEClientResponse.held) ∧
      (x.delivered k = (x.server.sockets k).outbound →
        OrderGateway.records (x.delivered k) =
          OrderGateway.numbered 1 ((x.sentOn k).map MEClientResponse.held)) := by
  set sent := (x.sentOn k).map MEClientResponse.held
  have hwire : ∀ r ∈ sent, r.OnWire := by
    intro r hr
    obtain ⟨r', hr', rfl⟩ := List.mem_map.mp hr
    have haddressed := h.engine.sent r' (List.mem_of_mem_take (List.mem_of_mem_filter hr'))
    refine haddressed.onWire_held fun c hc => ?_
    exact hc.1.trans_le (by decide)
  have hsize : ∀ record ∈ (OrderGateway.numbered 1 sent).map OMClientResponse.toBytes,
      record.length = OMClientResponse.size := by
    intro record hrecord
    obtain ⟨r, -, rfl⟩ := List.mem_map.mp hrecord
    exact r.length_toBytes
  have hout : (x.server.sockets k).outbound =
      ((OrderGateway.numbered 1 sent).map OMClientResponse.toBytes).flatten := h.outbound howns k
  rw [← OrderGateway.ofBytes_numbered 1 hwire]
  constructor
  · have hinitial : x.delivered k <+: (x.server.sockets k).outbound :=
      (h.delivered k).trans (List.prefix_append ..)
    rw [hout] at hinitial
    exact (Lib.Wire.whole_isPrefix OrderGateway.size_pos hsize hinitial).map _
  · intro hall
    unfold OrderGateway.records
    rw [hall, hout, Lib.Wire.whole_of_flatten OrderGateway.size_pos hsize]

/-- What a gateway forwards of the records it has read. -/
theorem Kept.forwards (h : Kept client_of x) {k : ℕ} {responses : List MEClientResponse}
    (hclient : ∀ r ∈ responses, r.client_id_ = client_of k)
    (hrecords : OrderGateway.records (x.delivered k) = OrderGateway.numbered 1 responses) :
    (x.gateways k).incoming_responses_ = responses ∧ (x.gateways k).rejected = [] := by
  have hreceived := h.received k
  unfold OrderGateway.Received at hreceived
  rw [hreceived, hrecords]
  exact OrderGateway.numbered_forwarded (g := OrderGateway.new (client_of k)) hclient rfl

/-- A connection of which no client is the owner carries nothing. -/
theorem sentOn_eq_nil {k : ℕ} (howns : x.Owns client_of)
    (hbound : x.server.cid_tcp_socket_ (client_of k) ≠ some k) : x.sentOn k = [] := by
  apply List.filter_eq_nil_iff.mpr
  intro r _ hr
  have hk := of_decide_eq_true hr
  rw [howns _ _ hk] at hbound
  exact hbound hk

theorem Kept.relays (h : Kept client_of x) (howns : x.Owns client_of) : x.Relays client_of := by
  have hclient : ∀ k, ∀ r ∈ (x.sentOn k).map MEClientResponse.held,
      r.client_id_ = client_of k := by
    intro k r hr
    obtain ⟨r', hr', rfl⟩ := List.mem_map.mp hr
    exact (howns _ _ (of_decide_eq_true (List.mem_filter.mp hr').2)).symm
  -- what has been read is an initial part of what was sent
  have hinitial : ∀ k, (x.gateways k).incoming_responses_ <+:
      (x.sentOn k).map MEClientResponse.held ∧ (x.gateways k).rejected = [] := by
    intro k
    have hrecords := List.prefix_iff_eq_take.mp (h.records howns k).1
    rw [← OrderGateway.numbered_take] at hrecords
    obtain ⟨hincoming, hrejected⟩ := h.forwards
      (fun r hr => hclient k r (List.mem_of_mem_take hr)) hrecords
    rw [hincoming]
    exact ⟨List.take_prefix .., hrejected⟩
  constructor
  · exact fun k => (hinitial k).2
  · intro k
    refine (hinitial k).1.trans (List.IsPrefix.map _ ?_)
    by_cases hbound : x.server.cid_tcp_socket_ (client_of k) = some k
    · rw [sentOn_eq howns hbound]
      exact (List.take_prefix ..).filter _
    · rw [sentOn_eq_nil howns hbound]
      exact List.nil_prefix
  · rintro c k hbound ⟨hsent, hout, hdelivered⟩
    have hall : x.delivered k = (x.server.sockets k).outbound := by
      unfold TCPSocket.outbound
      rw [hout, List.append_nil, hdelivered]
    obtain ⟨hincoming, -⟩ := h.forwards (hclient k) ((h.records howns k).2 hall)
    rw [hincoming, sentOn_eq howns hbound]
    unfold sentTo sentResponses responsesTo
    rw [hsent, List.take_length]
  · intro c hbound
    apply List.filter_eq_nil_iff.mpr
    intro r hr hc
    obtain ⟨-, k, hk⟩ := (h.engine.sent r hr).client_id
    rw [of_decide_eq_true hc, hbound] at hk
    cases hk

/-- **Responses reach their clients**, each once and in order: the server knows a socket for every
response, and if every client owns the connection it is bound to, each gateway forwards the
responses to its client. -/
theorem responses_reach_clients {events : List Event} (hrun : (new client_of).run events = .ok x) :
    (∀ r ∈ x.responses, x.server.sendResponse r ≠ .error .assert) ∧
      (x.Owns client_of → x.Relays client_of) := by
  have h := kept_run hrun
  constructor
  · intro r hr
    exact OrderServer.sendResponse_ne_assert (h.engine.sent r hr).client_id
  · exact h.relays

/-- A new order of client 1, and its answer on the way back in two chunks. -/
def newOrderAnswered : List Event :=
  [.exchange (.server (.read 0 5 Exchange.newRecord)),
    .exchange (.server (.readFinished Exchange.stableSort)), .exchange .engine, .respond,
    .flush 0, .deliver 0 30, .deliver 0 20]

theorem responses_reach_clients_newOrderAnswered :
    ∃ x, (new fun _ => 1).run newOrderAnswered = .ok x ∧
      x.Owns (fun _ => 1) ∧ (x.gateways 0).incoming_responses_.length = 1 ∧
      (∀ r ∈ x.responses, x.server.sendResponse r ≠ .error .assert) ∧
      (x.Owns (fun _ => 1) → x.Relays fun _ => 1) := by
  have hrun : ∃ x, (new fun _ => 1).run newOrderAnswered = .ok x ∧
      x.server.cid_tcp_socket_ = Function.update (fun _ => none) 1 (some 0) ∧
      (x.gateways 0).incoming_responses_.length = 1 := ⟨_, rfl, rfl, rfl⟩
  obtain ⟨x, hrun, hsockets, hforwarded⟩ := hrun
  refine ⟨x, hrun, ?_, hforwarded, responses_reach_clients hrun⟩
  intro c k hk
  rw [hsockets] at hk
  by_contra hc
  rw [Function.update_of_ne (Ne.symm hc)] at hk
  cases hk

end Relay

end TradingEcosystem
