import TradingEcosystem.Common.TcpServer
import TradingEcosystem.Exchange.Responses
import TradingEcosystem.Exchange.Survival

/-!
# The Loop of the Order Server

`OrderServer::run` and `TCPServer::sendAndRecv`: each turn polls for connections, reads and writes
every socket, lets the sequencer publish when something was read, and sends the responses that the
matching engine has produced.

- `OrderServerThread.turn` : one turn, with what the system does in it
- `OrderServerThread.Between` : what holds between two turns
- `OrderServerThread.order_server_turns` : every connection is served in every turn, and a run of
  the loop is a run of the callbacks
-/

namespace TradingEcosystem

open OrderServer (Event)

namespace OrderServer

/-- What the system does when `sendAndRecv` is called on a socket. -/
structure SocketCalls where
  rx_time : ℤ := 0
  /-- What `recvmsg` reads. -/
  bytes : List UInt8 := []
  os : SendSyscall := .all

/-- The second half of `TCPSocket::sendAndRecv`. -/
def flushSocket (s : OrderServer) (socket : ℕ) (os : SendSyscall) : OrderServer :=
  { s with sockets := Function.update s.sockets socket ((s.sockets socket).flush os) }

/-- `TCPSocket::sendAndRecv` on a connection; the callback is only called if something was read. -/
def sendAndRecv (s : OrderServer) (socket : ℕ) (calls : SocketCalls) : Except Fault OrderServer := do
  let s ← (if calls.bytes.length > 0 then s.read socket calls.rx_time calls.bytes else .ok s)
  .ok (s.flushSocket socket calls.os)

end OrderServer

open OrderServer (SocketCalls)

/-- What happens in one turn. -/
structure ServerTurn where
  epoll_events : List EpollEvent := []
  accepted : List ℕ := []
  /-- When the loop over `receive_sockets_` comes to a socket. -/
  received : ℕ → SocketCalls := fun _ => {}
  /-- When the loop over `send_sockets_` comes to a socket. -/
  sent : ℕ → SocketCalls := fun _ => {}
  std_sort : StdSort
  /-- What is read from the queue of the matching engine. -/
  responses : List MEClientResponse := []

structure OrderServerThread where
  tcp_server_ : TCPServer
  server : OrderServer := {}

namespace OrderServerThread

def new (listener_socket : ℕ) : OrderServerThread where
  tcp_server_ := { listener_socket_ := listener_socket }

/-- `TCPServer::sendAndRecv`. -/
def sendAndRecv (tcp_server : TCPServer) (s : OrderServer) (turn : ServerTurn) :
    Except Fault OrderServer := do
  let s ← tcp_server.receive_sockets_.foldlM
    (fun s socket => s.sendAndRecv socket (turn.received socket)) s
  let recv := tcp_server.receive_sockets_.any fun socket =>
    decide ((turn.received socket).bytes.length > 0)
  -- there were some events and they have all been dispatched, inform listener
  let s := if recv then s.recvFinishedCallback turn.std_sort else s
  tcp_server.send_sockets_.foldlM (fun s socket => s.sendAndRecv socket (turn.sent socket)) s

/-- The body of the loop of `run`. -/
def turn (x : OrderServerThread) (turn : ServerTurn) : Except Fault OrderServerThread := do
  let tcp_server ← x.tcp_server_.poll turn.epoll_events turn.accepted
  let server ← sendAndRecv tcp_server x.server turn
  let server ← turn.responses.foldlM OrderServer.sendResponse server
  .ok ⟨tcp_server, server⟩

def run (x : OrderServerThread) (turns : List ServerTurn) : Except Fault OrderServerThread :=
  turns.foldlM turn x

/-- The system reports what it watches, and new sockets have addresses of their own. -/
def Behaves (x : OrderServerThread) (turn : ServerTurn) : Prop :=
  x.tcp_server_.EpollReports turn.epoll_events ∧ x.tcp_server_.Fresh turn.accepted

end OrderServerThread

/-! ## What a turn calls back -/

namespace ServerTurn

/-- The connections it takes in. -/
def connections (listener_socket : ℕ) (turn : ServerTurn) : List ℕ :=
  TCPServer.newConnections listener_socket turn.epoll_events turn.accepted

/-- The sockets that something is read from. -/
def readFrom (sockets : List ℕ) (turn : ServerTurn) : List ℕ :=
  sockets.filter fun socket => decide ((turn.received socket).bytes.length > 0)

/-- The reads, socket by socket. -/
def reads (sockets : List ℕ) (turn : ServerTurn) : List Event :=
  (turn.readFrom sockets).map fun socket =>
    .read socket (turn.received socket).rx_time (turn.received socket).bytes

/-- Nothing is called back when there is nothing to read. -/
def events (sockets : List ℕ) (turn : ServerTurn) : List Event :=
  turn.reads sockets ++ if turn.readFrom sockets = [] then [] else [.readFinished turn.std_sort]

end ServerTurn

/-- The connections taken in. -/
def connectionsOf (listener_socket : ℕ) (turns : List ServerTurn) : List ℕ :=
  turns.flatMap (ServerTurn.connections listener_socket)

/-- The callbacks of the turns, when `sockets` are known before. -/
def eventsFrom (listener_socket : ℕ) : List ℕ → List ServerTurn → List Event
  | _, [] => []
  | sockets, turn :: turns =>
    turn.events (sockets ++ turn.connections listener_socket) ++
      eventsFrom listener_socket (sockets ++ turn.connections listener_socket) turns

/-! ## Requests alone -/

namespace OrderServer

variable {s s' : OrderServer} {socket : ℕ} {rx_time : ℤ} {request : OMClientRequest}

/-- The server without what concerns the responses. -/
def incoming (s : OrderServer) : OrderServer :=
  { s with
    cid_next_outgoing_seq_num_ := fun _ => 1
    sockets := fun socket => { inbound_data_ := (s.sockets socket).inbound_data_ } }

theorem incoming_noted : (s.noted socket request).incoming = s.incoming.noted socket request := by
  unfold noted bindSocket
  by_cases hbound : s.cid_tcp_socket_ request.me_client_request_.client_id_ = none
  · have hbound' : s.incoming.cid_tcp_socket_ request.me_client_request_.client_id_ = none := hbound
    simp only [if_pos hbound, if_pos hbound']
    rfl
  · have hbound' : s.incoming.cid_tcp_socket_ request.me_client_request_.client_id_ ≠ none := hbound
    simp only [if_neg hbound, if_neg hbound']
    rfl

theorem incoming_accept (h : s.accept socket rx_time request = .ok s') :
    s.incoming.accept socket rx_time request = .ok s'.incoming := by
  obtain ⟨fifo, hfifo, h⟩ := bind_eq_ok.mp h
  obtain rfl := Except.ok.inj h
  exact bind_eq_ok.mpr ⟨fifo, hfifo, rfl⟩

theorem incoming_onRequest (h : s.onRequest socket rx_time request = .ok s') :
    s.incoming.onRequest socket rx_time request = .ok s'.incoming := by
  obtain ⟨hclient, hcases⟩ := onRequest_cases h
  unfold onRequest
  rw [if_pos hclient]
  simp only [← incoming_noted]
  have hsame : (s.noted socket request).incoming.InSession socket request ↔
      (s.noted socket request).InSession socket request := Iff.rfl
  rcases hcases with ⟨hnot, rfl⟩ | ⟨hin, haccept⟩
  · rw [if_neg (hsame.not.mpr hnot)]
  · rw [if_pos (hsame.mpr hin)]
    exact incoming_accept haccept

theorem incoming_setInbound (bytes : List UInt8) :
    (s.setInbound socket bytes).incoming = s.incoming.setInbound socket bytes := by
  unfold setInbound incoming
  congr 1
  funext k
  by_cases hk : k = socket
  · subst hk
    simp only [Function.update_self]
  · simp only [Function.update_of_ne hk]

/-- A read. -/
theorem incoming_read {bytes : List UInt8} (h : s.read socket rx_time bytes = .ok s') :
    s.incoming.read socket rx_time bytes = .ok s'.incoming := by
  obtain ⟨s₁, hrecords, rfl⟩ := read_eq_ok h
  unfold read recvCallback
  rw [inbound_setInbound_self, incoming_setInbound]
  refine bind_eq_ok.mpr ⟨s₁.incoming, ?_, rfl⟩
  have hstart : s.incoming.setInbound socket ((s.sockets socket).inbound_data_ ++ bytes) =
      (s.setInbound socket ((s.sockets socket).inbound_data_ ++ bytes)).incoming :=
    incoming_setInbound _ |>.symm
  show List.foldlM _ (s.incoming.setInbound socket ((s.sockets socket).inbound_data_ ++ bytes)) _ = _
  rw [hstart]
  exact Lib.Runs.simulates (fun _ _ _ hstep => incoming_onRequest hstep) hrecords

theorem incoming_step {event : Event} (h : s.step event = .ok s') :
    s.incoming.step event = .ok s'.incoming := by
  cases event with
  | read socket rx_time bytes => exact incoming_read h
  | readFinished std_sort =>
    obtain rfl := Except.ok.inj h
    rfl

theorem incoming_flushSocket (os : SendSyscall) : (s.flushSocket socket os).incoming = s.incoming := by
  unfold flushSocket incoming
  congr 1
  funext k
  by_cases hk : k = socket
  · subst hk
    simp only [Function.update_self]
    rfl
  · simp only [Function.update_of_ne hk]

theorem incoming_sendResponse {r : MEClientResponse} (h : s.sendResponse r = .ok s') :
    s'.incoming = s.incoming := by
  have hsend : ∀ {connection connection' : TCPSocket} {data : List UInt8},
      connection.send data = .ok connection' →
      connection'.inbound_data_ = connection.inbound_data_ := by
    intro connection connection' data hdata
    unfold TCPSocket.send at hdata
    split at hdata
    · obtain rfl := Except.ok.inj hdata
      rfl
    · cases hdata
  unfold sendResponse at h
  simp only at h
  split at h
  · split at h
    · cases h
    · next k _ =>
      obtain ⟨c₁, hfirst, h⟩ := bind_eq_ok.mp h
      obtain ⟨c₂, hsecond, h⟩ := bind_eq_ok.mp h
      obtain rfl := Except.ok.inj h
      unfold incoming
      congr 1
      funext k'
      by_cases hk : k' = k
      · subst hk
        simp only [Function.update_self]
        rw [hsend hsecond, hsend hfirst]
      · simp only [Function.update_of_ne hk]
  · cases h

/-! ## One socket -/

/-- A client is bound to the socket that is read, if it is bound at all. -/
theorem bound_of_onRequest (h : s.onRequest socket rx_time request = .ok s') {c k : ℕ}
    (hk : s'.cid_tcp_socket_ c = some k) : s.cid_tcp_socket_ c = some k ∨ k = socket := by
  have hnoted : (s.noted socket request).cid_tcp_socket_ c = some k := by
    obtain ⟨-, ⟨-, rfl⟩ | ⟨-, haccept⟩⟩ := onRequest_cases h
    · exact hk
    · rwa [(accept_eq_ok haccept).2.1] at hk
  unfold noted bindSocket at hnoted
  split at hnoted
  · by_cases hc : c = request.me_client_request_.client_id_
    · subst hc
      simp only [Function.update_self, Option.some.injEq] at hnoted
      exact .inr hnoted.symm
    · simp only [Function.update_of_ne hc] at hnoted
      exact .inl hnoted
  · exact .inl hnoted

/-- What a call of `sendAndRecv` on a socket does to requests, to send buffers and to the clients'
sockets. -/
structure Dispatched (sockets : List ℕ) (events : List Event) (s s' : OrderServer) : Prop where
  incoming : s.incoming.run events = .ok s'.incoming
  flushed : ∀ k ∈ sockets, (s'.sockets k).outbound_data_ = []
  kept : ∀ k, k ∉ sockets → (s'.sockets k).outbound_data_ = (s.sockets k).outbound_data_
  bound : ∀ c k, s'.cid_tcp_socket_ c = some k → s.cid_tcp_socket_ c = some k ∨ k ∈ sockets

theorem Dispatched.refl (s : OrderServer) : Dispatched [] [] s s where
  incoming := rfl
  flushed := fun _ hk => absurd hk List.not_mem_nil
  kept := fun _ _ => rfl
  bound := fun _ _ hk => .inl hk

theorem Dispatched.trans {s'' : OrderServer} {sockets sockets' : List ℕ} {events events' : List Event}
    (h : Dispatched sockets events s s') (h' : Dispatched sockets' events' s' s'') :
    Dispatched (sockets ++ sockets') (events ++ events') s s'' where
  incoming := Lib.Runs.foldlM_append_eq_ok.mpr ⟨_, h.incoming, h'.incoming⟩
  flushed := by
    intro k hk
    by_cases hlater : k ∈ sockets'
    · exact h'.flushed k hlater
    · rw [h'.kept k hlater]
      exact h.flushed k ((List.mem_append.mp hk).resolve_right hlater)
  kept := by
    intro k hk
    rw [List.mem_append, not_or] at hk
    rw [h'.kept k hk.2, h.kept k hk.1]
  bound := by
    intro c k hk
    rcases h'.bound c k hk with hk | hk
    · rcases h.bound c k hk with hk | hk
      · exact .inl hk
      · exact .inr (List.mem_append_left _ hk)
    · exact .inr (List.mem_append_right _ hk)

theorem dispatched_sendAndRecv {calls : SocketCalls} (h : s.sendAndRecv socket calls = .ok s') :
    Dispatched [socket]
      (if calls.bytes.length > 0 then [.read socket calls.rx_time calls.bytes] else []) s s' := by
  obtain ⟨s₁, hread, h⟩ := bind_eq_ok.mp h
  obtain rfl := Except.ok.inj h
  have hflushed : (((s₁.flushSocket socket calls.os).sockets socket).outbound_data_) = [] := by
    unfold flushSocket
    simp only [Function.update_self]
    rfl
  have hothers : ∀ k, k ≠ socket → ((s₁.flushSocket socket calls.os).sockets k) = s₁.sockets k :=
    fun k hk => Function.update_of_ne hk ..
  by_cases hbytes : calls.bytes.length > 0
  · rw [if_pos hbytes] at hread ⊢
    obtain ⟨s₂, hrecords, heq⟩ := read_eq_ok hread
    have hrequests : s₂.sockets = (s.setInbound socket
        ((s.sockets socket).inbound_data_ ++ calls.bytes)).sockets ∧
        ∀ c k, s₂.cid_tcp_socket_ c = some k → s.cid_tcp_socket_ c = some k ∨ k = socket := by
      refine Lib.Runs.invariant_of_step (I := fun t => t.sockets = (s.setInbound socket
        ((s.sockets socket).inbound_data_ ++ calls.bytes)).sockets ∧
        ∀ c k, t.cid_tcp_socket_ c = some k → s.cid_tcp_socket_ c = some k ∨ k = socket)
        ?_ ⟨rfl, fun _ _ hk => .inl hk⟩ hrecords
      rintro t r t' ⟨hsockets, hbound⟩ hstep
      refine ⟨(received_onRequest hstep).2.trans hsockets, fun c k hk => ?_⟩
      rcases bound_of_onRequest hstep hk with hk | hk
      · exact hbound c k hk
      · exact .inr hk
    subst heq
    refine ⟨?_, ?_, ?_, ?_⟩
    · rw [incoming_flushSocket]
      exact Lib.Runs.foldlM_cons_eq_ok.mpr ⟨_, incoming_read hread, rfl⟩
    · intro k hk
      rw [List.mem_singleton.mp hk]
      exact hflushed
    · intro k hk
      have hne : k ≠ socket := fun heq => hk (heq ▸ List.mem_singleton_self _)
      rw [hothers k hne, sockets_setInbound_ne _ hne, hrequests.1, sockets_setInbound_ne _ hne]
    · intro c k hk
      rcases hrequests.2 c k hk with hk | hk
      · exact .inl hk
      · exact .inr (hk ▸ List.mem_singleton_self _)
  · rw [if_neg hbytes] at hread ⊢
    obtain rfl := Except.ok.inj hread
    refine ⟨?_, ?_, ?_, fun _ _ hk => .inl hk⟩
    · rw [incoming_flushSocket]
      rfl
    · intro k hk
      rw [List.mem_singleton.mp hk]
      exact hflushed
    · intro k hk
      have hne : k ≠ socket := fun heq => hk (heq ▸ List.mem_singleton_self _)
      rw [hothers k hne]

/-- The loop over the sockets; induction on them. -/
theorem dispatched_loop (turn : ServerTurn) {sockets : List ℕ} :
    ∀ {s : OrderServer},
      sockets.foldlM (fun s socket => s.sendAndRecv socket (turn.received socket)) s = .ok s' →
      Dispatched sockets (turn.reads sockets) s s' := by
  induction sockets with
  | nil =>
    intro s hrun
    obtain rfl : s = s' := Except.ok.inj hrun
    exact Dispatched.refl s
  | cons socket sockets ih =>
    intro s hrun
    obtain ⟨s₁, hfirst, hrest⟩ := Lib.Runs.foldlM_cons_eq_ok.mp hrun
    have hone := (dispatched_sendAndRecv hfirst).trans (ih hrest)
    have hreads : turn.reads (socket :: sockets) =
        (if (turn.received socket).bytes.length > 0 then
          [.read socket (turn.received socket).rx_time (turn.received socket).bytes] else []) ++
          turn.reads sockets := by
      unfold ServerTurn.reads ServerTurn.readFrom
      rw [List.filter_cons]
      simp only [decide_eq_true_eq]
      split
      · rfl
      · rfl
    rw [hreads]
    exact hone

/-- What the responses of a turn leave to be sent. -/
theorem pending_responses {responses : List MEClientResponse} :
    ∀ {s : OrderServer}, responses.foldlM sendResponse s = .ok s' →
      s'.incoming = s.incoming ∧ s'.cid_tcp_socket_ = s.cid_tcp_socket_ ∧
      ∀ k, (s'.sockets k).outbound_data_ ≠ [] → (s.sockets k).outbound_data_ ≠ [] ∨
        ∃ r ∈ responses, s.cid_tcp_socket_ r.client_id_ = some k := by
  induction responses with
  | nil =>
    intro s hrun
    obtain rfl : s = s' := Except.ok.inj hrun
    exact ⟨rfl, rfl, fun _ hk => .inl hk⟩
  | cons r responses ih =>
    intro s hrun
    obtain ⟨s₁, hfirst, hrest⟩ := Lib.Runs.foldlM_cons_eq_ok.mp hrun
    obtain ⟨hincoming, hbound, hpending⟩ := ih hrest
    obtain ⟨k₁, hk₁, hbound₁, -, -, -, hothers, -⟩ := sendResponse_eq_ok hfirst
    refine ⟨hincoming.trans (incoming_sendResponse hfirst), hbound.trans hbound₁, fun k hk => ?_⟩
    rcases hpending k hk with hk | ⟨r', hr', hk⟩
    · by_cases heq : k = k₁
      · exact .inr ⟨r, List.mem_cons_self .., heq ▸ hk₁⟩
      · rw [hothers k heq] at hk
        exact .inl hk
    · rw [hbound₁] at hk
      exact .inr ⟨r', List.mem_cons_of_mem _ hr', hk⟩

end OrderServer

/-! ## Turns -/

namespace OrderServerThread

/-- **Between two turns** the sockets of all clients are served, the sequencer is empty, and what is
still to be sent is for those sockets. -/
structure Between (x : OrderServerThread) : Prop where
  serves : x.tcp_server_.Serves
  bound : ∀ c k, x.server.cid_tcp_socket_ c = some k → k ∈ x.tcp_server_.receive_sockets_
  sequenced : x.server.fifo_sequencer_.pending_client_requests_ = []
  outbound : ∀ k, (x.server.sockets k).outbound_data_ ≠ [] → k ∈ x.tcp_server_.receive_sockets_

theorem between_new (listener_socket : ℕ) : Between (new listener_socket) where
  serves := TCPServer.serves_new listener_socket
  bound := fun _ _ hk => absurd hk (Option.some_ne_none _).symm
  sequenced := rfl
  outbound := fun _ hk => absurd rfl hk

variable {x x' : OrderServerThread} {t : ServerTurn}

/-- What `TCPServer::sendAndRecv` calls back. -/
theorem sendAndRecv_spec {tcp_server : TCPServer} {s s' : OrderServer}
    (hserves : tcp_server.Serves) (h : sendAndRecv tcp_server s t = .ok s') :
    OrderServer.Dispatched tcp_server.receive_sockets_ (t.events tcp_server.receive_sockets_) s s' ∧
      (s.fifo_sequencer_.pending_client_requests_ = [] →
        s'.fifo_sequencer_.pending_client_requests_ = []) := by
  obtain ⟨s₁, hloop, h⟩ := bind_eq_ok.mp h
  have hall := OrderServer.dispatched_loop t hloop
  have hread : (tcp_server.receive_sockets_.any fun socket =>
      decide ((t.received socket).bytes.length > 0)) = true ↔
      t.readFrom tcp_server.receive_sockets_ ≠ [] := by
    unfold ServerTurn.readFrom
    rw [List.any_eq_true]
    constructor
    · intro ⟨k, hk, hbytes⟩
      exact List.ne_nil_of_mem (List.mem_filter.mpr ⟨hk, hbytes⟩)
    · intro hne
      obtain ⟨k, hk⟩ := List.exists_mem_of_ne_nil _ hne
      exact ⟨k, List.mem_filter.mp hk⟩
  -- the system never lets the server send to a socket apart
  rw [hserves.send_sockets, List.foldlM_nil] at h
  obtain rfl := Except.ok.inj h
  unfold ServerTurn.events
  by_cases hnone : t.readFrom tcp_server.receive_sockets_ = []
  · rw [if_pos hnone, List.append_nil, if_neg fun hany => hread.mp hany hnone]
    refine ⟨hall, fun hempty => ?_⟩
    have hreads : t.reads tcp_server.receive_sockets_ = [] := by
      unfold ServerTurn.reads
      rw [hnone, List.map_nil]
    have hsame : s.incoming = s₁.incoming := by
      have hrun := hall.incoming
      rw [hreads] at hrun
      exact Except.ok.inj hrun
    rw [← hempty]
    exact congrArg (·.fifo_sequencer_.pending_client_requests_) hsame.symm
  · rw [if_neg hnone, if_pos (hread.mpr hnone)]
    refine ⟨⟨?_, hall.flushed, hall.kept, hall.bound⟩, fun _ => rfl⟩
    exact Lib.Runs.foldlM_append_eq_ok.mpr ⟨_, hall.incoming, rfl⟩

/-- **What one turn does.** -/
theorem Between.turn (h : Between x) (hsys : x.Behaves t) (hstep : x.turn t = .ok x') :
    Between x' ∧ x'.tcp_server_.listener_socket_ = x.tcp_server_.listener_socket_ ∧
      x'.tcp_server_.receive_sockets_ = x.tcp_server_.receive_sockets_ ++
        t.connections x.tcp_server_.listener_socket_ ∧
      x.server.incoming.run (t.events x'.tcp_server_.receive_sockets_) = .ok x'.server.incoming ∧
      ∀ k, (x'.server.sockets k).outbound_data_ ≠ [] →
        ∃ r ∈ t.responses, x'.server.cid_tcp_socket_ r.client_id_ = some k := by
  obtain ⟨tcp_server, hpoll, hstep⟩ := bind_eq_ok.mp hstep
  obtain ⟨s₁, hserve, hstep⟩ := bind_eq_ok.mp hstep
  obtain ⟨s₂, hrespond, hstep⟩ := bind_eq_ok.mp hstep
  obtain rfl := Except.ok.inj hstep
  obtain ⟨hserves, hlistener, hsockets⟩ := (h.serves.poll hsys.1 hsys.2).2 _ hpoll
  obtain ⟨hall, hsequenced⟩ := sendAndRecv_spec hserves hserve
  obtain ⟨hincoming, hbound, hpending⟩ := OrderServer.pending_responses hrespond
  have hmore : ∀ k, k ∈ x.tcp_server_.receive_sockets_ → k ∈ tcp_server.receive_sockets_ := by
    intro k hk
    rw [hsockets]
    exact List.mem_append_left _ hk
  have hbound₁ : ∀ c k, s₁.cid_tcp_socket_ c = some k → k ∈ tcp_server.receive_sockets_ := by
    intro c k hk
    rcases hall.bound c k hk with hk | hk
    · exact hmore k (h.bound c k hk)
    · exact hk
  -- every socket has been flushed before the responses are sent
  have hempty : ∀ k, (s₁.sockets k).outbound_data_ = [] := by
    intro k
    by_cases hk : k ∈ tcp_server.receive_sockets_
    · exact hall.flushed k hk
    · rw [hall.kept k hk]
      by_contra hne
      exact hk (hmore k (h.outbound k hne))
  have hlast : ∀ k, (s₂.sockets k).outbound_data_ ≠ [] →
      ∃ r ∈ t.responses, s₁.cid_tcp_socket_ r.client_id_ = some k := fun k hk =>
    (hpending k hk).resolve_left fun hne => hne (hempty k)
  refine ⟨⟨hserves, ?_, ?_, ?_⟩, hlistener, hsockets, ?_, ?_⟩
  · intro c k hk
    exact hbound₁ c k (hbound ▸ hk)
  · have hsame : s₂.incoming.fifo_sequencer_ = s₁.incoming.fifo_sequencer_ := by rw [hincoming]
    change s₂.fifo_sequencer_ = s₁.fifo_sequencer_ at hsame
    show s₂.fifo_sequencer_.pending_client_requests_ = []
    rw [hsame]
    exact hsequenced h.sequenced
  · intro k hk
    obtain ⟨r, -, hr⟩ := hlast k hk
    exact hbound₁ _ k hr
  · show x.server.incoming.run _ = .ok s₂.incoming
    rw [hincoming]
    exact hall.incoming
  · intro k hk
    obtain ⟨r, hr, hk⟩ := hlast k hk
    exact ⟨r, hr, hbound ▸ hk⟩

/-- **A run of the loop**; induction on the turns. -/
theorem Between.run {turns : List ServerTurn} :
    ∀ {x : OrderServerThread}, Between x → Lib.Runs.Along OrderServerThread.turn Behaves x turns →
      x.run turns = .ok x' →
      Between x' ∧ x'.tcp_server_.listener_socket_ = x.tcp_server_.listener_socket_ ∧
        x'.tcp_server_.receive_sockets_ = x.tcp_server_.receive_sockets_ ++
          connectionsOf x.tcp_server_.listener_socket_ turns ∧
        x.server.incoming.run (eventsFrom x.tcp_server_.listener_socket_
          x.tcp_server_.receive_sockets_ turns) = .ok x'.server.incoming ∧
        ∀ t ∈ turns.getLast?, ∀ k, (x'.server.sockets k).outbound_data_ ≠ [] →
          ∃ r ∈ t.responses, x'.server.cid_tcp_socket_ r.client_id_ = some k := by
  induction turns with
  | nil =>
    intro x h _ hrun
    obtain rfl : x = x' := Except.ok.inj hrun
    exact ⟨h, rfl, (List.append_nil _).symm, rfl, fun t ht => by cases ht⟩
  | cons t turns ih =>
    intro x h hsys hrun
    obtain ⟨x₁, hstep, hrest⟩ := Lib.Runs.foldlM_cons_eq_ok.mp hrun
    obtain ⟨h₁, hlistener₁, hsockets₁, hincoming₁, hlast₁⟩ := h.turn hsys.1 hstep
    obtain ⟨h', hlistener, hsockets, hincoming, hlast⟩ := ih h₁ (hsys.2 x₁ hstep) hrest
    rw [hlistener₁] at hlistener hsockets hincoming
    rw [hsockets₁] at hincoming₁ hincoming
    refine ⟨h', hlistener, ?_, ?_, ?_⟩
    · rw [hsockets, hsockets₁, List.append_assoc]
      rfl
    · exact Lib.Runs.foldlM_append_eq_ok.mpr ⟨_, hincoming₁, hincoming⟩
    · cases turns with
      | nil =>
        obtain rfl : x₁ = x' := Except.ok.inj hrest
        intro t' ht'
        obtain rfl : t = t' := Option.some.inj ht'
        exact hlast₁
      | cons t₂ turns =>
        rw [List.getLast?_cons_cons]
        exact hlast

/-- **Every connection is served in every turn.**  After any turns of the order server, in which the
system reports what it is asked to watch, the server receives from each connection it has accepted,
once a turn and in the order of their arrival; nothing waits in the sequencer; only responses of the
last turn wait to be sent, and their sockets are flushed in the next one; and what the server has
made of the requests is what the callbacks alone make of them.  The events of one more turn fit,
unless there are more than 1023 connections. -/
theorem order_server_turns {listener_socket : ℕ} {turns : List ServerTurn}
    (hsys : Lib.Runs.Along turn Behaves (new listener_socket) turns)
    (hrun : (new listener_socket).run turns = .ok x) :
    x.tcp_server_.receive_sockets_ = connectionsOf listener_socket turns ∧
      (connectionsOf listener_socket turns).Nodup ∧
      x.server.fifo_sequencer_.pending_client_requests_ = [] ∧
      (∀ t ∈ turns.getLast?, ∀ k, (x.server.sockets k).outbound_data_ ≠ [] →
        k ∈ connectionsOf listener_socket turns ∧
          ∃ r ∈ t.responses, x.server.cid_tcp_socket_ r.client_id_ = some k) ∧
      OrderServer.new.run (eventsFrom listener_socket [] turns) = .ok x.server.incoming ∧
      ∀ t, x.Behaves t → (connectionsOf listener_socket turns).length < TCPServer.maxEvents →
        ∃ tcp_server, x.tcp_server_.poll t.epoll_events t.accepted = .ok tcp_server := by
  obtain ⟨h, -, hsockets, hincoming, hlast⟩ := (between_new listener_socket).run hsys hrun
  have hconnections : x.tcp_server_.receive_sockets_ = connectionsOf listener_socket turns :=
    hsockets.trans (List.nil_append _)
  have hdistinct := h.serves.distinct
  rw [h.serves.epoll_list, List.nodup_cons, hconnections] at hdistinct
  refine ⟨hconnections, hdistinct.2, h.sequenced, fun t ht k hk => ⟨?_, hlast t ht k hk⟩,
    hincoming, fun t hbehaves hroom => ?_⟩
  · rw [← hconnections]
    exact h.outbound k hk
  · rw [← hconnections] at hroom
    exact (h.serves.poll hbehaves.1 hbehaves.2).1 hroom

/-- A client connects and sends a request, which is answered in the same turn. -/
def oneConnection : List ServerTurn :=
  [{ epoll_events := [{ socket := 0, epollin := true }], accepted := [5],
     received := fun _ => { bytes := Exchange.newRecord }, std_sort := Exchange.stableSort,
     responses := [{ type_ := .ACCEPTED, client_id_ := 1 }] }]

theorem order_server_turns_oneConnection :
    ∃ x, (new 0).run oneConnection = .ok x ∧ x.tcp_server_.receive_sockets_ = [5] ∧
      x.server.fifo_sequencer_.pending_client_requests_ = [] ∧
      x.server.fifo_sequencer_.incoming_requests_.length = 1 ∧
      (x.server.sockets 5).outbound_data_ ≠ [] := by
  obtain ⟨x, hrun⟩ := exists_ok_of_isOk (show ((new 0).run oneConnection).isOk = true by
    decide +kernel)
  have hbehaves : (new 0).Behaves (oneConnection.head (by decide)) :=
    ⟨⟨by decide, by decide, by decide, by decide⟩, ⟨by decide, by decide⟩⟩
  have hsys : Lib.Runs.Along turn Behaves (new 0) oneConnection := ⟨hbehaves, fun _ _ => trivial⟩
  obtain ⟨hsockets, -, hsequenced, -⟩ := order_server_turns hsys hrun
  have hsent : ((new 0).run oneConnection).toOption.map (fun x =>
      (x.server.fifo_sequencer_.incoming_requests_.length,
        decide ((x.server.sockets 5).outbound_data_ ≠ []))) = some (1, true) := by decide +kernel
  rw [hrun] at hsent
  obtain ⟨hone, hpending⟩ := Prod.mk.inj (Option.some.inj hsent)
  exact ⟨x, hrun, hsockets, hsequenced, hone, of_decide_eq_true hpending⟩

end OrderServerThread

end TradingEcosystem
