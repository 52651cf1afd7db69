import TradingEcosystem.Exchange.Addressed
import TradingEcosystem.Exchange.FifoOrder

/-!
# Answering Clients

What the order server keeps for the responses: the socket of each client that sent a request, the
requests it lets through to the engine, and the bytes it sends.

- `Bound` : the clients that can be answered
- `SameOutgoing` : reading requests binds clients and sends nothing
- `QueuesFrom` : every request on its way to the engine came from a bound client
- `sendResponse_eq_ok` : a response is sent as one record, numbered for its client
-/

namespace TradingEcosystem.OrderServer

variable {s s' s'' : OrderServer} {socket : ℕ} {rx_time : ℤ} {request : OMClientRequest}
  {B B' : ℕ → Prop}

/-- The client has an entry in the tables, and its socket is known. -/
def Bound (s : OrderServer) (c : ℕ) : Prop :=
  c < ME_MAX_NUM_CLIENTS ∧ ∃ socket, s.cid_tcp_socket_ c = some socket

/-- Clients that are bound stay bound, and nothing is sent. -/
structure SameOutgoing (s s' : OrderServer) : Prop where
  bound : ∀ c k, s.cid_tcp_socket_ c = some k → s'.cid_tcp_socket_ c = some k
  wire : ∀ k, (s'.sockets k).wire = (s.sockets k).wire
  outbound_data : ∀ k, (s'.sockets k).outbound_data_ = (s.sockets k).outbound_data_
  next_seq : s'.cid_next_outgoing_seq_num_ = s.cid_next_outgoing_seq_num_

theorem Bound.mono {c : ℕ} (h : s.Bound c)
    (hbound : ∀ c k, s.cid_tcp_socket_ c = some k → s'.cid_tcp_socket_ c = some k) :
    s'.Bound c := by
  obtain ⟨hc, k, hk⟩ := h
  exact ⟨hc, k, hbound c k hk⟩

namespace SameOutgoing

theorem refl (s : OrderServer) : SameOutgoing s s :=
  ⟨fun _ _ h => h, fun _ => rfl, fun _ => rfl, rfl⟩

theorem trans (h : SameOutgoing s s') (h' : SameOutgoing s' s'') : SameOutgoing s s'' where
  bound := fun c k hk => h'.bound c k (h.bound c k hk)
  wire := fun k => (h'.wire k).trans (h.wire k)
  outbound_data := fun k => (h'.outbound_data k).trans (h.outbound_data k)
  next_seq := h'.next_seq.trans h.next_seq

theorem outbound (h : SameOutgoing s s') (k : ℕ) :
    (s'.sockets k).outbound = (s.sockets k).outbound := by
  unfold TCPSocket.outbound
  rw [h.wire, h.outbound_data]

theorem setInbound (s : OrderServer) (socket : ℕ) (bytes : List UInt8) :
    SameOutgoing s (s.setInbound socket bytes) := by
  have hsocket : ∀ k, ((s.setInbound socket bytes).sockets k).wire = (s.sockets k).wire ∧
      ((s.setInbound socket bytes).sockets k).outbound_data_ = (s.sockets k).outbound_data_ := by
    intro k
    by_cases hk : k = socket
    · subst hk
      unfold OrderServer.setInbound
      simp only [Function.update_self, and_self]
    · rw [sockets_setInbound_ne s hk]
      exact ⟨rfl, rfl⟩
  exact ⟨fun _ _ h => h, fun k => (hsocket k).1, fun k => (hsocket k).2, rfl⟩

theorem onRequest (hstep : s.onRequest socket rx_time request = .ok s') : SameOutgoing s s' := by
  have hnoted : (s.noted socket request).cid_next_outgoing_seq_num_ =
      s.cid_next_outgoing_seq_num_ := by
    unfold noted bindSocket
    split <;> rfl
  have hnext : s'.cid_next_outgoing_seq_num_ = s.cid_next_outgoing_seq_num_ := by
    obtain ⟨-, ⟨-, rfl⟩ | ⟨-, haccept⟩⟩ := onRequest_cases hstep
    · exact hnoted
    · obtain ⟨fifo, -, haccept⟩ := bind_eq_ok.mp haccept
      cases haccept
      exact hnoted
  obtain ⟨-, hsockets⟩ := received_onRequest hstep
  exact ⟨fun c k hk => bound_onRequest hk hstep, fun k => by rw [hsockets],
    fun k => by rw [hsockets], hnext⟩

end SameOutgoing

/-! ## Requests on their way -/

/-- Every request in the sequencer and in the engine's queue came from a known client. -/
def QueuesFrom (B : ℕ → Prop) (s : OrderServer) : Prop :=
  (∀ q ∈ s.fifo_sequencer_.pending_client_requests_, q.request_.From B) ∧
    ∀ r ∈ s.fifo_sequencer_.incoming_requests_, r.From B

theorem QueuesFrom.mono (h : s.QueuesFrom B) (hB : ∀ c, B c → B' c) : s.QueuesFrom B' :=
  ⟨fun q hq => ⟨hB _ (h.1 q hq).1, (h.1 q hq).2⟩, fun r hr => ⟨hB _ (h.2 r hr).1, (h.2 r hr).2⟩⟩

/-- A request is let through when its client is bound. -/
theorem QueuesFrom.onRequest (h : s.QueuesFrom s.Bound)
    (hwire : request.me_client_request_.OnWire)
    (hstep : s.onRequest socket rx_time request = .ok s') : s'.QueuesFrom s'.Bound := by
  have hmono : s.QueuesFrom s'.Bound :=
    h.mono fun c hc => hc.mono fun c k hk => bound_onRequest hk hstep
  obtain ⟨hclient, ⟨-, rfl⟩ | ⟨hin, haccept⟩⟩ := onRequest_cases hstep
  · unfold QueuesFrom at hmono ⊢
    rw [fifo_noted]
    exact hmono
  · obtain ⟨-, hsocket, -⟩ := accept_eq_ok haccept
    have hbound : s'.Bound request.me_client_request_.client_id_ :=
      ⟨hclient, socket, hsocket ▸ hin.1⟩
    obtain ⟨fifo, hfifo, hrest⟩ := bind_eq_ok.mp haccept
    unfold FIFOSequencer.addClientRequest at hfifo
    rw [fifo_noted] at hfifo
    split at hfifo
    · cases hfifo
    · cases hfifo
      refine ⟨?_, ?_⟩
      · intro q hq
        cases hrest
        rcases List.mem_append.mp hq with hq | hq
        · exact hmono.1 q hq
        · rw [List.mem_singleton.mp hq]
          exact ⟨hbound, hwire⟩
      · cases hrest
        exact hmono.2

/-- **Reading requests** binds clients, sends nothing and lets requests of bound clients through. -/
theorem SameOutgoing.step {event : Event} (h : s.QueuesFrom s.Bound)
    (hstep : s.step event = .ok s') : SameOutgoing s s' ∧ s'.QueuesFrom s'.Bound := by
  cases event with
  | read socket rx_time bytes =>
    obtain ⟨s₁, hrecords, rfl⟩ := read_eq_ok hstep
    set inbound := (s.sockets socket).inbound_data_ ++ bytes
    have hwire : ∀ r ∈ records inbound, r.me_client_request_.OnWire := by
      intro r hr
      obtain ⟨record, -, rfl⟩ := List.mem_map.mp hr
      exact OMClientRequest.onWire_ofBytes record
    -- what is kept record by record
    have h₁ : SameOutgoing s s₁ ∧ s₁.QueuesFrom s₁.Bound := by
      refine Lib.Runs.invariant (I := fun t => SameOutgoing s t ∧ t.QueuesFrom t.Bound) ?_
        ⟨SameOutgoing.setInbound .., h⟩
        (Lib.Runs.Along.and_forall hwire Lib.Runs.along_trivial) hrecords
      intro t r t' ht hr hstep
      exact ⟨ht.1.trans (SameOutgoing.onRequest hstep), ht.2.onRequest hr.2 hstep⟩
    exact ⟨h₁.1.trans (SameOutgoing.setInbound ..), h₁.2⟩
  | readFinished std_sort =>
    obtain rfl := Except.ok.inj hstep
    refine ⟨⟨fun _ _ hk => hk, fun _ => rfl, fun _ => rfl, rfl⟩, ?_, ?_⟩
    · intro q hq
      cases hq
    · intro r hr
      rcases List.mem_append.mp hr with hr | hr
      · exact h.2 r hr
      · obtain ⟨q, hq, rfl⟩ := List.mem_map.mp hr
        exact h.1 q ((std_sort.perm _).mem_iff.mp hq)

/-! ## Responses -/

/-- A send can only fail because the buffer is full. -/
theorem send_ne_assert (connection : TCPSocket) (data : List UInt8) :
    connection.send data ≠ .error .assert := by
  unfold TCPSocket.send
  split
  · intro h
    cases h
  · intro h
    cases h

/-- **A bound client is answered**: the ASSERT does not fire for it. -/
theorem sendResponse_ne_assert {r : MEClientResponse} (h : s.Bound r.client_id_) :
    s.sendResponse r ≠ .error .assert := by
  obtain ⟨hclient, k, hk⟩ := h
  unfold sendResponse
  simp only [if_pos hclient, hk]
  intro h
  cases hfirst : (s.sockets k).send
    (Lib.Wire.toBytes 8 (s.cid_next_outgoing_seq_num_ r.client_id_)) with
  | error e =>
    rw [hfirst] at h
    cases h
    exact send_ne_assert _ _ hfirst
  | ok connection =>
    rw [hfirst] at h
    revert h
    exact Lib.Runs.bind_ok_ne_error_iff.mpr (send_ne_assert connection r.toBytes)

theorem wire_send {connection connection' : TCPSocket} {data : List UInt8}
    (h : connection.send data = .ok connection') : connection'.wire = connection.wire := by
  unfold TCPSocket.send at h
  split at h
  · cases h
    rfl
  · cases h

/-- **A response is sent as one record**, numbered for its client. -/
theorem sendResponse_eq_ok {r : MEClientResponse} (h : s.sendResponse r = .ok s') :
    ∃ k, s.cid_tcp_socket_ r.client_id_ = some k ∧ s'.cid_tcp_socket_ = s.cid_tcp_socket_ ∧
      s'.fifo_sequencer_ = s.fifo_sequencer_ ∧
      s'.cid_next_outgoing_seq_num_ = Function.update s.cid_next_outgoing_seq_num_ r.client_id_
        (s.cid_next_outgoing_seq_num_ r.client_id_ + 1) ∧
      (∀ k', (s'.sockets k').wire = (s.sockets k').wire) ∧
      (∀ k', k' ≠ k → s'.sockets k' = s.sockets k') ∧
      (s'.sockets k).outbound = (s.sockets k).outbound ++
        OMClientResponse.toBytes ⟨s.cid_next_outgoing_seq_num_ r.client_id_, r⟩ := by
  unfold sendResponse at h
  simp only at h
  split at h
  · split at h
    · cases h
    · next k hk =>
      obtain ⟨c₁, hfirst, h⟩ := bind_eq_ok.mp h
      obtain ⟨c₂, hsecond, h⟩ := bind_eq_ok.mp h
      cases h
      have hwire : c₂.wire = (s.sockets k).wire := (wire_send hsecond).trans (wire_send hfirst)
      refine ⟨k, hk, rfl, rfl, rfl, ?_, ?_, ?_⟩
      · intro k'
        by_cases hk' : k' = k
        · subst hk'
          simp only [Function.update_self]
          exact hwire
        · simp only [Function.update_of_ne hk']
      · intro k' hk'
        exact Function.update_of_ne hk' ..
      · -- the number and the response make one record
        simp only [Function.update_self]
        rw [TCPSocket.outbound_send hsecond, TCPSocket.outbound_send hfirst, List.append_assoc]
        rfl
  · cases h

end TradingEcosystem.OrderServer
