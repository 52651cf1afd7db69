import TradingEcosystem.Exchange.Sessions
import TradingEcosystem.Trading.GatewayThread

/-!
# Requests Reach the Sequencer

The order gateways of any number of clients, each on its own connection, and the order server at the
other end.  Each connection delivers its bytes in chunks of any size, and the chunks of the
connections come in any order.

- `AllAccepted` : everything received was accepted, and it is what the gateways sent
- `requests_reach_sequencer` : no request is lost, repeated, reordered or turned away
-/

namespace TradingEcosystem

open OrderServer (Event Session Framed onSocket ofClient records bytesOn)
open GatewayThread (requestRecords requestStream length_requestRecords)

namespace OrderServer

variable {s s' : OrderServer} {socket : ℕ} {rx_time : ℤ} {request : OMClientRequest}
  {R : ℕ → List OMClientRequest} {client_of : ℕ → ℕ}

/-! ## One record -/

/-- What each connection carries: the requests of one client, numbered from one, and no two
connections those of the same client. -/
structure Carries (client_of : ℕ → ℕ) (R : ℕ → List OMClientRequest) : Prop where
  client_id : ∀ k, ∀ r ∈ R k, r.me_client_request_.client_id_ = client_of k ∧
    client_of k < ME_MAX_NUM_CLIENTS
  seq_num : ∀ k i r, (R k)[i]? = some r → r.seq_num_ = i + 1
  distinct : ∀ k k', R k ≠ [] → R k' ≠ [] → client_of k = client_of k' → k = k'

/-- Every record was accepted, and the records of each connection are the first it carries. -/
structure AllAccepted (R : ℕ → List OMClientRequest) (s : OrderServer) : Prop where
  session : ∀ c, Session s c
  accepted : s.accepted = s.received
  received : ∀ k, onSocket k s.received <+: R k

theorem allAccepted_new : AllAccepted R new where
  session := session_new
  accepted := rfl
  received := fun _ => ⟨_, rfl⟩

/-- Each record is one that its connection carries. -/
theorem AllAccepted.mem (h : AllAccepted R s) {a : Received} (ha : a ∈ s.received) :
    a.request ∈ R a.socket := by
  apply (h.received a.socket).subset
  exact List.mem_map.mpr ⟨a, List.mem_filter.mpr ⟨ha, decide_eq_true rfl⟩, rfl⟩

/-- The records of a client are those of its connection. -/
theorem AllAccepted.ofClient_eq (hcarries : Carries client_of R) (h : AllAccepted R s)
    (hrequest : request ∈ R socket) :
    ofClient (client_of socket) s.received =
      s.received.filter fun a => decide (a.socket = socket) := by
  apply List.filter_congr
  intro a ha
  have hmem := h.mem ha
  have hclient := (hcarries.client_id a.socket a.request hmem).1
  apply decide_eq_decide.mpr
  constructor
  · intro heq
    exact hcarries.distinct _ _ (List.ne_nil_of_mem hmem) (List.ne_nil_of_mem hrequest)
      (hclient.symm.trans heq)
  · rintro rfl
    exact hclient

/-- A client is bound to its connection. -/
theorem AllAccepted.bound (hcarries : Carries client_of R) (h : AllAccepted R s)
    (hrequest : request ∈ onSocket socket s.received) :
    s.cid_tcp_socket_ (client_of socket) = some socket := by
  have hmem := (h.received socket).subset hrequest
  obtain ⟨a, ha, -⟩ := List.mem_map.mp hrequest
  rw [(h.session _).bound, h.ofClient_eq hcarries hmem]
  cases hcons : s.received.filter fun a => decide (a.socket = socket) with
  | nil =>
    rw [hcons] at ha
    cases ha
  | cons b rest =>
    have hb : b ∈ s.received.filter fun a => decide (a.socket = socket) :=
      hcons ▸ List.mem_cons_self ..
    exact congrArg some (of_decide_eq_true (List.mem_filter.mp hb).2)

/-- The only fault of a request in its session is the FATAL of the sequencer. -/
theorem fault_accept {fault : Fault} (h : s.accept socket rx_time request = .error fault) :
    fault = .assert := by
  unfold accept FIFOSequencer.addClientRequest at h
  split at h
  · cases h
    rfl
  · cases h

/-- **The next record of a connection is accepted**, unless the sequencer is full. -/
theorem AllAccepted.onRequest (rx_time : ℤ) (hcarries : Carries client_of R) (h : AllAccepted R s)
    (hnext : onSocket socket s.received ++ [request] <+: R socket) :
    (∀ fault, s.onRequest socket rx_time request = .error fault → fault = .assert) ∧
      ∀ s', s.onRequest socket rx_time request = .ok s' → AllAccepted R s' := by
  have hmem : request ∈ R socket := hnext.subset (List.mem_append_right _ (List.mem_singleton_self _))
  obtain ⟨hclient, htable⟩ := hcarries.client_id socket request hmem
  rw [← hclient] at htable
  have hlog := h.ofClient_eq hcarries hmem
  rw [← hclient] at hlog
  -- the record has the number that its session expects
  have hseq : request.seq_num_ =
      s.cid_next_exp_seq_num_ request.me_client_request_.client_id_ := by
    obtain ⟨rest, hrest⟩ := hnext
    have hget : (R socket)[(onSocket socket s.received).length]? = some request := by
      rw [← hrest, List.append_assoc, List.getElem?_append_right le_rfl, Nat.sub_self]
      rfl
    rw [hcarries.seq_num socket _ _ hget, (h.session _).next, h.accepted, hlog]
    exact congrArg (· + 1) (List.length_map ..)
  -- and comes from the socket of its client
  have hsocket : (s.noted socket request).cid_tcp_socket_
      request.me_client_request_.client_id_ = some socket := by
    rw [((h.session _).noted).bound, received_noted, ofClient_append, ofClient_self rfl, hlog]
    cases hfirst : s.received.filter fun a => decide (a.socket = socket) with
    | nil => rfl
    | cons a rest =>
      have ha : a ∈ s.received.filter fun a => decide (a.socket = socket) :=
        hfirst ▸ List.mem_cons_self ..
      exact congrArg some (of_decide_eq_true (List.mem_filter.mp ha).2)
  have hin : (s.noted socket request).InSession socket request :=
    ⟨hsocket, by rw [next_exp_noted]; exact hseq⟩
  constructor
  · intro fault hfault
    unfold OrderServer.onRequest at hfault
    rw [if_pos htable] at hfault
    simp only [if_pos hin] at hfault
    exact fault_accept hfault
  · intro s' hstep
    obtain ⟨-, ⟨hnot, -⟩ | ⟨-, haccept⟩⟩ := onRequest_cases hstep
    · exact absurd hin hnot
    · obtain ⟨hreceived, -, -, haccepted, -⟩ := accept_eq_ok haccept
      rw [received_noted] at hreceived
      rw [accepted_noted, h.accepted, ← hreceived] at haccepted
      refine ⟨fun c => (h.session c).onRequest hstep, haccepted, fun k => ?_⟩
      rw [hreceived, onSocket_append]
      by_cases hk : k = socket
      · subst hk
        exact (congrArg (onSocket k s.received ++ ·) (onSocket_map_self k [request])) ▸ hnext
      · have hnil := onSocket_map_ne hk [request]
        rw [List.map_singleton] at hnil
        rw [hnil, List.append_nil]
        exact h.received k

/-- The records of one read; induction on them. -/
theorem AllAccepted.onRequests (rx_time : ℤ) (hcarries : Carries client_of R) {rs : List OMClientRequest} :
    ∀ {s : OrderServer}, AllAccepted R s → onSocket socket s.received ++ rs <+: R socket →
      (∀ fault, rs.foldlM (fun s x => s.onRequest socket rx_time x) s = .error fault →
        fault = .assert) ∧
      ∀ s', rs.foldlM (fun s x => s.onRequest socket rx_time x) s = .ok s' → AllAccepted R s' := by
  induction rs with
  | nil =>
    intro s h _
    refine ⟨fun _ hfault => (nomatch hfault), fun s' hrun => ?_⟩
    cases hrun
    exact h
  | cons r rs ih =>
    intro s h hnext
    have hfirst : onSocket socket s.received ++ [r] <+: R socket := by
      refine List.IsPrefix.trans ?_ hnext
      exact ⟨rs, by rw [List.append_assoc, List.singleton_append]⟩
    obtain ⟨hfault, hok⟩ := h.onRequest rx_time hcarries hfirst
    cases hstep : s.onRequest socket rx_time r with
    | error fault =>
      rw [List.foldlM_cons, hstep]
      refine ⟨fun fault' heq => ?_, fun _ heq => nomatch heq⟩
      cases heq
      exact hfault fault hstep
    | ok s₁ =>
      rw [List.foldlM_cons, hstep]
      refine ih (hok s₁ hstep) ?_
      rw [(received_onRequest hstep).1, onSocket_append]
      have hself := onSocket_map_self socket [r]
      rw [List.map_singleton] at hself
      rw [hself, List.append_assoc, List.singleton_append]
      exact hnext

theorem AllAccepted.setInbound (h : AllAccepted R s) (socket : ℕ) (bytes : List UInt8) :
    AllAccepted R (s.setInbound socket bytes) :=
  ⟨fun c => ⟨(h.session c).bound, (h.session c).socket, (h.session c).numbers,
    (h.session c).next⟩, h.accepted, h.received⟩

/-! ## A run -/

/-- A read of bytes that make the stream of the connection longer. -/
theorem AllAccepted.read (rx_time : ℤ) (hcarries : Carries client_of R) (h : AllAccepted R s)
    {bytes : ℕ → List UInt8} (hframed : Framed s bytes) {chunk : List UInt8}
    (hnext : records (bytes socket ++ chunk) <+: R socket) :
    (∀ fault, s.read socket rx_time chunk = .error fault → fault = .assert) ∧
      ∀ s', s.read socket rx_time chunk = .ok s' → AllAccepted R s' := by
  have hmore : onSocket socket s.received ++
      records ((s.sockets socket).inbound_data_ ++ chunk) <+: R socket := by
    rw [hframed.log, hframed.inbound, ← records_append]
    exact hnext
  obtain ⟨hfault, hok⟩ := (h.setInbound socket ((s.sockets socket).inbound_data_ ++ chunk)).onRequests
    rx_time hcarries hmore
  constructor
  · intro fault hread
    unfold OrderServer.read recvCallback at hread
    rw [inbound_setInbound_self] at hread
    apply hfault fault
    by_contra hne
    exact Lib.Runs.bind_ok_ne_error_iff.mpr hne hread
  · intro s' hread
    obtain ⟨s₁, hrecords, rfl⟩ := read_eq_ok hread
    exact (hok s₁ hrecords).setInbound _ _

/-- What has arrived is cut into the first records of the connection. -/
def Arrives (R : ℕ → List OMClientRequest) (bytes : ℕ → List UInt8) : Prop :=
  ∀ k, bytes k <+: ((R k).map OMClientRequest.toBytes).flatten

theorem Arrives.records {bytes : ℕ → List UInt8} (hread : ∀ k, ∀ r ∈ R k,
    OMClientRequest.ofBytes r.toBytes = r) (h : Arrives R bytes) (k : ℕ) :
    records (bytes k) <+: R k := by
  have hsize : ∀ record ∈ (R k).map OMClientRequest.toBytes,
      record.length = OMClientRequest.size := by
    intro record hrecord
    obtain ⟨r, -, rfl⟩ := List.mem_map.mp hrecord
    exact r.length_toBytes
  have hall : ((R k).map OMClientRequest.toBytes).map OMClientRequest.ofBytes = R k := by
    rw [List.map_map]
    exact (List.map_congr_left fun r hr => hread k r hr).trans (List.map_id _)
  rw [← hall]
  exact (Lib.Wire.whole_isPrefix size_pos hsize (h k)).map _

/-- **The server takes in what its connections carry**; induction on the events. -/
theorem AllAccepted.run (hcarries : Carries client_of R)
    (hread : ∀ k, ∀ r ∈ R k, OMClientRequest.ofBytes r.toBytes = r) {events : List Event} :
    ∀ {s : OrderServer} {bytes : ℕ → List UInt8}, AllAccepted R s → Framed s bytes →
      Arrives R (fun k => bytes k ++ bytesOn k events) →
      (∀ fault, s.run events = .error fault → fault = .assert) ∧
        ∀ s', s.run events = .ok s' → AllAccepted R s' := by
  induction events with
  | nil =>
    intro s bytes h _ _
    refine ⟨fun _ hfault => (nomatch hfault), fun s' hrun => ?_⟩
    cases hrun
    exact h
  | cons event events ih =>
    intro s bytes h hframed harrives
    have hcons : s.run (event :: events) = s.step event >>= fun s => s.run events :=
      List.foldlM_cons ..
    rw [hcons]
    cases event with
    | read socket rx_time chunk =>
      have hbytes : (fun k => Function.update bytes socket (bytes socket ++ chunk) k ++
          bytesOn k events) = fun k => bytes k ++ bytesOn k (.read socket rx_time chunk :: events) := by
        funext k
        show _ = bytes k ++ ((if socket = k then chunk else []) ++ bytesOn k events)
        by_cases hk : socket = k
        · subst hk
          rw [Function.update_self, if_pos rfl, List.append_assoc]
        · rw [Function.update_of_ne (Ne.symm hk), if_neg hk, List.nil_append]
      have hnext : records (bytes socket ++ chunk) <+: R socket := by
        have harrived : Arrives R (Function.update bytes socket (bytes socket ++ chunk)) :=
          fun k => (List.prefix_append _ (bytesOn k events)).trans
            (congrFun hbytes k ▸ harrives k)
        have hrecords := harrived.records hread socket
        rwa [Function.update_self] at hrecords
      obtain ⟨hfault, hok⟩ := h.read rx_time hcarries hframed hnext
      cases hstep : s.step (.read socket rx_time chunk) with
      | error fault =>
        refine ⟨fun fault' heq => ?_, fun _ heq => nomatch heq⟩
        cases heq
        exact hfault fault hstep
      | ok s₁ =>
        rw [← hbytes] at harrives
        exact ih (hok s₁ hstep) (hframed.read hstep) harrives
    | readFinished std_sort =>
      have hkept : AllAccepted R (s.recvFinishedCallback std_sort) :=
        ⟨fun c => ⟨(h.session c).bound, (h.session c).socket, (h.session c).numbers,
          (h.session c).next⟩, h.accepted, h.received⟩
      exact ih hkept ⟨hframed.log, hframed.inbound⟩ harrives

/-! ## The sequencer -/

/-- The requests written to the queue of the matching engine and those that wait. -/
def handedOn (s : OrderServer) : List MEClientRequest :=
  s.fifo_sequencer_.incoming_requests_ ++
    s.fifo_sequencer_.pending_client_requests_.map RecvTimeClientRequest.request_

/-- The sequencer changes the order of requests, and nothing else. -/
def Sequenced (s : OrderServer) : Prop :=
  s.handedOn.Perm (s.accepted.map fun a => a.request.me_client_request_)

theorem Sequenced.onRequest (h : Sequenced s)
    (hstep : s.onRequest socket rx_time request = .ok s') : Sequenced s' := by
  obtain ⟨-, ⟨-, rfl⟩ | ⟨-, haccept⟩⟩ := onRequest_cases hstep
  · unfold Sequenced handedOn at *
    rw [fifo_noted, accepted_noted]
    exact h
  · obtain ⟨fifo, hfifo, haccept⟩ := bind_eq_ok.mp haccept
    obtain rfl := Except.ok.inj haccept
    unfold FIFOSequencer.addClientRequest at hfifo
    split at hfifo
    · cases hfifo
    · obtain rfl := Except.ok.inj hfifo
      unfold Sequenced handedOn at *
      simp only [fifo_noted, accepted_noted, List.map_append, List.map_singleton]
      rw [← List.append_assoc]
      exact h.append_right _

theorem sequenced_new : Sequenced new := List.Perm.refl _

theorem Sequenced.step {event : Event} (h : Sequenced s) (hstep : s.step event = .ok s') :
    Sequenced s' := by
  cases event with
  | read socket rx_time bytes =>
    obtain ⟨s₁, hrecords, rfl⟩ := read_eq_ok hstep
    show Sequenced s₁
    refine Lib.Runs.invariant_of_step (fun s x s' hs hx => Sequenced.onRequest hs hx) ?_ hrecords
    exact h
  | readFinished std_sort =>
    obtain rfl := Except.ok.inj hstep
    refine List.Perm.trans ?_ h
    show (s.fifo_sequencer_.incoming_requests_ ++ _ ++ []).Perm _
    rw [List.append_nil]
    exact ((std_sort.perm _).map _).append_left _

end OrderServer

/-! ## From the gateways to the sequencer -/

/-- The gateways and their connections: each has requests of its own client to send, the clients are
different ones, and the system takes whatever a gateway hands to it. -/
structure Gateways (client_of : ℕ → ℕ) (turns : ℕ → List GatewayTurn) : Prop where
  own : ∀ k, ∀ x ∈ turns k, ∀ r ∈ x.client_requests, r.client_id_ = client_of k ∧
    r.type_.OnWire ∧ r.OnWire
  table : ∀ k, (turns k).flatMap GatewayTurn.client_requests ≠ [] → client_of k < ME_MAX_NUM_CLIENTS
  distinct : ∀ k k', (turns k).flatMap GatewayTurn.client_requests ≠ [] →
    (turns k').flatMap GatewayTurn.client_requests ≠ [] → client_of k = client_of k' → k = k'
  fits : ∀ k, ∀ x ∈ turns k, GatewayThread.Fits x
  short : ∀ k, ((turns k).flatMap GatewayTurn.client_requests).length < 2 ^ 64
  accepts : ∀ k, Lib.Runs.Along GatewayThread.turn GatewayThread.Accepts
    (GatewayThread.new (client_of k)) (turns k)

namespace Gateways

variable {client_of : ℕ → ℕ} {turns : ℕ → List GatewayTurn}

/-- What the gateway of connection `k` has to send. -/
def requests (turns : ℕ → List GatewayTurn) (k : ℕ) : List MEClientRequest :=
  (turns k).flatMap GatewayTurn.client_requests

theorem mem_own (h : Gateways client_of turns) {k : ℕ} {r : MEClientRequest}
    (hr : r ∈ requests turns k) : r.client_id_ = client_of k ∧ r.type_.OnWire ∧ r.OnWire := by
  obtain ⟨x, hx, hr⟩ := List.mem_flatMap.mp hr
  exact h.own k x hx r hr

theorem getElem?_requestRecords (requests : List MEClientRequest) (i : ℕ) :
    (requestRecords requests)[i]? = requests[i]?.map fun r => ⟨i + 1, r⟩ :=
  List.getElem?_mapIdx

theorem mem_requestRecords {requests : List MEClientRequest} {r : OMClientRequest}
    (hr : r ∈ requestRecords requests) :
    r.seq_num_ ≤ requests.length ∧ r.me_client_request_ ∈ requests := by
  obtain ⟨i, hi, rfl⟩ := List.mem_mapIdx.mp hr
  exact ⟨hi, List.getElem_mem hi⟩

theorem carries (h : Gateways client_of turns) :
    OrderServer.Carries client_of fun k => requestRecords (requests turns k) where
  client_id := by
    intro k r hr
    obtain ⟨-, hmem⟩ := mem_requestRecords hr
    exact ⟨(h.mem_own hmem).1, h.table k (List.ne_nil_of_mem hmem)⟩
  seq_num := by
    intro k i r hr
    rw [getElem?_requestRecords, Option.map_eq_some_iff] at hr
    obtain ⟨_, -, rfl⟩ := hr
    rfl
  distinct := by
    have hne : ∀ k, requestRecords (requests turns k) ≠ [] → requests turns k ≠ [] := by
      intro k hk hnil
      rw [hnil] at hk
      exact hk rfl
    exact fun k k' hk hk' => h.distinct k k' (hne k hk) (hne k' hk')

theorem read_back (h : Gateways client_of turns) (k : ℕ) :
    ∀ r ∈ requestRecords (requests turns k), OMClientRequest.ofBytes r.toBytes = r := by
  intro r hr
  obtain ⟨hseq, hmem⟩ := mem_requestRecords hr
  obtain ⟨-, htype, hwire⟩ := h.mem_own hmem
  exact OMClientRequest.ofBytes_toBytes (hseq.trans_lt (h.short k)) htype hwire

theorem records_requestStream (h : Gateways client_of turns) (k : ℕ) :
    records (requestStream (requests turns k)) = requestRecords (requests turns k) := by
  unfold requestStream records
  rw [Lib.Wire.whole_of_flatten OrderServer.size_pos, List.map_map]
  · exact (List.map_congr_left fun r hr => h.read_back k r hr).trans (List.map_id _)
  · intro record hrecord
    obtain ⟨r, -, rfl⟩ := List.mem_map.mp hrecord
    exact r.length_toBytes

end Gateways

open Gateways (requests)

def newRequest (client_id : ℕ) : MEClientRequest :=
  { type_ := .NEW, client_id_ := client_id, ticker_id_ := 0, order_id_ := 1, side_ := .BUY,
    price_ := 100, qty_ := 10 }

/-- Clients 1 and 2 are at the other end of the first two connections and send a request each, with
the next turn of their loops. -/
def twoTurns (k : ℕ) : List GatewayTurn :=
  if k < 2 then [⟨[], .all, [newRequest (k + 1)]⟩, ⟨[], .all, []⟩] else []

theorem onWire_newRequest {k : ℕ} (hk : k < 2) :
    (newRequest (k + 1)).type_.OnWire ∧ (newRequest (k + 1)).OnWire := by
  obtain rfl | rfl : k = 0 ∨ k = 1 := by omega
  · exact ⟨⟨by decide, rfl⟩, by decide, by decide, by decide, ⟨by decide, rfl⟩,
      ⟨by decide, by decide⟩, by decide⟩
  · exact ⟨⟨by decide, rfl⟩, by decide, by decide, by decide, ⟨by decide, rfl⟩,
      ⟨by decide, by decide⟩, by decide⟩

theorem gateways_twoTurns : Gateways (· + 1) twoTurns := by
  have hturns : ∀ k, ∀ x ∈ twoTurns k, k < 2 ∧ x.os = .all ∧
      (x.client_requests = [newRequest (k + 1)] ∨ x.client_requests = []) := by
    intro k x hx
    unfold twoTurns at hx
    split at hx
    · next hk =>
      rcases List.mem_cons.mp hx with rfl | hx
      · exact ⟨hk, rfl, .inl rfl⟩
      · rw [List.mem_singleton.mp hx]
        exact ⟨hk, rfl, .inr rfl⟩
    · cases hx
  have hfew : ∀ k, (twoTurns k).flatMap GatewayTurn.client_requests ≠ [] → k < 2 := by
    intro k hne
    obtain ⟨r, hr⟩ := List.exists_mem_of_ne_nil _ hne
    obtain ⟨x, hx, -⟩ := List.mem_flatMap.mp hr
    exact (hturns k x hx).1
  constructor
  · intro k x hx r hr
    obtain ⟨hk, -, heq | heq⟩ := hturns k x hx
    · rw [heq] at hr
      rw [List.mem_singleton.mp hr]
      exact ⟨rfl, onWire_newRequest hk⟩
    · rw [heq] at hr
      cases hr
  · exact fun k hne => (Nat.succ_lt_succ (hfew k hne)).trans_le (by decide)
  · exact fun k k' _ _ heq => Nat.succ_inj.mp heq
  · intro k x hx
    unfold GatewayThread.Fits
    obtain ⟨-, -, heq | heq⟩ := hturns k x hx
    · rw [heq, List.length_singleton]
      decide
    · rw [heq, List.length_nil]
      decide
  · intro k
    unfold twoTurns
    split
    · exact Nat.one_lt_two_pow (by decide)
    · exact Nat.two_pow_pos 64
  · intro k
    refine Lib.Runs.Along.mono ?_ (Lib.Runs.along_trivial.and_forall (hturns k))
    intro t x hx _
    rw [hx.2.2.1]
    rfl

/-- The record of the first client arrives in two pieces, and that of the second one in between. -/
def threeReads : List Event :=
  [.read 0 5 ((OMClientRequest.mk 1 (newRequest 1)).toBytes.take 20),
    .read 1 6 (OMClientRequest.mk 1 (newRequest 2)).toBytes,
    .read 0 7 ((OMClientRequest.mk 1 (newRequest 1)).toBytes.drop 20)]

end TradingEcosystem
