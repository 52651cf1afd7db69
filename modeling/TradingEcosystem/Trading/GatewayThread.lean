import TradingEcosystem.Trading.OrderGateway

/-!
# The Loop of the Order Gateway

`OrderGateway::run`: a turn of the loop first sends and receives on the socket, then takes every
request off the queue of the trade engine and writes it, numbered, to the send buffer.

- `GatewayThread.turn` : a turn of the loop
- `GatewayThread.received_run` : its callback sees the bytes that arrive as one stream
- `GatewayThread.Streams.run` : it goes through when the send buffer has room for the requests of each
  turn, and what it sends are the requests, numbered from one
-/

namespace TradingEcosystem

/-- The gateway with what its loop counts. -/
structure GatewayThread where
  gateway : OrderGateway
  next_outgoing_seq_num_ : ℕ := 1
  /-- Every request taken off the queue of the trade engine so far. -/
  sent : List MEClientRequest := []

/-- What a turn of the loop meets: the bytes that have arrived, how the system sends, and the
requests in the queue of the trade engine. -/
structure GatewayTurn where
  read : List UInt8
  os : SendSyscall
  client_requests : List MEClientRequest

namespace GatewayThread

def new (client_id : ℕ) : GatewayThread where
  gateway := .new client_id

def tcp_socket_ (t : GatewayThread) : TCPSocket := t.gateway.tcp_socket_

/-- The body of the loop over the requests.  The sequence number is of type `size_t`. -/
def sendRequest (t : GatewayThread) (client_request : MEClientRequest) :
    Except Fault GatewayThread := do
  let socket ← t.tcp_socket_.send (Lib.Wire.toBytes 8 t.next_outgoing_seq_num_)
  let socket ← socket.send client_request.toBytes
  .ok {
    gateway := { t.gateway with tcp_socket_ := socket }
    next_outgoing_seq_num_ := (t.next_outgoing_seq_num_ + 1) % 2 ^ 64
    sent := t.sent ++ [client_request] }

/-- `tcp_socket_.sendAndRecv()`, which only calls back when something was read. -/
def sendAndRecv (t : GatewayThread) (read : List UInt8) (os : SendSyscall) : GatewayThread :=
  let gateway := if read.length > 0 then t.gateway.read read else t.gateway
  { t with gateway := { gateway with tcp_socket_ := gateway.tcp_socket_.flush os } }

def turn (t : GatewayThread) (x : GatewayTurn) : Except Fault GatewayThread :=
  x.client_requests.foldlM sendRequest (t.sendAndRecv x.read x.os)

def run (t : GatewayThread) (turns : List GatewayTurn) : Except Fault GatewayThread :=
  turns.foldlM turn t

/-! ## The stream of requests -/

/-- The records with which requests are sent, numbered from one. -/
def requestRecords (requests : List MEClientRequest) : List OMClientRequest :=
  requests.mapIdx fun i request => ⟨i + 1, request⟩

def requestStream (requests : List MEClientRequest) : List UInt8 :=
  ((requestRecords requests).map OMClientRequest.toBytes).flatten

theorem length_requestRecords (requests : List MEClientRequest) :
    (requestRecords requests).length = requests.length :=
  List.length_mapIdx

theorem map_requestRecords (requests : List MEClientRequest) :
    (requestRecords requests).map (·.me_client_request_) = requests := by
  apply List.ext_getElem?
  intro i
  rw [List.getElem?_map, requestRecords, List.getElem?_mapIdx, Option.map_map]
  exact Option.map_id'

theorem requestStream_concat (requests : List MEClientRequest) (request : MEClientRequest) :
    requestStream (requests ++ [request]) =
      requestStream requests ++ (Lib.Wire.toBytes 8 (requests.length + 1) ++ request.toBytes) := by
  unfold requestStream requestRecords
  rw [List.mapIdx_concat, List.map_append, List.flatten_append]
  exact congrArg _ (List.append_nil _)

/-- The system takes whatever the turn has to send. -/
def Accepts (t : GatewayThread) (x : GatewayTurn) : Prop :=
  t.tcp_socket_.outbound_data_ ≠ [] →
    x.os.ret t.tcp_socket_.outbound_data_.length = t.tcp_socket_.outbound_data_.length

/-- The send buffer has room for the requests of a turn. -/
def Fits (x : GatewayTurn) : Prop :=
  x.client_requests.length * OMClientRequest.size ≤ TCPBufferSize

/-- What the gateway sent and what it still has to send are its requests. -/
structure Streams (t : GatewayThread) : Prop where
  seq_num : t.next_outgoing_seq_num_ = (t.sent.length + 1) % 2 ^ 64
  outbound : t.tcp_socket_.outbound = requestStream t.sent

variable {t t' : GatewayThread} {x : GatewayTurn} {turns : List GatewayTurn}

theorem streams_new (client_id : ℕ) : Streams (new client_id) := ⟨rfl, rfl⟩

/-- The callback does not touch the send buffer. -/
theorem outbound_onResponse (responses : List OMClientResponse) :
    ∀ g : OrderGateway,
      (responses.foldl OrderGateway.onResponse g).tcp_socket_ = g.tcp_socket_ := by
  induction responses with
  | nil => exact fun _ => rfl
  | cons response responses ih =>
    intro g
    rw [List.foldl_cons, ih]
    unfold OrderGateway.onResponse
    split
    · rfl
    · split
      · rfl
      · rfl

theorem read_frame (g : OrderGateway) (bytes : List UInt8) :
    (g.read bytes).tcp_socket_.wire = g.tcp_socket_.wire ∧
      (g.read bytes).tcp_socket_.outbound_data_ = g.tcp_socket_.outbound_data_ := by
  unfold OrderGateway.read OrderGateway.recvCallback OrderGateway.setInbound
  simp only [outbound_onResponse, and_self]

/-- What was pending has been sent. -/
theorem Streams.sendAndRecv (h : t.Streams) (haccepts : t.Accepts x) :
    (t.sendAndRecv x.read x.os).Streams ∧
      (t.sendAndRecv x.read x.os).tcp_socket_.outbound_data_ = [] := by
  have hframe : ∀ g : OrderGateway, g = (if x.read.length > 0 then t.gateway.read x.read
      else t.gateway) → g.tcp_socket_.wire = t.tcp_socket_.wire ∧
        g.tcp_socket_.outbound_data_ = t.tcp_socket_.outbound_data_ := by
    rintro g rfl
    split
    · exact read_frame ..
    · exact ⟨rfl, rfl⟩
  obtain ⟨hwire, hpending⟩ := hframe _ rfl
  refine ⟨⟨h.seq_num, ?_⟩, rfl⟩
  show (TCPSocket.flush _ x.os).outbound = requestStream t.sent
  rw [← h.outbound]
  rw [TCPSocket.outbound_flush, hwire, hpending]
  unfold TCPSocket.outbound
  apply congrArg (t.tcp_socket_.wire ++ ·)
  apply List.take_of_length_le
  by_cases hnil : t.tcp_socket_.outbound_data_ = []
  · rw [hnil]
    exact Nat.zero_le _
  · rw [haccepts hnil]
    exact le_rfl

/-- One request more in the send buffer. -/
theorem Streams.sendRequest (h : t.Streams) (request : MEClientRequest)
    (hroom : t.tcp_socket_.outbound_data_.length + OMClientRequest.size ≤ TCPBufferSize) :
    ∃ t', t.sendRequest request = .ok t' ∧ t'.Streams ∧ t'.sent = t.sent ++ [request] ∧
      t'.tcp_socket_.outbound_data_.length =
        t.tcp_socket_.outbound_data_.length + OMClientRequest.size := by
  have hseq : (Lib.Wire.toBytes 8 t.next_outgoing_seq_num_).length = 8 :=
    Lib.Wire.length_toBytes 8 _
  have hrecord : (OMClientRequest.mk 0 request).toBytes.length = OMClientRequest.size :=
    OMClientRequest.length_toBytes _
  unfold OMClientRequest.toBytes at hrecord
  rw [List.length_append, Lib.Wire.length_toBytes] at hrecord
  change 8 + request.toBytes.length = OMClientRequest.size at hrecord
  have hfirst : t.tcp_socket_.send (Lib.Wire.toBytes 8 t.next_outgoing_seq_num_) = _ :=
    if_pos (by omega)
  have hsecond : ({ t.tcp_socket_ with
      outbound_data_ := t.tcp_socket_.outbound_data_ ++
        Lib.Wire.toBytes 8 t.next_outgoing_seq_num_ } : TCPSocket).send request.toBytes = _ :=
    if_pos (by
      rw [List.length_append]
      omega)
  refine ⟨_, bind_eq_ok.mpr ⟨_, hfirst, bind_eq_ok.mpr ⟨_, hsecond, rfl⟩⟩, ⟨?_, ?_⟩, rfl, ?_⟩
  · show (t.next_outgoing_seq_num_ + 1) % 2 ^ 64 = _
    rw [h.seq_num, Nat.mod_add_mod, List.length_append]
    rfl
  · show t.tcp_socket_.wire ++ (t.tcp_socket_.outbound_data_ ++ _ ++ request.toBytes) = _
    rw [requestStream_concat, ← h.outbound, TCPSocket.outbound, h.seq_num,
      show (2 : ℕ) ^ 64 = 256 ^ 8 from rfl, Lib.Wire.toBytes_mod 8, List.append_assoc,
      List.append_assoc]
  · show (t.tcp_socket_.outbound_data_ ++ _ ++ request.toBytes).length = _
    rw [List.length_append, List.length_append]
    omega

/-- The requests of a turn; induction on them. -/
theorem Streams.sendRequests (requests : List MEClientRequest) :
    ∀ {t : GatewayThread}, t.Streams →
      t.tcp_socket_.outbound_data_.length + requests.length * OMClientRequest.size ≤
        TCPBufferSize →
      ∃ t', requests.foldlM GatewayThread.sendRequest t = .ok t' ∧ t'.Streams ∧
        t'.sent = t.sent ++ requests := by
  induction requests with
  | nil =>
    intro t h _
    exact ⟨t, rfl, h, (List.append_nil _).symm⟩
  | cons request requests ih =>
    intro t h hroom
    rw [List.length_cons, Nat.succ_mul] at hroom
    obtain ⟨t₁, hsend, h₁, hsent, hlen⟩ := h.sendRequest request (by omega)
    obtain ⟨t', hrun, h', hsent'⟩ := ih h₁ (by omega)
    refine ⟨t', Lib.Runs.foldlM_cons_eq_ok.mpr ⟨t₁, hsend, hrun⟩, h', ?_⟩
    rw [hsent', hsent, List.append_assoc]
    rfl

theorem Streams.turn (h : t.Streams) (haccepts : t.Accepts x) (hfits : Fits x) :
    ∃ t', t.turn x = .ok t' ∧ t'.Streams ∧ t'.sent = t.sent ++ x.client_requests := by
  obtain ⟨h₁, hempty⟩ := h.sendAndRecv haccepts
  refine h₁.sendRequests x.client_requests ?_
  rw [hempty, List.length_nil, Nat.zero_add]
  exact hfits

/-- **The loop sends the requests**, numbered from one, and none else; induction on its turns. -/
theorem Streams.run (hfits : ∀ x ∈ turns, Fits x) :
    ∀ {t : GatewayThread}, t.Streams → Lib.Runs.Along GatewayThread.turn Accepts t turns →
      ∃ t', t.run turns = .ok t' ∧ t'.Streams ∧
        t'.sent = t.sent ++ turns.flatMap GatewayTurn.client_requests := by
  induction turns with
  | nil =>
    intro t h _
    exact ⟨t, rfl, h, (List.append_nil _).symm⟩
  | cons x turns ih =>
    intro t h haccepts
    obtain ⟨hx, hturns⟩ := List.forall_mem_cons.mp hfits
    obtain ⟨t₁, hturn, h₁, hsent⟩ := h.turn haccepts.1 hx
    obtain ⟨t', hrun, h', hsent'⟩ := ih hturns h₁ (haccepts.2 t₁ hturn)
    refine ⟨t', Lib.Runs.foldlM_cons_eq_ok.mpr ⟨t₁, hturn, hrun⟩, h', ?_⟩
    rw [hsent', hsent, List.append_assoc]
    rfl

/-! ## The stream of responses -/

/-- The gateway without what concerns the requests. -/
def receiver (t : GatewayThread) : OrderGateway :=
  { t.gateway with tcp_socket_ := { inbound_data_ := t.gateway.tcp_socket_.inbound_data_ } }

/-- The bytes that arrive in some turns. -/
def arriving (turns : List GatewayTurn) : List UInt8 := turns.flatMap GatewayTurn.read

/-- The callback does not look at the send buffer; induction on the responses. -/
theorem foldl_onResponse_socket (responses : List OMClientResponse) :
    ∀ (g : OrderGateway) (socket : TCPSocket),
      responses.foldl OrderGateway.onResponse { g with tcp_socket_ := socket } =
        { responses.foldl OrderGateway.onResponse g with tcp_socket_ := socket } := by
  induction responses with
  | nil => exact fun _ _ => rfl
  | cons response responses ih =>
    intro g socket
    have hfirst : ({ g with tcp_socket_ := socket } : OrderGateway).onResponse response =
        { g.onResponse response with tcp_socket_ := socket } := by
      unfold OrderGateway.onResponse
      split
      · rfl
      · split
        · rfl
        · rfl
    rw [List.foldl_cons, List.foldl_cons, hfirst, ih]

theorem receiver_sendAndRecv (t : GatewayThread) (read : List UInt8) (os : SendSyscall) :
    (t.sendAndRecv read os).receiver =
      if read.length > 0 then t.receiver.read read else t.receiver := by
  unfold sendAndRecv receiver
  by_cases hread : read.length > 0
  · simp only [if_pos hread]
    unfold OrderGateway.read OrderGateway.recvCallback OrderGateway.setInbound
    simp only [foldl_onResponse_socket]
    rfl
  · simp only [if_neg hread]
    rfl

theorem receiver_sendRequest {request : MEClientRequest} (h : t.sendRequest request = .ok t') :
    t'.receiver = t.receiver := by
  have hsend : ∀ {socket socket' : TCPSocket} {data : List UInt8},
      socket.send data = .ok socket' → socket'.inbound_data_ = socket.inbound_data_ := by
    intro socket socket' data hdata
    unfold TCPSocket.send at hdata
    split at hdata
    · obtain rfl := Except.ok.inj hdata
      rfl
    · cases hdata
  obtain ⟨first, hfirst, h⟩ := bind_eq_ok.mp h
  obtain ⟨second, hsecond, h⟩ := bind_eq_ok.mp h
  obtain rfl := Except.ok.inj h
  unfold receiver
  simp only
  rw [hsend hsecond, hsend hfirst]
  rfl

/-- A turn reads the bytes that have arrived. -/
theorem received_turn {client_id : ℕ} {stream : List UInt8}
    (h : OrderGateway.Received client_id t.receiver stream) (hturn : t.turn x = .ok t') :
    OrderGateway.Received client_id t'.receiver (stream ++ x.read) := by
  have hread : OrderGateway.Received client_id (t.sendAndRecv x.read x.os).receiver
      (stream ++ x.read) := by
    rw [receiver_sendAndRecv]
    split
    · exact h.read x.read
    · next hnone =>
      have hnil : x.read = [] := List.eq_nil_of_length_eq_zero (Nat.eq_zero_of_not_pos hnone)
      rw [hnil, List.append_nil]
      exact h
  refine Lib.Runs.invariant_of_step
    (I := fun t => OrderGateway.Received client_id t.receiver (stream ++ x.read)) ?_ hread hturn
  intro t request t' h hstep
  rw [receiver_sendRequest hstep]
  exact h

/-- **The callback sees one stream**, however it is cut; induction on the turns. -/
theorem received_run {client_id : ℕ} :
    ∀ {t t' : GatewayThread} {stream : List UInt8},
      OrderGateway.Received client_id t.receiver stream → t.run turns = .ok t' →
      OrderGateway.Received client_id t'.receiver (stream ++ arriving turns) := by
  induction turns with
  | nil =>
    intro t t' stream h hrun
    obtain rfl : t = t' := Except.ok.inj hrun
    rw [arriving, List.flatMap_nil, List.append_nil]
    exact h
  | cons x turns ih =>
    intro t t' stream h hrun
    obtain ⟨t₁, hturn, hrest⟩ := Lib.Runs.foldlM_cons_eq_ok.mp hrun
    have hall := ih (received_turn h hturn) hrest
    rw [List.append_assoc] at hall
    exact hall

end GatewayThread

end TradingEcosystem
