import TradingEcosystem.Common.TcpSocket
import TradingEcosystem.Common.WireFormat

/-!
# The Order Gateway

`trading/order_gw/order_gateway.{h,cpp}`: the responses to one client are cut out of the bytes of
its connection, checked and forwarded to the trade engine.

`rejected` is a log of the responses the checks turned away.

- `recvCallback` : the loop over the complete records of the receive buffer
- `Received.read` : wherever the stream is cut, the same responses are processed
- `numbered_forwarded` : responses to the client that are numbered in order are all forwarded
-/

namespace TradingEcosystem

structure OrderGateway where
  client_id_ : ℕ
  /-- Everything written to the queue of the trade engine so far. -/
  incoming_responses_ : List MEClientResponse := []
  next_exp_seq_num_ : ℕ := 1
  tcp_socket_ : TCPSocket := {}
  rejected : List OMClientResponse := []

namespace OrderGateway

def new (client_id : ℕ) : OrderGateway where
  client_id_ := client_id

/-- The body of the loop of `recvCallback`.  Sequence numbers are of type `size_t`. -/
def onResponse (g : OrderGateway) (response : OMClientResponse) : OrderGateway :=
  if response.me_client_response_.client_id_ ≠ g.client_id_ then
    { g with rejected := g.rejected ++ [response] }
  else if response.seq_num_ ≠ g.next_exp_seq_num_ then
    { g with rejected := g.rejected ++ [response] }
  else
    { g with
      next_exp_seq_num_ := (g.next_exp_seq_num_ + 1) % 2 ^ 64
      incoming_responses_ := g.incoming_responses_ ++ [response.me_client_response_] }

/-- The complete records in a receive buffer. -/
def records (inbound_data : List UInt8) : List OMClientResponse :=
  (Lib.Wire.whole OMClientResponse.size inbound_data).map OMClientResponse.ofBytes

def setInbound (g : OrderGateway) (inbound_data : List UInt8) : OrderGateway :=
  { g with tcp_socket_ := { g.tcp_socket_ with inbound_data_ := inbound_data } }

/-- Read the client responses from the receive buffer. -/
def recvCallback (g : OrderGateway) : OrderGateway :=
  let inbound_data := g.tcp_socket_.inbound_data_
  ((records inbound_data).foldl onResponse g).setInbound
    (Lib.Wire.rest OMClientResponse.size inbound_data)

/-- Bytes arrive from the exchange. -/
def read (g : OrderGateway) (bytes : List UInt8) : OrderGateway :=
  (g.setInbound (g.tcp_socket_.inbound_data_ ++ bytes)).recvCallback

/-! ## Chunks of a stream -/

variable {g : OrderGateway} {stream bytes : List UInt8}

theorem size_pos : 0 < OMClientResponse.size := by decide

/-- The receive buffer does not matter for how a response is processed. -/
theorem onResponse_setInbound (g : OrderGateway) (inbound : List UInt8)
    (response : OMClientResponse) :
    (g.setInbound inbound).onResponse response = (g.onResponse response).setInbound inbound := by
  unfold onResponse
  rw [apply_ite (fun g : OrderGateway => g.setInbound inbound),
    apply_ite (fun g : OrderGateway => g.setInbound inbound)]
  rfl

/-- Induction on the responses. -/
theorem foldl_setInbound (inbound : List UInt8) (responses : List OMClientResponse) :
    ∀ g : OrderGateway, responses.foldl onResponse (g.setInbound inbound) =
      (responses.foldl onResponse g).setInbound inbound := by
  induction responses with
  | nil =>
    intro g
    rfl
  | cons response responses ih =>
    intro g
    rw [List.foldl_cons, onResponse_setInbound, ih]
    rfl

/-- The state of the gateway of a client when the bytes of `stream` have arrived. -/
def Received (client_id : ℕ) (g : OrderGateway) (stream : List UInt8) : Prop :=
  g = ((records stream).foldl onResponse (new client_id)).setInbound
    (Lib.Wire.rest OMClientResponse.size stream)

theorem received_new (client_id : ℕ) : Received client_id (new client_id) [] := rfl

/-- **Wherever the stream is cut**, the same responses are processed. -/
theorem Received.read {client_id : ℕ} (h : Received client_id g stream) (bytes : List UInt8) :
    Received client_id (g.read bytes) (stream ++ bytes) := by
  have hrecords : records (stream ++ bytes) =
      records stream ++ records (Lib.Wire.rest OMClientResponse.size stream ++ bytes) := by
    unfold records
    rw [Lib.Wire.whole_append size_pos, List.map_append]
  unfold Received at h ⊢
  rw [hrecords, Lib.Wire.rest_append size_pos, List.foldl_append]
  generalize hbefore : (records stream).foldl onResponse (new client_id) = before at h ⊢
  subst h
  unfold OrderGateway.read recvCallback
  simp only [foldl_setInbound]
  rfl

/-! ## Responses in order -/

/-- The records with which the responses to one client are sent, the first of them numbered
`seq_num`. -/
def numbered (seq_num : ℕ) (responses : List MEClientResponse) : List OMClientResponse :=
  responses.mapIdx fun i response => ⟨(seq_num + i) % 2 ^ 64, response⟩

/-- **Responses to the client that are numbered in order are all forwarded**, and none is turned
away; induction on the responses. -/
theorem numbered_forwarded {responses : List MEClientResponse} :
    ∀ {g : OrderGateway} {seq_num : ℕ}, (∀ r ∈ responses, r.client_id_ = g.client_id_) →
      g.next_exp_seq_num_ = seq_num % 2 ^ 64 →
      ((numbered seq_num responses).foldl onResponse g).incoming_responses_ =
          g.incoming_responses_ ++ responses ∧
        ((numbered seq_num responses).foldl onResponse g).rejected = g.rejected := by
  induction responses with
  | nil =>
    intro g seq_num _ _
    exact ⟨(List.append_nil _).symm, rfl⟩
  | cons response responses ih =>
    intro g seq_num hclient hseq
    obtain ⟨hfirst, hrest⟩ := List.forall_mem_cons.mp hclient
    have hcons : numbered seq_num (response :: responses) =
        ⟨seq_num % 2 ^ 64, response⟩ :: numbered (seq_num + 1) responses := by
      unfold numbered
      simp only [List.mapIdx_cons, Nat.add_zero, Nat.add_assoc, Nat.add_comm 1]
    have hstep : g.onResponse ⟨seq_num % 2 ^ 64, response⟩ =
        { g with
          next_exp_seq_num_ := (seq_num + 1) % 2 ^ 64
          incoming_responses_ := g.incoming_responses_ ++ [response] } := by
      unfold onResponse
      rw [if_neg (not_not.mpr hfirst), if_neg (not_not.mpr hseq.symm), hseq, Nat.mod_add_mod]
    rw [hcons, List.foldl_cons, hstep]
    obtain ⟨hincoming, hrejected⟩ := ih (g := { g with
      next_exp_seq_num_ := (seq_num + 1) % 2 ^ 64
      incoming_responses_ := g.incoming_responses_ ++ [response] }) hrest rfl
    rw [hincoming, hrejected, List.append_assoc]
    exact ⟨rfl, rfl⟩

theorem length_numbered (seq_num : ℕ) (responses : List MEClientResponse) :
    (numbered seq_num responses).length = responses.length :=
  List.length_mapIdx

theorem numbered_take (seq_num n : ℕ) (responses : List MEClientResponse) :
    numbered seq_num (responses.take n) = (numbered seq_num responses).take n := by
  apply List.ext_getElem
  · rw [length_numbered, List.length_take, List.length_take, length_numbered]
  · intro i _ _
    simp only [numbered, List.getElem_mapIdx, List.getElem_take]

/-- **The records are read back from their bytes.** -/
theorem ofBytes_numbered (seq_num : ℕ) {responses : List MEClientResponse}
    (hwire : ∀ r ∈ responses, r.OnWire) :
    ((numbered seq_num responses).map OMClientResponse.toBytes).map OMClientResponse.ofBytes =
      numbered seq_num responses := by
  rw [List.map_map]
  conv_rhs => rw [← List.map_id (numbered seq_num responses)]
  apply List.map_congr_left
  intro record hrecord
  obtain ⟨i, hi, rfl⟩ := List.mem_mapIdx.mp hrecord
  exact OMClientResponse.ofBytes_toBytes (Nat.mod_lt _ (Nat.two_pow_pos 64))
    (hwire _ (List.getElem_mem hi))

theorem numbered_concat (seq_num : ℕ) (responses : List MEClientResponse) (r : MEClientResponse) :
    numbered seq_num (responses ++ [r]) =
      numbered seq_num responses ++ [⟨(seq_num + responses.length) % 2 ^ 64, r⟩] :=
  List.mapIdx_concat

end OrderGateway

end TradingEcosystem
