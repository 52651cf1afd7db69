import TradingEcosystem.Common.TcpSocket
import TradingEcosystem.Common.WireFormat

/-!
# The Order Server

`exchange/order_server/{order_server.h,fifo_sequencer.h}`: client requests are cut out of the
bytes of each connection, checked against the session of their client and handed to the FIFO
sequencer, which writes them to the matching engine's queue in order of receive time.

`received` and `accepted` are logs: every complete record read off a socket, and those handed to
the sequencer.
-/

namespace TradingEcosystem

open Lib.Runs (Along)

/-! ## The FIFO sequencer -/

def ME_MAX_PENDING_REQUESTS : ℕ := 1024

structure RecvTimeClientRequest where
  recv_time_ : ℤ := 0
  request_ : MEClientRequest := {}
  deriving DecidableEq, Repr, Inhabited

/-- `std::sort` with `operator<` of `RecvTimeClientRequest`: some sorted permutation. -/
structure StdSort where
  sort : List RecvTimeClientRequest → List RecvTimeClientRequest
  perm : ∀ l, (sort l).Perm l
  sorted : ∀ l, (sort l).Pairwise fun a b => ¬ b.recv_time_ < a.recv_time_

structure FIFOSequencer where
  /-- The first `pending_size_` entries of `pending_client_requests_`. -/
  pending_client_requests_ : List RecvTimeClientRequest := []
  /-- Everything written to the queue of the matching engine so far. -/
  incoming_requests_ : List MEClientRequest := []

namespace FIFOSequencer

/-- Queue up a client request. -/
def addClientRequest (f : FIFOSequencer) (rx_time : ℤ) (request : MEClientRequest) :
    Except Fault FIFOSequencer :=
  if f.pending_client_requests_.length ≥ ME_MAX_PENDING_REQUESTS then
    .error .assert
  else
    .ok { f with
      pending_client_requests_ := f.pending_client_requests_ ++ [⟨rx_time, request⟩] }

/-- Sort the pending requests by receive time and write them to the queue. -/
def sequenceAndPublish (f : FIFOSequencer) (std_sort : StdSort) : FIFOSequencer where
  pending_client_requests_ := []
  incoming_requests_ := f.incoming_requests_ ++
    (std_sort.sort f.pending_client_requests_).map RecvTimeClientRequest.request_

end FIFOSequencer

/-! ## The server -/

/-- A record and the socket it was read from. -/
structure Received where
  socket : ℕ
  request : OMClientRequest
  deriving DecidableEq, Repr

def Received.client_id (r : Received) : ℕ := r.request.me_client_request_.client_id_

structure OrderServer where
  cid_next_outgoing_seq_num_ : ℕ → ℕ := fun _ => 1
  cid_next_exp_seq_num_ : ℕ → ℕ := fun _ => 1
  cid_tcp_socket_ : ℕ → Option ℕ := fun _ => none
  /-- The connections of the TCP server. -/
  sockets : ℕ → TCPSocket := fun _ => {}
  fifo_sequencer_ : FIFOSequencer := {}
  received : List Received := []
  accepted : List Received := []

namespace OrderServer

def new : OrderServer := {}

/-- The first message of a client binds it to the socket. -/
def bindSocket (s : OrderServer) (client_id socket : ℕ) : OrderServer :=
  if s.cid_tcp_socket_ client_id = none then
    { s with cid_tcp_socket_ := Function.update s.cid_tcp_socket_ client_id (some socket) }
  else
    s

/-- Note a record, and bind its client if it is the first one. -/
def noted (s : OrderServer) (socket : ℕ) (request : OMClientRequest) : OrderServer :=
  ({ s with received := s.received ++ [⟨socket, request⟩] } : OrderServer).bindSocket
    request.me_client_request_.client_id_ socket

/-- The request is on the socket of its client and carries the expected number. -/
def InSession (s : OrderServer) (socket : ℕ) (request : OMClientRequest) : Prop :=
  s.cid_tcp_socket_ request.me_client_request_.client_id_ = some socket ∧
    request.seq_num_ = s.cid_next_exp_seq_num_ request.me_client_request_.client_id_

instance (s : OrderServer) (socket : ℕ) (request : OMClientRequest) :
    Decidable (s.InSession socket request) := inferInstanceAs (Decidable (_ ∧ _))

/-- Count the request and hand it to the sequencer. -/
def accept (s : OrderServer) (socket : ℕ) (rx_time : ℤ) (request : OMClientRequest) :
    Except Fault OrderServer := do
  let client_id := request.me_client_request_.client_id_
  -- the sequencer may be full
  let fifo ← s.fifo_sequencer_.addClientRequest rx_time request.me_client_request_
  .ok { s with
    cid_next_exp_seq_num_ :=
      Function.update s.cid_next_exp_seq_num_ client_id (s.cid_next_exp_seq_num_ client_id + 1)
    fifo_sequencer_ := fifo
    accepted := s.accepted ++ [⟨socket, request⟩] }

/-- The body of the loop of `recvCallback`.  The tables have `ME_MAX_NUM_CLIENTS` entries and are
indexed with whatever client id the record holds. -/
def onRequest (s : OrderServer) (socket : ℕ) (rx_time : ℤ) (request : OMClientRequest) :
    Except Fault OrderServer :=
  if request.me_client_request_.client_id_ < ME_MAX_NUM_CLIENTS then
    let s := s.noted socket request
    if s.InSession socket request then s.accept socket rx_time request else .ok s
  else
    .error .outOfRange

/-- The complete records in the receive buffer of a socket. -/
def records (inbound_data : List UInt8) : List OMClientRequest :=
  (Lib.Wire.whole OMClientRequest.size inbound_data).map OMClientRequest.ofBytes

def setInbound (s : OrderServer) (socket : ℕ) (inbound_data : List UInt8) : OrderServer :=
  { s with
    sockets :=
      Function.update s.sockets socket { s.sockets socket with inbound_data_ := inbound_data } }

/-- Read the client requests from the receive buffer of a socket. -/
def recvCallback (s : OrderServer) (socket : ℕ) (rx_time : ℤ) : Except Fault OrderServer := do
  let inbound_data := (s.sockets socket).inbound_data_
  let s ← (records inbound_data).foldlM (fun s request => s.onRequest socket rx_time request) s
  .ok (s.setInbound socket (Lib.Wire.rest OMClientRequest.size inbound_data))

/-- Bytes arrive on a socket. -/
def read (s : OrderServer) (socket : ℕ) (rx_time : ℤ) (bytes : List UInt8) :
    Except Fault OrderServer :=
  (s.setInbound socket ((s.sockets socket).inbound_data_ ++ bytes)).recvCallback socket rx_time

/-- All sockets have been read. -/
def recvFinishedCallback (s : OrderServer) (std_sort : StdSort) : OrderServer :=
  { s with fifo_sequencer_ := s.fifo_sequencer_.sequenceAndPublish std_sort }

/-- The body of the loop over the responses in `run`. -/
def sendResponse (s : OrderServer) (client_response : MEClientResponse) :
    Except Fault OrderServer :=
  let client_id := client_response.client_id_
  if client_id < ME_MAX_NUM_CLIENTS then
    match s.cid_tcp_socket_ client_id with
    -- `ASSERT(cid_tcp_socket_[client_id] != nullptr, ...)`
    | none => .error .assert
    | some socket => do
      let seq_num := s.cid_next_outgoing_seq_num_ client_id
      let connection ← (s.sockets socket).send (Lib.Wire.toBytes 8 seq_num)
      let connection ← connection.send client_response.toBytes
      .ok { s with
        sockets := Function.update s.sockets socket connection
        cid_next_outgoing_seq_num_ :=
          Function.update s.cid_next_outgoing_seq_num_ client_id (seq_num + 1) }
  else
    .error .outOfRange

/-! ## Runs -/

/-- What the TCP server calls back. -/
inductive Event where
  | read (socket : ℕ) (rx_time : ℤ) (bytes : List UInt8)
  | readFinished (std_sort : StdSort)

def step (s : OrderServer) : Event → Except Fault OrderServer
  | .read socket rx_time bytes => s.read socket rx_time bytes
  | .readFinished std_sort => .ok (s.recvFinishedCallback std_sort)

def run (s : OrderServer) (events : List Event) : Except Fault OrderServer :=
  events.foldlM step s

/-- The bytes that arrived on a socket. -/
def bytesOn (socket : ℕ) (events : List Event) : List UInt8 :=
  events.flatMap fun
    | .read socket' _ bytes => if socket' = socket then bytes else []
    | .readFinished _ => []

end OrderServer

end TradingEcosystem
