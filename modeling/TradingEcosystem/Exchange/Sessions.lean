import TradingEcosystem.Exchange.OrderServer

/-!
# Client Sessions

What `OrderServer::recvCallback` hands to the sequencer, whatever arrives on however many sockets.

- `Session` : the requests accepted from one client come from the first socket it appeared on and
  are numbered one after the other
- `onRequest_of_not_inSession` : a request on another socket, a repeat or a gap has no effect
- `sessions_iff_guarded` : this holds in every run as long as no record names a client id outside
  the tables, and no longer
-/

namespace TradingEcosystem.OrderServer

open Lib.Runs (Along)

/-! ## The law of one client -/

/-- The records of a client in a log. -/
def ofClient (c : ℕ) (log : List Received) : List Received :=
  log.filter fun r => decide (r.client_id = c)

/-- The session of client `c`. -/
structure Session (s : OrderServer) (c : ℕ) : Prop where
  /-- The client is bound to the socket of its first record. -/
  bound : s.cid_tcp_socket_ c = ((ofClient c s.received).head?).map Received.socket
  /-- All its accepted requests come from there. -/
  socket : ∀ r ∈ ofClient c s.accepted, s.cid_tcp_socket_ c = some r.socket
  /-- They are numbered from one. -/
  numbers : (ofClient c s.accepted).map (fun r => r.request.seq_num_) =
    List.range' 1 (ofClient c s.accepted).length
  next : s.cid_next_exp_seq_num_ c = (ofClient c s.accepted).length + 1

theorem ofClient_append (c : ℕ) (log log' : List Received) :
    ofClient c (log ++ log') = ofClient c log ++ ofClient c log' :=
  List.filter_append ..

theorem ofClient_self {c : ℕ} {request : OMClientRequest}
    (h : request.me_client_request_.client_id_ = c) (socket : ℕ) :
    ofClient c [⟨socket, request⟩] = [⟨socket, request⟩] :=
  List.filter_cons_of_pos (decide_eq_true h)

theorem ofClient_ne {c : ℕ} {request : OMClientRequest}
    (h : request.me_client_request_.client_id_ ≠ c) (socket : ℕ) :
    ofClient c [⟨socket, request⟩] = [] :=
  List.filter_cons_of_neg fun heq => h (of_decide_eq_true heq)

theorem session_new (c : ℕ) : Session new c where
  bound := rfl
  socket := fun _ hr => absurd hr List.not_mem_nil
  numbers := rfl
  next := rfl

/-! ## One record -/

variable {s s' : OrderServer} {socket : ℕ} {rx_time : ℤ} {request : OMClientRequest}

@[simp] theorem received_noted : (s.noted socket request).received =
    s.received ++ [⟨socket, request⟩] := by
  unfold noted bindSocket
  split <;> rfl

@[simp] theorem accepted_noted : (s.noted socket request).accepted = s.accepted := by
  unfold noted bindSocket
  split <;> rfl

@[simp] theorem next_exp_noted :
    (s.noted socket request).cid_next_exp_seq_num_ = s.cid_next_exp_seq_num_ := by
  unfold noted bindSocket
  split <;> rfl

@[simp] theorem sockets_noted : (s.noted socket request).sockets = s.sockets := by
  unfold noted bindSocket
  split <;> rfl

@[simp] theorem fifo_noted : (s.noted socket request).fifo_sequencer_ = s.fifo_sequencer_ := by
  unfold noted bindSocket
  split <;> rfl

theorem socket_noted_of_bound {socket' : ℕ}
    (h : s.cid_tcp_socket_ request.me_client_request_.client_id_ = some socket') :
    (s.noted socket request).cid_tcp_socket_ = s.cid_tcp_socket_ := by
  unfold noted bindSocket
  rw [if_neg (by rw [h]; exact Option.some_ne_none _)]

theorem socket_noted_of_none
    (h : s.cid_tcp_socket_ request.me_client_request_.client_id_ = none) :
    (s.noted socket request).cid_tcp_socket_ =
      Function.update s.cid_tcp_socket_ request.me_client_request_.client_id_ (some socket) := by
  unfold noted bindSocket
  rw [if_pos h]

/-- What `onRequest` does, branch by branch. -/
theorem onRequest_cases (h : s.onRequest socket rx_time request = .ok s') :
    request.me_client_request_.client_id_ < ME_MAX_NUM_CLIENTS ∧
    ((¬ (s.noted socket request).InSession socket request ∧ s' = s.noted socket request) ∨
     ((s.noted socket request).InSession socket request ∧
      (s.noted socket request).accept socket rx_time request = .ok s')) := by
  unfold onRequest at h
  split at h
  · next hclient =>
    refine ⟨hclient, ?_⟩
    by_cases hin : (s.noted socket request).InSession socket request
    · refine .inr ⟨hin, ?_⟩
      simpa only [if_pos hin] using h
    · refine .inl ⟨hin, ?_⟩
      simp only [if_neg hin] at h
      exact (Except.ok.inj h).symm
  · cases h

/-- What `accept` does. -/
theorem accept_eq_ok (h : s.accept socket rx_time request = .ok s') :
    s'.received = s.received ∧ s'.cid_tcp_socket_ = s.cid_tcp_socket_ ∧ s'.sockets = s.sockets ∧
      s'.accepted = s.accepted ++ [⟨socket, request⟩] ∧
      s'.cid_next_exp_seq_num_ = Function.update s.cid_next_exp_seq_num_
        request.me_client_request_.client_id_
        (s.cid_next_exp_seq_num_ request.me_client_request_.client_id_ + 1) ∧
      s'.fifo_sequencer_.pending_client_requests_ =
        s.fifo_sequencer_.pending_client_requests_ ++ [⟨rx_time, request.me_client_request_⟩] := by
  obtain ⟨fifo, hfifo, h⟩ := bind_eq_ok.mp h
  obtain rfl := Except.ok.inj h
  refine ⟨rfl, rfl, rfl, rfl, rfl, ?_⟩
  unfold FIFOSequencer.addClientRequest at hfifo
  split at hfifo
  · cases hfifo
  · obtain rfl := Except.ok.inj hfifo
    rfl

/-- The first record of a client is what its binding is made of. -/
theorem bound_noted {c : ℕ}
    (hbound : s.cid_tcp_socket_ c = ((ofClient c s.received).head?).map Received.socket) :
    (s.noted socket request).cid_tcp_socket_ c =
      ((ofClient c (s.noted socket request).received).head?).map Received.socket := by
  rw [received_noted, ofClient_append]
  by_cases hc : request.me_client_request_.client_id_ = c
  · subst hc
    rw [ofClient_self rfl]
    cases hsock : s.cid_tcp_socket_ request.me_client_request_.client_id_ with
    | none =>
      -- nothing of this client was received before
      rw [hsock] at hbound
      have hnil : ofClient request.me_client_request_.client_id_ s.received = [] :=
        List.head?_eq_none_iff.mp (Option.map_eq_none_iff.mp hbound.symm)
      rw [socket_noted_of_none hsock, Function.update_self, hnil]
      rfl
    | some socket' =>
      rw [hsock] at hbound
      obtain ⟨r, hr, hr'⟩ := Option.map_eq_some_iff.mp hbound.symm
      rw [socket_noted_of_bound hsock, hsock, List.head?_append, hr]
      exact congrArg some hr'.symm
  · rw [ofClient_ne hc, List.append_nil, ← hbound]
    cases hsock : s.cid_tcp_socket_ request.me_client_request_.client_id_ with
    | none => rw [socket_noted_of_none hsock, Function.update_of_ne (Ne.symm hc)]
    | some socket' => rw [socket_noted_of_bound hsock]

/-- A client that is bound stays where it is. -/
theorem bound_stays {c socket' : ℕ} (h : s.cid_tcp_socket_ c = some socket') :
    (s.noted socket request).cid_tcp_socket_ c = some socket' := by
  cases hsock : s.cid_tcp_socket_ request.me_client_request_.client_id_ with
  | none =>
    have hne : c ≠ request.me_client_request_.client_id_ := by
      intro heq
      rw [heq, hsock] at h
      cases h
    rw [socket_noted_of_none hsock, Function.update_of_ne hne, h]
  | some socket'' => rw [socket_noted_of_bound hsock, h]

theorem Session.noted {c : ℕ} (h : Session s c) : Session (s.noted socket request) c where
  bound := bound_noted h.bound
  socket := by
    intro r hr
    rw [accepted_noted] at hr
    exact bound_stays (h.socket r hr)
  numbers := by
    rw [accepted_noted]
    exact h.numbers
  next := by
    rw [accepted_noted, next_exp_noted]
    exact h.next

/-- **A record keeps every session.** -/
theorem Session.onRequest {c : ℕ} (h : Session s c)
    (hstep : s.onRequest socket rx_time request = .ok s') : Session s' c := by
  obtain ⟨-, ⟨-, rfl⟩ | ⟨hin, haccept⟩⟩ := onRequest_cases hstep
  · exact h.noted
  · have hnoted : Session (s.noted socket request) c := h.noted
    obtain ⟨hreceived, hsocket, -, haccepted, hnext, -⟩ := accept_eq_ok haccept
    rw [accepted_noted] at haccepted
    by_cases hc : request.me_client_request_.client_id_ = c
    · -- the accepted request is the next one of client `c`
      subst hc
      have hlog : ofClient request.me_client_request_.client_id_ s'.accepted =
          ofClient request.me_client_request_.client_id_ s.accepted ++ [⟨socket, request⟩] := by
        rw [haccepted, ofClient_append, ofClient_self rfl]
      have hnumber := hnoted.next
      rw [accepted_noted] at hnumber
      constructor
      · rw [hsocket, hreceived]
        exact hnoted.bound
      · intro r hr
        rw [hlog] at hr
        rw [hsocket]
        rcases List.mem_append.mp hr with hr | hr
        · exact hnoted.socket r (by rwa [accepted_noted])
        · obtain rfl := List.mem_singleton.mp hr
          exact hin.1
      · rw [hlog, List.map_append, h.numbers, List.length_append, List.length_singleton,
          List.range'_1_concat]
        apply congrArg (List.range' 1 _ ++ ·)
        have hseq := hin.2
        rw [hnumber] at hseq
        rw [List.map_singleton, hseq, Nat.add_comm]
      · rw [hnext, Function.update_self, hnumber, hlog, List.length_append, List.length_singleton]
    · have hlog : ofClient c s'.accepted = ofClient c s.accepted := by
        rw [haccepted, ofClient_append, ofClient_ne hc, List.append_nil]
      constructor
      · rw [hsocket, hreceived]
        exact hnoted.bound
      · intro r hr
        rw [hlog] at hr
        rw [hsocket]
        exact hnoted.socket r (by rwa [accepted_noted])
      · rw [hlog]
        exact h.numbers
      · rw [hnext, Function.update_of_ne (Ne.symm hc), hlog, next_exp_noted]
        exact h.next

/-- **A request on another socket, a repeat or a gap has no effect** but to be noted. -/
theorem onRequest_of_not_inSession (hin : ¬ (s.noted socket request).InSession socket request)
    (hstep : s.onRequest socket rx_time request = .ok s') :
    s'.cid_next_exp_seq_num_ = s.cid_next_exp_seq_num_ ∧ s'.accepted = s.accepted := by
  obtain ⟨-, ⟨-, rfl⟩ | ⟨hin', -⟩⟩ := onRequest_cases hstep
  · exact ⟨next_exp_noted, accepted_noted⟩
  · exact absurd hin' hin

/-! ## What was received -/

/-- The records of a socket in a log. -/
def onSocket (socket : ℕ) (log : List Received) : List OMClientRequest :=
  (log.filter fun r => decide (r.socket = socket)).map Received.request

theorem onSocket_append (socket : ℕ) (log log' : List Received) :
    onSocket socket (log ++ log') = onSocket socket log ++ onSocket socket log' := by
  unfold onSocket
  rw [List.filter_append, List.map_append]

/-- The records of one read are all on one socket. -/
theorem onSocket_map_self (socket : ℕ) (rs : List OMClientRequest) :
    onSocket socket (rs.map (⟨socket, ·⟩)) = rs := by
  unfold onSocket
  rw [List.filter_eq_self.mpr]
  · rw [List.map_map]
    exact List.map_id _
  · intro r hr
    obtain ⟨request, -, rfl⟩ := List.mem_map.mp hr
    exact decide_eq_true rfl

theorem onSocket_map_ne {socket socket' : ℕ} (h : socket' ≠ socket) (rs : List OMClientRequest) :
    onSocket socket' (rs.map (⟨socket, ·⟩)) = [] := by
  unfold onSocket
  rw [List.filter_eq_nil_iff.mpr]
  · rfl
  · intro r hr
    obtain ⟨request, -, rfl⟩ := List.mem_map.mp hr
    exact fun heq => h (of_decide_eq_true heq).symm

theorem inbound_setInbound_self (s : OrderServer) (socket : ℕ) (bytes : List UInt8) :
    ((s.setInbound socket bytes).sockets socket).inbound_data_ = bytes := by
  unfold setInbound
  simp only [Function.update_self]

theorem sockets_setInbound_ne (s : OrderServer) {socket socket' : ℕ} (h : socket' ≠ socket)
    (bytes : List UInt8) : (s.setInbound socket bytes).sockets socket' = s.sockets socket' :=
  Function.update_of_ne h ..

/-- What a record that is processed does to the log, and what it leaves alone. -/
theorem received_onRequest (hstep : s.onRequest socket rx_time request = .ok s') :
    s'.received = s.received ++ [⟨socket, request⟩] ∧ s'.sockets = s.sockets := by
  obtain ⟨-, ⟨-, rfl⟩ | ⟨-, haccept⟩⟩ := onRequest_cases hstep
  · exact ⟨received_noted, sockets_noted⟩
  · obtain ⟨hreceived, -, hsockets, -⟩ := accept_eq_ok haccept
    rw [received_noted] at hreceived
    rw [sockets_noted] at hsockets
    exact ⟨hreceived, hsockets⟩

/-- The records of one read, induction on them. -/
theorem received_records {rs : List OMClientRequest} :
    ∀ {s : OrderServer}, rs.foldlM (fun s r => s.onRequest socket rx_time r) s = .ok s' →
      s'.received = s.received ++ rs.map (⟨socket, ·⟩) ∧ s'.sockets = s.sockets := by
  induction rs with
  | nil =>
    intro s h
    cases h
    exact ⟨(List.append_nil _).symm, rfl⟩
  | cons r rs ih =>
    intro s h
    obtain ⟨s₁, hstep, hrest⟩ := Lib.Runs.foldlM_cons_eq_ok.mp h
    obtain ⟨hlog, hsockets⟩ := received_onRequest hstep
    obtain ⟨hlog', hsockets'⟩ := ih hrest
    constructor
    · rw [hlog', hlog, List.append_assoc]
      rfl
    · rw [hsockets', hsockets]

/-- The log of a socket is the bytes that arrived there, cut into records. -/
structure Framed (s : OrderServer) (bytes : ℕ → List UInt8) : Prop where
  log : ∀ socket, onSocket socket s.received = records (bytes socket)
  inbound : ∀ socket,
    (s.sockets socket).inbound_data_ = Lib.Wire.rest OMClientRequest.size (bytes socket)

theorem size_pos : 0 < OMClientRequest.size := by decide

theorem framed_new : Framed new fun _ => [] where
  log := fun _ => rfl
  inbound := fun _ => rfl

theorem records_append (chunk chunk' : List UInt8) :
    records (chunk ++ chunk') =
      records chunk ++ records (Lib.Wire.rest OMClientRequest.size chunk ++ chunk') := by
  unfold records
  rw [Lib.Wire.whole_append size_pos, List.map_append]

/-- What a read does, record by record. -/
theorem read_eq_ok {bytes : List UInt8} (h : s.read socket rx_time bytes = .ok s') :
    ∃ s₁, (records ((s.sockets socket).inbound_data_ ++ bytes)).foldlM
        (fun s r => s.onRequest socket rx_time r)
        (s.setInbound socket ((s.sockets socket).inbound_data_ ++ bytes)) = .ok s₁ ∧
      s' = s₁.setInbound socket
        (Lib.Wire.rest OMClientRequest.size ((s.sockets socket).inbound_data_ ++ bytes)) := by
  unfold read recvCallback at h
  rw [inbound_setInbound_self] at h
  obtain ⟨s₁, hrecords, h⟩ := bind_eq_ok.mp h
  exact ⟨s₁, hrecords, (Except.ok.inj h).symm⟩

/-- Wherever the stream is cut, the records stay the same. -/
theorem Framed.read {bytes : ℕ → List UInt8} {chunk : List UInt8} (h : Framed s bytes)
    (hstep : s.read socket rx_time chunk = .ok s') :
    Framed s' (Function.update bytes socket (bytes socket ++ chunk)) := by
  obtain ⟨s₁, hrecords, rfl⟩ := read_eq_ok hstep
  obtain ⟨hlog, hsockets⟩ := received_records hrecords
  constructor
  · intro socket'
    show onSocket socket' s₁.received = _
    rw [hlog, onSocket_append]
    by_cases hs : socket' = socket
    · subst hs
      rw [onSocket_map_self, Function.update_self, records_append (bytes socket'), ← h.inbound]
      exact congrArg (· ++ _) (h.log socket')
    · rw [onSocket_map_ne hs, Function.update_of_ne hs, List.append_nil]
      exact h.log socket'
  · intro socket'
    by_cases hs : socket' = socket
    · subst hs
      rw [inbound_setInbound_self, Function.update_self,
        Lib.Wire.rest_append size_pos (bytes socket'), ← h.inbound]
    · rw [sockets_setInbound_ne _ hs, Function.update_of_ne hs, hsockets,
        sockets_setInbound_ne _ hs]
      exact h.inbound socket'

/-! ## Runs -/

/-- What holds of every client after a run. -/
structure Lawful (events : List Event) (s : OrderServer) : Prop where
  session : ∀ c, c < ME_MAX_NUM_CLIENTS → Session s c
  /-- The accepted requests are some of the received ones, in order of arrival. -/
  sublist : s.accepted.Sublist s.received
  framed : ∀ socket, onSocket socket s.received = records (bytesOn socket events)
  /-- What is not the next request of its session leaves no trace. -/
  inert : ∀ socket rx_time request s', s.onRequest socket rx_time request = .ok s' →
    ¬ (s.noted socket request).InSession socket request →
      s'.cid_next_exp_seq_num_ = s.cid_next_exp_seq_num_ ∧ s'.accepted = s.accepted

/-- The accepted requests stay a sublist of the received ones. -/
theorem sublist_onRequest (h : s.accepted.Sublist s.received)
    (hstep : s.onRequest socket rx_time request = .ok s') : s'.accepted.Sublist s'.received := by
  obtain ⟨hreceived, -⟩ := received_onRequest hstep
  rw [hreceived]
  obtain ⟨-, ⟨-, rfl⟩ | ⟨-, haccept⟩⟩ := onRequest_cases hstep
  · rw [accepted_noted]
    exact h.trans (List.sublist_append_left ..)
  · obtain ⟨-, -, -, haccepted, -⟩ := accept_eq_ok haccept
    rw [haccepted, accepted_noted]
    exact h.append (List.Sublist.refl _)

/-- What the law says of a state, without the bytes. -/
def Kept (s : OrderServer) : Prop := (∀ c, Session s c) ∧ s.accepted.Sublist s.received

theorem Kept.setInbound (h : Kept s) (socket : ℕ) (bytes : List UInt8) :
    Kept (s.setInbound socket bytes) :=
  ⟨fun c => ⟨(h.1 c).bound, (h.1 c).socket, (h.1 c).numbers, (h.1 c).next⟩, h.2⟩

theorem Kept.step {event : Event} (h : Kept s) (hstep : s.step event = .ok s') : Kept s' := by
  cases event with
  | read socket rx_time bytes =>
    obtain ⟨s₁, hrecords, rfl⟩ := read_eq_ok hstep
    apply Kept.setInbound
    refine Lib.Runs.invariant_of_step ?_ (h.setInbound socket _) hrecords
    intro s request s' h hstep
    exact ⟨fun c => (h.1 c).onRequest hstep, sublist_onRequest h.2 hstep⟩
  | readFinished std_sort =>
    obtain rfl := Except.ok.inj hstep
    exact ⟨fun c => ⟨(h.1 c).bound, (h.1 c).socket, (h.1 c).numbers, (h.1 c).next⟩, h.2⟩

/-- The bytes of a socket over a run; induction on the events. -/
theorem framed_run {events : List Event} :
    ∀ {s : OrderServer} {bytes : ℕ → List UInt8}, Framed s bytes → s.run events = .ok s' →
      Framed s' fun socket => bytes socket ++ bytesOn socket events := by
  induction events with
  | nil =>
    intro s bytes h hrun
    cases hrun
    simpa [bytesOn] using h
  | cons event events ih =>
    intro s bytes h hrun
    obtain ⟨s₁, hstep, hrest⟩ := Lib.Runs.foldlM_cons_eq_ok.mp hrun
    cases event with
    | read socket rx_time chunk =>
      have hframed := ih (h.read hstep) hrest
      have heq : (fun socket' => bytes socket' ++ bytesOn socket' (.read socket rx_time chunk ::
          events)) = fun socket' =>
            Function.update bytes socket (bytes socket ++ chunk) socket' ++
              bytesOn socket' events := by
        funext socket'
        have hcons : bytesOn socket' (.read socket rx_time chunk :: events) =
            (if socket = socket' then chunk else []) ++ bytesOn socket' events := rfl
        rw [hcons]
        by_cases hs : socket = socket'
        · subst hs
          rw [if_pos rfl, Function.update_self, List.append_assoc]
        · rw [if_neg hs, Function.update_of_ne (Ne.symm hs), List.nil_append]
      rw [heq]
      exact hframed
    | readFinished std_sort =>
      obtain rfl := Except.ok.inj hstep
      have hframed : Framed (s.recvFinishedCallback std_sort) bytes := ⟨h.log, h.inbound⟩
      exact ih hframed hrest

theorem lawful_run {events : List Event} (hrun : new.run events = .ok s) : Lawful events s := by
  have hkept : Kept s := Lib.Runs.invariant_of_step (fun _ _ _ => Kept.step)
    ⟨session_new, List.Sublist.refl _⟩ hrun
  refine ⟨fun c _ => hkept.1 c, hkept.2, (framed_run framed_new hrun).log, ?_⟩
  intro socket rx_time request s' hstep hin
  exact onRequest_of_not_inSession hin hstep

/-! ## Client ids outside the tables -/

/-- The record names an entry of the tables. -/
def InTable (request : OMClientRequest) : Prop :=
  request.me_client_request_.client_id_ < ME_MAX_NUM_CLIENTS

/-- Every complete record the server gets to in this event names an entry of its tables. -/
def GuardedEvent (s : OrderServer) : Event → Prop
  | .read socket rx_time bytes =>
    Along (fun s r => s.onRequest socket rx_time r) (fun _ r => InTable r)
      (s.setInbound socket ((s.sockets socket).inbound_data_ ++ bytes))
      (records ((s.sockets socket).inbound_data_ ++ bytes))
  | .readFinished _ => True

/-- Every complete record the server gets to names an entry of its tables. -/
def Guarded (events : List Event) : Prop := Along step GuardedEvent new events

/-- The only fault of a request in its session is the FATAL of the sequencer. -/
theorem accept_ne_outOfRange : s.accept socket rx_time request ≠ .error .outOfRange := by
  unfold accept FIFOSequencer.addClientRequest
  split
  · intro h
    cases h
  · intro h
    cases h

theorem onRequest_ne_outOfRange :
    s.onRequest socket rx_time request ≠ .error .outOfRange ↔ InTable request := by
  unfold onRequest InTable
  by_cases hclient : request.me_client_request_.client_id_ < ME_MAX_NUM_CLIENTS
  · rw [if_pos hclient]
    refine ⟨fun _ => hclient, fun _ => ?_⟩
    by_cases hin : (s.noted socket request).InSession socket request
    · simp only [if_pos hin]
      exact accept_ne_outOfRange
    · simp only [if_neg hin]
      intro h
      cases h
  · rw [if_neg hclient]
    exact ⟨fun h => absurd rfl h, fun h => absurd h hclient⟩

theorem step_ne_outOfRange {event : Event} :
    s.step event ≠ .error .outOfRange ↔ GuardedEvent s event := by
  cases event with
  | read socket rx_time bytes =>
    apply Iff.trans _ (Lib.Runs.ne_error_iff fun _ _ => onRequest_ne_outOfRange)
    show s.read socket rx_time bytes ≠ _ ↔ _
    unfold read recvCallback
    rw [inbound_setInbound_self]
    exact Lib.Runs.bind_ok_ne_error_iff
  | readFinished std_sort => exact ⟨fun _ => trivial, fun _ h => (nomatch h)⟩

/-- No record is processed outside the tables, and the law holds after every event. -/
def Sessions (events : List Event) : Prop :=
  new.run events ≠ .error .outOfRange ∧
    ∀ past s, past <+: events → new.run past = .ok s → Lawful past s

/-- **Client sessions are kept in every run as long as no record names a client id outside the
tables, and no longer.** -/
theorem sessions_iff_guarded (events : List Event) : Sessions events ↔ Guarded events := by
  unfold Sessions Guarded
  rw [← Lib.Runs.ne_error_iff (e := Fault.outOfRange) fun _ _ => step_ne_outOfRange]
  constructor
  · intro h
    exact h.1
  · intro h
    exact ⟨h, fun _ _ _ hrun => lawful_run hrun⟩

/-- One record of client 256, complete but otherwise zero. -/
def strayRecord : List UInt8 :=
  List.replicate 8 0 ++ ([1] ++ ([0, 1, 0, 0] ++ List.replicate 25 0))

/-- Its arrival writes behind the tables. -/
theorem not_sessions_strayRecord : ¬ ∀ events, Sessions events := by
  intro h
  have hrun := (h [.read 0 0 strayRecord]).1
  exact hrun rfl

end TradingEcosystem.OrderServer
