import TradingEcosystem.Exchange.FifoOrder

/-!
# Bursts of Requests

Between two calls of `sequenceAndPublish` every connection is read once, and a read returns
whatever fits into the receive buffer.  The pending requests of all connections share one array
of `ME_MAX_PENDING_REQUESTS` entries.

- `Streams` : what correct clients send, read off the bytes alone
- `served_iff` : every round gets through and is published in full exactly when no round delivers
  more than `ME_MAX_PENDING_REQUESTS` complete requests
-/

namespace TradingEcosystem.OrderServer

/-! ## What is delivered -/

/-- The complete requests a round delivers, `past` being the callbacks until then. -/
def Round.delivers (past : List Event) (round : Round) : List Received :=
  round.reads.flatMap fun r =>
    (records (Lib.Wire.rest OMClientRequest.size (bytesOn r.socket past) ++ r.bytes)).map
      (Received.mk r.socket)

/-- The complete requests of a sequence of rounds. -/
def deliveredFrom (past : List Event) : List Round → List Received
  | [] => []
  | round :: rounds => round.delivers past ++ deliveredFrom (past ++ round.events) rounds

/-- Correct clients: their ids are valid, each has one connection and numbers its requests from
one. -/
structure Streams (requests : List Received) : Prop where
  valid : ∀ a ∈ requests, a.client_id < ME_MAX_NUM_CLIENTS
  connection : ∀ a ∈ requests, ∀ b ∈ requests, a.client_id = b.client_id → a.socket = b.socket
  numbers : ∀ c, (ofClient c requests).map (fun a => a.request.seq_num_) =
    List.range' 1 (ofClient c requests).length

/-- The server gets through a round, accepts all its requests and publishes them. -/
def Served (before : List Round) (round : Round) : Prop :=
  ∃ s s' published, new.runRounds before = .ok s ∧
    s.run (round.reads.map SocketRead.event) = .ok s' ∧
    s'.accepted = s.accepted ++ round.delivers (before.flatMap Round.events) ∧
    (s'.recvFinishedCallback round.std_sort).fifo_sequencer_.incoming_requests_ =
      s.fifo_sequencer_.incoming_requests_ ++ published ∧
    published.Perm ((round.delivers (before.flatMap Round.events)).map
      fun a => a.request.me_client_request_)

/-! ## Requests still to come -/

variable {s s' s'' : OrderServer} {as bs more : List Received}

/-- The server expects these requests next. -/
structure Numbered (s : OrderServer) (as : List Received) : Prop where
  valid : ∀ a ∈ as, a.client_id < ME_MAX_NUM_CLIENTS
  bound : ∀ a ∈ as, ∀ socket, s.cid_tcp_socket_ a.client_id = some socket → socket = a.socket
  connection : ∀ a ∈ as, ∀ b ∈ as, a.client_id = b.client_id → a.socket = b.socket
  numbers : ∀ c, (ofClient c as).map (fun a => a.request.seq_num_) =
    List.range' (s.cid_next_exp_seq_num_ c) (ofClient c as).length

theorem Streams.numbered (h : Streams as) : Numbered new as where
  valid := h.valid
  bound := fun _ _ _ hsome => nomatch hsome
  connection := h.connection
  numbers := h.numbers

/-- The requests `as` were accepted and are pending. -/
structure Took (s s' : OrderServer) (as : List Received) : Prop where
  accepted : s'.accepted = s.accepted ++ as
  pending : s'.fifo_sequencer_.pending_client_requests_.map RecvTimeClientRequest.request_ =
    s.fifo_sequencer_.pending_client_requests_.map RecvTimeClientRequest.request_ ++
      as.map fun a => a.request.me_client_request_
  incoming : s'.fifo_sequencer_.incoming_requests_ = s.fifo_sequencer_.incoming_requests_

theorem Took.refl (s : OrderServer) : Took s s [] where
  accepted := (List.append_nil _).symm
  pending := (List.append_nil _).symm
  incoming := rfl

theorem Took.trans (h : Took s s' as) (h' : Took s' s'' bs) : Took s s'' (as ++ bs) where
  accepted := by rw [h'.accepted, h.accepted, List.append_assoc]
  pending := by rw [h'.pending, h.pending, List.map_append, List.append_assoc]
  incoming := h'.incoming.trans h.incoming

/-- The number of pending requests. -/
def pendingSize (s : OrderServer) : ℕ := s.fifo_sequencer_.pending_client_requests_.length

theorem Took.pendingSize (h : Took s s' as) : s'.pendingSize = s.pendingSize + as.length := by
  have hlen := congrArg List.length h.pending
  simpa [OrderServer.pendingSize] using hlen

theorem accept_of_room {socket : ℕ} {rx_time : ℤ} {request : OMClientRequest}
    (h : s.pendingSize < ME_MAX_PENDING_REQUESTS) :
    ∃ s', s.accept socket rx_time request = .ok s' ∧ Took s s' [⟨socket, request⟩] := by
  have hfifo : s.fifo_sequencer_.addClientRequest rx_time request.me_client_request_ =
      .ok { s.fifo_sequencer_ with
        pending_client_requests_ := s.fifo_sequencer_.pending_client_requests_ ++
          [⟨rx_time, request.me_client_request_⟩] } := if_neg (Nat.not_le.mpr h)
  unfold accept
  rw [hfifo]
  refine ⟨_, rfl, rfl, ?_, rfl⟩
  exact List.map_append

theorem accept_of_full {socket : ℕ} {rx_time : ℤ} {request : OMClientRequest}
    (h : ME_MAX_PENDING_REQUESTS ≤ s.pendingSize) :
    s.accept socket rx_time request = .error .assert := by
  have hfifo : s.fifo_sequencer_.addClientRequest rx_time request.me_client_request_ =
      .error .assert := if_pos h
  unfold accept
  rw [hfifo]
  rfl

/-- Noting the next request binds its client to the socket all its requests come from. -/
theorem Numbered.noted {a : Received} (h : Numbered s (a :: as)) :
    Numbered (s.noted a.socket a.request) (a :: as) ∧
      (s.noted a.socket a.request).InSession a.socket a.request := by
  have hmem : a ∈ a :: as := List.mem_cons_self ..
  have hsocket : (s.noted a.socket a.request).cid_tcp_socket_ a.client_id = some a.socket := by
    cases hbound : s.cid_tcp_socket_ a.client_id with
    | none =>
      rw [socket_noted_of_none hbound]
      exact Function.update_self ..
    | some socket =>
      rw [h.bound a hmem socket hbound] at hbound
      exact bound_stays hbound
  have hown : ofClient a.client_id (a :: as) = a :: ofClient a.client_id as :=
    List.filter_cons_of_pos (decide_eq_true rfl)
  have hnumbers := h.numbers a.client_id
  rw [hown, List.map_cons, List.length_cons, List.range'_succ, List.cons.injEq] at hnumbers
  refine ⟨⟨h.valid, ?_, h.connection, ?_⟩, hsocket, ?_⟩
  · intro b hb socket hbound
    by_cases hc : b.client_id = a.client_id
    · -- the client's other requests come on the same connection
      rw [hc, hsocket, Option.some.injEq] at hbound
      rw [← hbound]
      exact h.connection a hmem b hb hc.symm
    · apply h.bound b hb
      cases hnone : s.cid_tcp_socket_ a.client_id with
      | none =>
        rw [socket_noted_of_none hnone] at hbound
        exact (Function.update_of_ne hc ..).symm.trans hbound
      | some socket' => rwa [socket_noted_of_bound hnone] at hbound
  · rw [next_exp_noted]
    exact h.numbers
  · rw [next_exp_noted]
    exact hnumbers.1

/-- Accepting the next request leaves the ones behind it to come. -/
theorem Numbered.accept {a : Received} {rx_time : ℤ} (h : Numbered s (a :: as))
    (haccept : s.accept a.socket rx_time a.request = .ok s') : Numbered s' as := by
  obtain ⟨-, hsockets, -, -, hnext, -⟩ := accept_eq_ok haccept
  refine ⟨fun b hb => h.valid b (List.mem_cons_of_mem _ hb), ?_,
    fun b hb c hc => h.connection b (List.mem_cons_of_mem _ hb) c (List.mem_cons_of_mem _ hc), ?_⟩
  · rw [hsockets]
    exact fun b hb => h.bound b (List.mem_cons_of_mem _ hb)
  · intro c
    have hnumbers := h.numbers c
    rw [hnext]
    by_cases hc : a.client_id = c
    · -- the client's next number has been used
      subst hc
      have hown : ofClient a.client_id (a :: as) = a :: ofClient a.client_id as :=
        List.filter_cons_of_pos (decide_eq_true rfl)
      rw [hown, List.map_cons, List.length_cons, List.range'_succ, List.cons.injEq] at hnumbers
      have hself : Function.update s.cid_next_exp_seq_num_
          a.request.me_client_request_.client_id_
          (s.cid_next_exp_seq_num_ a.request.me_client_request_.client_id_ + 1) a.client_id =
          s.cid_next_exp_seq_num_ a.client_id + 1 := Function.update_self ..
      rw [hself]
      exact hnumbers.2
    · have hother : ofClient c (a :: as) = ofClient c as :=
        List.filter_cons_of_neg fun heq => hc (of_decide_eq_true heq)
      have hne : Function.update s.cid_next_exp_seq_num_
          a.request.me_client_request_.client_id_
          (s.cid_next_exp_seq_num_ a.request.me_client_request_.client_id_ + 1) c =
          s.cid_next_exp_seq_num_ c := Function.update_of_ne (Ne.symm hc) ..
      rwa [hne, ← hother]

/-! ## One request -/

/-- What comes of the next requests `as`: all are accepted, and `more` are still to come, or
there is no room for all of them. -/
def Outcome (s : OrderServer) (as more : List Received) (result : Except Fault OrderServer) :
    Prop :=
  (s.pendingSize + as.length ≤ ME_MAX_PENDING_REQUESTS ∧
    ∃ s', result = .ok s' ∧ Numbered s' more ∧ Took s s' as) ∨
  (ME_MAX_PENDING_REQUESTS < s.pendingSize + as.length ∧ result = .error .assert)

theorem Numbered.onRequest {a : Received} (h : Numbered s (a :: as)) (rx_time : ℤ) :
    Outcome s [a] as (s.onRequest a.socket rx_time a.request) := by
  have hvalid : a.request.me_client_request_.client_id_ < ME_MAX_NUM_CLIENTS :=
    h.valid a (List.mem_cons_self ..)
  obtain ⟨hnoted, hin⟩ := h.noted
  have hsize : (s.noted a.socket a.request).pendingSize = s.pendingSize := by
    unfold pendingSize
    rw [fifo_noted]
  unfold OrderServer.onRequest
  rw [if_pos hvalid]
  simp only [if_pos hin]
  by_cases hroom : s.pendingSize < ME_MAX_PENDING_REQUESTS
  · obtain ⟨s', haccept, htook⟩ : ∃ s', (s.noted a.socket a.request).accept a.socket rx_time
        a.request = .ok s' ∧ Took (s.noted a.socket a.request) s' [a] :=
      accept_of_room (hsize.symm ▸ hroom)
    refine .inl ⟨hroom, s', haccept, hnoted.accept haccept, ?_⟩
    refine ⟨?_, ?_, ?_⟩
    · rw [htook.accepted, accepted_noted]
    · rw [htook.pending, fifo_noted]
    · rw [htook.incoming, fifo_noted]
  · have hfull := Nat.not_lt.mp hroom
    exact .inr ⟨Nat.lt_succ_of_le hfull, accept_of_full (hsize.symm ▸ hfull)⟩

/-- One outcome after another. -/
theorem Outcome.bind {result : Except Fault OrderServer}
    {f : OrderServer → Except Fault OrderServer} (h : Outcome s as (bs ++ more) result)
    (hf : ∀ s', result = .ok s' → Numbered s' (bs ++ more) →
      s'.pendingSize ≤ ME_MAX_PENDING_REQUESTS → Outcome s' bs more (f s')) :
    Outcome s (as ++ bs) more (result >>= f) := by
  obtain ⟨hroom, s', rfl, hnumbered, htook⟩ | ⟨hfull, rfl⟩ := h
  · have hsize := htook.pendingSize
    obtain ⟨hroom', s'', hrun, hnumbered', htook'⟩ | ⟨hfull, hrun⟩ :=
      hf s' rfl hnumbered (hsize.le.trans hroom)
    · refine .inl ⟨?_, s'', hrun, hnumbered', htook.trans htook'⟩
      rw [List.length_append]
      omega
    · refine .inr ⟨?_, hrun⟩
      rw [List.length_append]
      omega
  · refine .inr ⟨?_, rfl⟩
    rw [List.length_append]
    omega

theorem Outcome.nil (h : Numbered s more) (hsize : s.pendingSize ≤ ME_MAX_PENDING_REQUESTS) :
    Outcome s [] more (.ok s) :=
  .inl ⟨hsize, s, rfl, h, Took.refl s⟩

/-! ## Reads -/

/-- The requests of one read; induction on them. -/
theorem Numbered.requests {socket : ℕ} (rx_time : ℤ) {requests : List OMClientRequest} :
    ∀ {s : OrderServer}, Numbered s (requests.map (Received.mk socket) ++ more) →
      s.pendingSize ≤ ME_MAX_PENDING_REQUESTS →
      Outcome s (requests.map (Received.mk socket)) more
        (requests.foldlM (fun s r => s.onRequest socket rx_time r) s) := by
  induction requests with
  | nil =>
    intro s h hsize
    exact Outcome.nil h hsize
  | cons request requests ih =>
    intro s h hsize
    have hfirst : Outcome s [⟨socket, request⟩] (requests.map (Received.mk socket) ++ more)
        (s.onRequest socket rx_time request) := Numbered.onRequest (a := ⟨socket, request⟩) h rx_time
    rw [List.foldlM_cons, List.map_cons, ← List.singleton_append]
    exact hfirst.bind fun s' _ hnumbered hsize' => ih hnumbered hsize'

/-- The complete requests of these reads. -/
def arrivals (s : OrderServer) (reads : List SocketRead) : List Received :=
  reads.flatMap fun r =>
    (records ((s.sockets r.socket).inbound_data_ ++ r.bytes)).map (Received.mk r.socket)

theorem Numbered.read {r : SocketRead} (h : Numbered s (s.arrivals [r] ++ more))
    (hsize : s.pendingSize ≤ ME_MAX_PENDING_REQUESTS) :
    Outcome s (s.arrivals [r]) more (s.step r.event) := by
  have harrivals : s.arrivals [r] =
      (records ((s.sockets r.socket).inbound_data_ ++ r.bytes)).map (Received.mk r.socket) :=
    List.flatMap_singleton ..
  set s₀ := s.setInbound r.socket ((s.sockets r.socket).inbound_data_ ++ r.bytes) with hs₀
  rw [harrivals] at h ⊢
  have hbuffered : Numbered s₀
      ((records ((s.sockets r.socket).inbound_data_ ++ r.bytes)).map (Received.mk r.socket) ++
        more) := ⟨h.valid, h.bound, h.connection, h.numbers⟩
  have hstep : s.step r.event =
      (records ((s.sockets r.socket).inbound_data_ ++ r.bytes)).foldlM
        (fun s request => s.onRequest r.socket r.rx_time request) s₀ >>= fun s₁ =>
      .ok (s₁.setInbound r.socket (Lib.Wire.rest OMClientRequest.size
        ((s.sockets r.socket).inbound_data_ ++ r.bytes))) := by
    show s.read r.socket r.rx_time r.bytes = _
    unfold OrderServer.read recvCallback
    rw [← hs₀, hs₀, inbound_setInbound_self]
  rw [hstep]
  -- the two writes to the receive buffer change nothing the outcome speaks of
  obtain ⟨hroom, s₁, hrun, hnumbered, htook⟩ | ⟨hfull, hrun⟩ :=
    hbuffered.requests r.rx_time hsize
  · rw [hrun]
    exact .inl ⟨hroom, _, rfl,
      ⟨hnumbered.valid, hnumbered.bound, hnumbered.connection, hnumbered.numbers⟩,
      ⟨htook.accepted, htook.pending, htook.incoming⟩⟩
  · rw [hrun]
    exact .inr ⟨hfull, rfl⟩

/-- A read leaves the buffers of the other connections alone. -/
theorem arrivals_step {r : SocketRead} {reads : List SocketRead}
    (hother : r.socket ∉ reads.map SocketRead.socket) (hstep : s.step r.event = .ok s') :
    s'.arrivals reads = s.arrivals reads := by
  obtain ⟨s₁, hrecords, rfl⟩ := read_eq_ok hstep
  have hsockets := (received_records hrecords).2
  refine List.flatMap_congr fun r' hr' => ?_
  have hne : r'.socket ≠ r.socket := fun heq => hother (heq ▸ List.mem_map_of_mem hr')
  rw [sockets_setInbound_ne _ hne, hsockets, sockets_setInbound_ne _ hne]

/-- The reads of a round; induction on them. -/
theorem Numbered.reads {reads : List SocketRead} :
    ∀ {s : OrderServer}, (reads.map SocketRead.socket).Nodup →
      Numbered s (s.arrivals reads ++ more) → s.pendingSize ≤ ME_MAX_PENDING_REQUESTS →
      Outcome s (s.arrivals reads) more (s.run (reads.map SocketRead.event)) := by
  induction reads with
  | nil =>
    intro s _ h hsize
    exact Outcome.nil h hsize
  | cons r reads ih =>
    intro s hdistinct h hsize
    obtain ⟨hother, hdistinct⟩ := List.nodup_cons.mp hdistinct
    have hcons : s.arrivals (r :: reads) = s.arrivals [r] ++ s.arrivals reads := by
      unfold arrivals
      rw [List.flatMap_singleton, List.flatMap_cons]
    rw [hcons, List.append_assoc] at h
    have hfirst := h.read hsize
    rw [hcons]
    show Outcome s _ more (s.step r.event >>= fun s' => s'.run (reads.map SocketRead.event))
    refine hfirst.bind fun s' hstep hnumbered hsize' => ?_
    have hsame := arrivals_step hother hstep
    rw [← hsame] at hnumbered ⊢
    exact ih hdistinct hnumbered hsize'

/-! ## Rounds -/

/-- With nothing pending before, what was taken is what the sequencer writes. -/
theorem Took.published (h : Took s s' as) (hidle : s.pendingSize = 0) (std_sort : StdSort) :
    ∃ published, (s'.recvFinishedCallback std_sort).fifo_sequencer_.incoming_requests_ =
        s.fifo_sequencer_.incoming_requests_ ++ published ∧
      published.Perm (as.map fun a => a.request.me_client_request_) := by
  have hnil : s.fifo_sequencer_.pending_client_requests_ = [] := List.length_eq_zero_iff.mp hidle
  have hpending := h.pending
  rw [hnil, List.map_nil, List.nil_append] at hpending
  refine ⟨(std_sort.sort s'.fifo_sequencer_.pending_client_requests_).map
    RecvTimeClientRequest.request_, ?_, ?_⟩
  · rw [← h.incoming]
    rfl
  · rw [← hpending]
    exact (std_sort.perm _).map _

/-- `s` is the state after `past`, nothing is pending, and the requests of `rounds` are next. -/
structure Between (past : List Event) (s : OrderServer) (rounds : List Round) : Prop where
  reached : new.run past = .ok s
  idle : s.pendingSize = 0
  numbered : Numbered s (deliveredFrom past rounds)

variable {past : List Event} {round : Round} {rounds : List Round}

/-- What arrives follows from the bytes alone. -/
theorem arrivals_eq (hrun : new.run past = .ok s) :
    s.arrivals round.reads = round.delivers past := by
  have hframed := framed_run framed_new hrun
  refine List.flatMap_congr fun r _ => ?_
  rw [hframed.inbound, List.nil_append]

/-- **One round**: all its requests are accepted and published, or the array is too small. -/
theorem Between.one_round (h : Between past s (round :: rounds)) :
    ((round.delivers past).length ≤ ME_MAX_PENDING_REQUESTS ∧
      ∃ s', s.run (round.reads.map SocketRead.event) = .ok s' ∧ Took s s' (round.delivers past) ∧
        s.run round.events = .ok (s'.recvFinishedCallback round.std_sort) ∧
        Between (past ++ round.events) (s'.recvFinishedCallback round.std_sort) rounds) ∨
    (ME_MAX_PENDING_REQUESTS < (round.delivers past).length ∧
      s.run (round.reads.map SocketRead.event) = .error .assert) := by
  have harrivals : s.arrivals round.reads = round.delivers past := arrivals_eq h.reached
  have hnumbered : Numbered s
      (s.arrivals round.reads ++ deliveredFrom (past ++ round.events) rounds) := by
    rw [harrivals]
    exact h.numbered
  have houtcome := hnumbered.reads round.distinct (h.idle.le.trans (Nat.zero_le _))
  rw [harrivals] at houtcome
  have hidle := h.idle
  obtain ⟨hroom, s', hrun, hnext, htook⟩ | ⟨hfull, hrun⟩ := houtcome
  · have hround : s.run round.events = .ok (s'.recvFinishedCallback round.std_sort) := by
      unfold run Round.events
      rw [List.foldlM_append]
      unfold run at hrun
      rw [hrun]
      rfl
    refine .inl ⟨by omega, s', hrun, htook, hround, ?_, rfl, ?_⟩
    · exact Lib.Runs.foldlM_append_eq_ok.mpr ⟨s, h.reached, hround⟩
    · exact ⟨hnext.valid, hnext.bound, hnext.connection, hnext.numbers⟩
  · exact .inr ⟨by omega, hrun⟩

theorem Between.new (h : Streams (deliveredFrom [] rounds)) : Between [] OrderServer.new rounds where
  reached := rfl
  idle := rfl
  numbered := h.numbered

/-- A sequence of rounds; induction on them. -/
theorem Between.run_rounds {before : List Round} :
    ∀ {past : List Event} {s : OrderServer}, Between past s (before ++ rounds) →
      s.runRounds before = .ok s' → Between (past ++ before.flatMap Round.events) s' rounds := by
  induction before with
  | nil =>
    intro past s h hrun
    obtain rfl := Except.ok.inj hrun
    rwa [List.flatMap_nil, List.append_nil]
  | cons round before ih =>
    intro past s h hrun
    unfold runRounds run at hrun
    rw [List.flatMap_cons] at hrun
    obtain ⟨s₁, hround, hrest⟩ := Lib.Runs.foldlM_append_eq_ok.mp hrun
    rw [List.flatMap_cons, ← List.append_assoc]
    obtain ⟨-, s₂, -, -, hround', hnext⟩ | ⟨-, herror⟩ := Between.one_round h
    · obtain rfl := Except.ok.inj (hround'.symm.trans hround)
      exact ih hnext hrest
    · obtain ⟨s₂, hreads, -⟩ := Lib.Runs.foldlM_append_eq_ok.mp hround
      rw [show List.foldlM step s (round.reads.map SocketRead.event) = _ from herror] at hreads
      cases hreads

/-- The array is large enough for every round. -/
def Fits (past : List Event) (rounds : List Round) : Prop :=
  ∀ before round, before ++ [round] <+: rounds →
    (round.delivers (past ++ before.flatMap Round.events)).length ≤ ME_MAX_PENDING_REQUESTS

theorem Fits.tail (h : Fits past (round :: rounds)) : Fits (past ++ round.events) rounds := by
  intro before round' hprefix
  have hle := h (round :: before) round' ((List.prefix_cons_inj round).mpr hprefix)
  rwa [List.flatMap_cons, ← List.append_assoc] at hle

/-- Rounds the array is large enough for do not stop the server; induction on them. -/
theorem Between.exists_run {before : List Round} :
    ∀ {past : List Event} {s : OrderServer}, Between past s (before ++ rounds) →
      Fits past before → ∃ s', s.runRounds before = .ok s' := by
  induction before with
  | nil =>
    intro past s _ _
    exact ⟨s, rfl⟩
  | cons round before ih =>
    intro past s h hfits
    have hle := hfits [] round ((List.prefix_cons_inj round).mpr List.nil_prefix)
    rw [List.flatMap_nil, List.append_nil] at hle
    obtain ⟨-, s₁, -, -, hround, hnext⟩ | ⟨hfull, -⟩ := Between.one_round h
    · obtain ⟨s', hrest⟩ := ih hnext hfits.tail
      refine ⟨s', ?_⟩
      unfold runRounds run
      rw [List.flatMap_cons]
      exact Lib.Runs.foldlM_append_eq_ok.mpr ⟨_, hround, hrest⟩
    · exact absurd hle (Nat.not_le.mpr hfull)

/-- **A burst of requests stops the order server exactly when one round delivers more complete
requests than the array of pending requests has entries.** -/
theorem served_iff (rounds : List Round) (h : Streams (deliveredFrom [] rounds)) :
    (∀ before round, before ++ [round] <+: rounds → Served before round) ↔
      ∀ before round, before ++ [round] <+: rounds →
        (round.delivers (before.flatMap Round.events)).length ≤ ME_MAX_PENDING_REQUESTS := by
  constructor
  · rintro hserved before round hprefix
    obtain ⟨s, s', published, hrun, hreads, -⟩ := hserved before round hprefix
    obtain ⟨after, rfl⟩ := hprefix
    have hbetween : Between [] OrderServer.new (before ++ round :: after) := by
      apply Between.new
      simpa using h
    obtain ⟨hle, -⟩ | ⟨-, herror⟩ := Between.one_round (hbetween.run_rounds hrun)
    · exact hle
    · -- one request more and the reads end in the abort
      rw [herror] at hreads
      cases hreads
  · rintro hfits before round hprefix
    have hbefore : Fits [] before := fun before' round' hprefix' =>
      hfits before' round' (hprefix'.trans ((List.prefix_append before [round]).trans hprefix))
    have hle := hfits before round hprefix
    obtain ⟨after, rfl⟩ := hprefix
    have hbetween : Between [] OrderServer.new (before ++ round :: after) := by
      apply Between.new
      simpa using h
    obtain ⟨s, hrun⟩ := hbetween.exists_run hbefore
    obtain ⟨-, s', hreads, htook, -⟩ | ⟨hfull, -⟩ := Between.one_round (hbetween.run_rounds hrun)
    · obtain ⟨published, hincoming, hperm⟩ :=
        htook.published (hbetween.run_rounds hrun).idle round.std_sort
      exact ⟨s, s', published, hrun, hreads, htook.accepted, hincoming, hperm⟩
    · exact absurd hle (Nat.not_le.mpr hfull)

/-! ## A burst of one client -/

/-- A NEW of client 1 with this sequence number and order id: BUY 1 at 10. -/
def buyRecord (k : ℕ) : List UInt8 :=
  Lib.Wire.toBytes 8 k ++ ([1, 1, 0, 0, 0, 0, 0, 0, 0] ++ (Lib.Wire.toBytes 8 k ++
    [1, 10, 0, 0, 0, 0, 0, 0, 0, 1, 0, 0, 0]))

/-- The first `n` requests of client 1 arrive in one read. -/
def burst (n : ℕ) (std_sort : StdSort) : Round where
  reads := [⟨0, 5, ((List.range' 1 n).map buyRecord).flatten⟩]
  distinct := List.nodup_singleton _
  std_sort := std_sort

theorem length_buyRecord (k : ℕ) : (buyRecord k).length = OMClientRequest.size := by
  simp [buyRecord, OMClientRequest.size]

theorem seq_num_buyRecord {k : ℕ} (hk : k < 2 ^ 64) :
    (OMClientRequest.ofBytes (buyRecord k)).seq_num_ = k := by
  show (Lib.Wire.readInt 8 (buyRecord k)).1 = k
  unfold buyRecord
  rw [Lib.Wire.readInt_toBytes (w := 8) hk]

theorem client_id_buyRecord (k : ℕ) :
    (OMClientRequest.ofBytes (buyRecord k)).me_client_request_.client_id_ = 1 := by
  have hdrop : (buyRecord k).drop 8 = [1, 1, 0, 0, 0, 0, 0, 0, 0] ++ (Lib.Wire.toBytes 8 k ++
      [1, 10, 0, 0, 0, 0, 0, 0, 0, 1, 0, 0, 0]) := List.drop_left' (Lib.Wire.length_toBytes 8 k)
  show Lib.Wire.ofBytes ((((buyRecord k).drop 8).drop 1).take 4) = 1
  rw [hdrop]
  rfl

variable {n : ℕ} {std_sort : StdSort}

theorem delivers_burst : (burst n std_sort).delivers [] =
    (List.range' 1 n).map fun k => ⟨0, OMClientRequest.ofBytes (buyRecord k)⟩ := by
  have hrecords : records ((List.range' 1 n).map buyRecord).flatten =
      (List.range' 1 n).map fun k => OMClientRequest.ofBytes (buyRecord k) := by
    unfold records
    rw [Lib.Wire.whole_of_flatten size_pos, List.map_map]
    · rfl
    · intro r hr
      obtain ⟨k, -, rfl⟩ := List.mem_map.mp hr
      exact length_buyRecord k
  have hone : (burst n std_sort).delivers [] =
      (records ((List.range' 1 n).map buyRecord).flatten).map (Received.mk 0) := by
    unfold Round.delivers burst
    rw [List.flatMap_singleton]
    show (records (Lib.Wire.rest OMClientRequest.size [] ++ _)).map _ = _
    rw [Lib.Wire.rest_of_lt size_pos, List.nil_append]
  rw [hone, hrecords, List.map_map]
  rfl

theorem streams_burst (hn : n < 2 ^ 64) : Streams (deliveredFrom [] [burst n std_sort]) := by
  have hall : deliveredFrom [] [burst n std_sort] =
      (List.range' 1 n).map fun k => ⟨0, OMClientRequest.ofBytes (buyRecord k)⟩ := by
    show (burst n std_sort).delivers [] ++ [] = _
    rw [List.append_nil, delivers_burst]
  rw [hall]
  have hclient : ∀ a ∈ (List.range' 1 n).map fun k =>
      (⟨0, OMClientRequest.ofBytes (buyRecord k)⟩ : Received), a.client_id = 1 ∧ a.socket = 0 := by
    intro a ha
    obtain ⟨k, -, rfl⟩ := List.mem_map.mp ha
    exact ⟨client_id_buyRecord k, rfl⟩
  refine ⟨?_, ?_, ?_⟩
  · intro a ha
    rw [(hclient a ha).1]
    decide
  · intro a ha b hb _
    rw [(hclient a ha).2, (hclient b hb).2]
  · intro c
    by_cases hc : c = 1
    · subst hc
      have hfilter : ofClient 1 ((List.range' 1 n).map fun k =>
          (⟨0, OMClientRequest.ofBytes (buyRecord k)⟩ : Received)) = _ :=
        List.filter_eq_self.mpr fun a ha => decide_eq_true (hclient a ha).1
      rw [hfilter, List.map_map, List.length_map, List.length_range']
      -- the numbers are read as they were written
      refine (List.map_congr_left fun k hk => ?_).trans (List.map_id _)
      obtain ⟨i, hi, rfl⟩ := List.mem_range'.mp hk
      exact seq_num_buyRecord (by omega)
    · have hfilter : ofClient c ((List.range' 1 n).map fun k =>
          (⟨0, OMClientRequest.ofBytes (buyRecord k)⟩ : Received)) = [] := by
        refine List.filter_eq_nil_iff.mpr fun a ha heq => hc ?_
        rw [← of_decide_eq_true heq]
        exact (hclient a ha).1
      rw [hfilter]
      rfl

theorem served_iff_burst :
    (∀ before round, before ++ [round] <+: [burst 2 (rotateClient 1)] → Served before round) ↔
      ∀ before round, before ++ [round] <+: [burst 2 (rotateClient 1)] →
        (round.delivers (before.flatMap Round.events)).length ≤ ME_MAX_PENDING_REQUESTS :=
  served_iff [burst 2 (rotateClient 1)] (streams_burst (by decide))

/-- 1025 requests, 38950 bytes, in one read. -/
theorem not_served_burst :
    ¬ ∀ rounds : List Round, Streams (deliveredFrom [] rounds) →
      (∀ round ∈ rounds, ∀ r ∈ round.reads, r.bytes.length ≤ TCPBufferSize) →
      ∀ before round, before ++ [round] <+: rounds → Served before round := by
  intro h
  have hstreams : Streams (deliveredFrom [] [burst 1025 (rotateClient 1)]) :=
    streams_burst (by decide)
  have hserved := h [burst 1025 (rotateClient 1)] hstreams ?fits [] _ List.prefix_rfl
  case fits =>
    intro round hround r hr
    obtain rfl := List.mem_singleton.mp hround
    obtain rfl := List.mem_singleton.mp hr
    have hlength : ∀ l ∈ (List.range' 1 1025).map buyRecord, l.length = OMClientRequest.size := by
      intro l hl
      obtain ⟨k, -, rfl⟩ := List.mem_map.mp hl
      exact length_buyRecord k
    show ((List.range' 1 1025).map buyRecord).flatten.length ≤ TCPBufferSize
    rw [List.length_flatten, List.map_congr_left hlength, List.map_const', List.sum_replicate_nat,
      List.length_map, List.length_range']
    decide
  obtain ⟨s, s', published, hrun, hreads, -⟩ := hserved
  obtain rfl := Except.ok.inj hrun
  obtain ⟨hle, -⟩ | ⟨-, herror⟩ := Between.one_round (Between.new hstreams)
  · rw [delivers_burst, List.length_map, List.length_range'] at hle
    revert hle
    decide
  · rw [herror] at hreads
    cases hreads

end TradingEcosystem.OrderServer
