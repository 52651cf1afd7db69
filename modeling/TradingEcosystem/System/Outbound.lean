import TradingEcosystem.Common.LFQueue
import TradingEcosystem.Exchange.MatchingEngine

/-!
# The Queues Behind the Matching Engine

The matching engine writes the responses and the updates of each request, one by one, to two
queues of a fixed size, whose readers run in threads of their own.

- `Outbound` : the engine, its two queues and their readers
- `Outbound.step` : a step of one of the threads
- `Outbound.Inv` : everything a book sent is in its queue's log or still to be written
- `Outbound.unreadKept_iff` : nothing is overwritten before it is read exactly when every write
  comes while its queue has fewer unread elements than slots
-/

namespace TradingEcosystem

structure Outbound where
  matching_engine : MatchingEngine := .new
  /-- What the request being processed has still to send. -/
  pending : List MEEvent := []
  outgoing_ogw_responses_ : Channel MEClientResponse
  outgoing_md_updates_ : Channel MEMarketUpdate

namespace Outbound

/-- Queues of `n` responses and of `m` updates. -/
def new (n m : ℕ) : Outbound where
  outgoing_ogw_responses_ := .new n default
  outgoing_md_updates_ := .new m default

/-- A step of a thread.  A request is taken only when the one before it is done. -/
inductive Act where
  | request (r : MEClientRequest)
  | engine
  | orderServer
  | publisher

/-- The engine has finished its last write. -/
def BetweenWrites (s : Outbound) : Prop :=
  s.outgoing_ogw_responses_.producer = .store ∧ s.outgoing_md_updates_.producer = .store

instance (s : Outbound) : Decidable s.BetweenWrites := inferInstanceAs (Decidable (_ ∧ _))

/-- A step of the engine's thread: the rest of a write, or the first step of the next one. -/
def write (s : Outbound) : Outbound :=
  if s.BetweenWrites then
    -- the engine begins to write the next message of the request it processes
    match s.pending with
    | [] => s
    | .response r :: pending =>
      { s with pending := pending
               outgoing_ogw_responses_ := s.outgoing_ogw_responses_.produce r }
    | .update u :: pending =>
      { s with pending := pending, outgoing_md_updates_ := s.outgoing_md_updates_.produce u }
  else if s.outgoing_ogw_responses_.producer ≠ .store then
    -- a write that has begun is finished; its value is in the slot already
    { s with outgoing_ogw_responses_ := s.outgoing_ogw_responses_.produce default }
  else
    { s with outgoing_md_updates_ := s.outgoing_md_updates_.produce default }

/-- The engine works out what a request makes it send, and then writes that step by step. -/
def process (s : Outbound) (r : MEClientRequest) : Except Fault Outbound :=
  if s.BetweenWrites ∧ s.pending = [] then do
    let e ← s.matching_engine.processClientRequest r
    .ok { s with matching_engine := e, pending := e.sent.drop s.matching_engine.sent.length }
  else
    .ok s

def step (s : Outbound) : Act → Except Fault Outbound
  | .request r => s.process r
  | .engine => .ok s.write
  | .orderServer => do
    let responses ← s.outgoing_ogw_responses_.consume
    .ok { s with outgoing_ogw_responses_ := responses }
  | .publisher => do
    let updates ← s.outgoing_md_updates_.consume
    .ok { s with outgoing_md_updates_ := updates }

/-- Any interleaving of the three threads. -/
def run (s : Outbound) (acts : List Act) : Except Fault Outbound := acts.foldlM step s

/-- `P` holds of the queue that a step of the engine stores an element in. -/
def AtStores (P : (T : Type) → Channel T → Prop) (s : Outbound) (act : Act) : Prop :=
  act = .engine → s.BetweenWrites →
    (∀ r pending, s.pending = .response r :: pending → P _ s.outgoing_ogw_responses_) ∧
      ∀ u pending, s.pending = .update u :: pending → P _ s.outgoing_md_updates_

/-- No write goes to a slot that holds an unread element. -/
def KeepsUnread : Outbound → Act → Prop := AtStores fun _ c => c.UnreadKept

/-- Every write comes while fewer elements of its queue are unread than it has slots. -/
def WritesHaveRoom : Outbound → Act → Prop := AtStores fun _ c => c.HasRoom

/-- What the two readers have read is, unaltered, the first part of what was sent to them. -/
def ReadsInOrder (s : Outbound) : Prop :=
  s.outgoing_ogw_responses_.read <+: clientResponses s.matching_engine.sent ∧
    s.outgoing_md_updates_.read <+: marketUpdates s.matching_engine.sent

/-! ## The logs of the queues -/

/-- Everything a book sent was written to its queue or is pending. -/
structure Inv (n m : ℕ) (s : Outbound) : Prop where
  responses : s.outgoing_ogw_responses_.Inv n
  updates : s.outgoing_md_updates_.Inv m
  sent_responses : clientResponses s.matching_engine.sent =
    s.outgoing_ogw_responses_.written ++ clientResponses s.pending
  sent_updates : marketUpdates s.matching_engine.sent =
    s.outgoing_md_updates_.written ++ marketUpdates s.pending

theorem inv_new (n m : ℕ) : Inv n m (new n m) where
  responses := Channel.inv_new n default
  updates := Channel.inv_new m default
  sent_responses := rfl
  sent_updates := rfl

variable {n m : ℕ} {s s' : Outbound} {act : Act} {acts : List Act}

/-- What `produce` adds to the log of a queue. -/
theorem written_produce {T : Type} (c : Channel T) (value : T) :
    (c.produce value).written =
      if c.producer = .store then c.written ++ [value] else c.written := by
  unfold Channel.produce
  cases c.producer with
  | store => rfl
  | writeIndex => rfl
  | count => rfl

theorem written_produce_of_ne {T : Type} {c : Channel T} (h : c.producer ≠ .store) (value : T) :
    (c.produce value).written = c.written := by
  rw [written_produce, if_neg h]

/-- A request only adds to what was sent. -/
theorem sent_process {e e' : MatchingEngine} {r : MEClientRequest}
    (h : e.processClientRequest r = .ok e') :
    e'.sent = e.sent ++ e'.sent.drop e.sent.length := by
  unfold MatchingEngine.processClientRequest at h
  split at h
  · obtain ⟨book, -, h⟩ := bind_eq_ok.mp h
    cases h
    rw [MatchingEngine.store_sent, List.drop_left]
  · cases h

/-- **Every step of every thread keeps the invariant.** -/
theorem Inv.step (h : Inv n m s) (hstep : s.step act = .ok s') : Inv n m s' := by
  cases act with
  | request r =>
    simp only [Outbound.step, process] at hstep
    split at hstep
    · rename_i hidle
      obtain ⟨e, he, hstep⟩ := bind_eq_ok.mp hstep
      cases hstep
      have hsent := sent_process he
      -- the request before it has left nothing to write
      have hresponses := h.sent_responses
      have hupdates := h.sent_updates
      rw [hidle.2] at hresponses hupdates
      refine ⟨h.responses, h.updates, ?_, ?_⟩
      · rw [hsent, clientResponses_append, hresponses]
        simp [clientResponses]
      · rw [hsent, marketUpdates_append, hupdates]
        simp [marketUpdates]
    · cases hstep
      exact h
  | engine =>
    simp only [Outbound.step, write] at hstep
    obtain ⟨hresponses, hupdates, hsent, hsent'⟩ := h
    split at hstep
    · rename_i hbetween
      split at hstep
      · cases hstep
        exact ⟨hresponses, hupdates, hsent, hsent'⟩
      · rename_i r pending hpending
        cases hstep
        refine ⟨hresponses.produce r, hupdates, ?_, ?_⟩
        · rw [hsent, hpending, written_produce, if_pos hbetween.1]
          simp [clientResponses, MEEvent.response?]
        · rw [hsent', hpending]
          rfl
      · rename_i u pending hpending
        cases hstep
        refine ⟨hresponses, hupdates.produce u, ?_, ?_⟩
        · rw [hsent, hpending]
          rfl
        · rw [hsent', hpending, written_produce, if_pos hbetween.2]
          simp [marketUpdates, MEEvent.update?]
    · rename_i hbetween
      split at hstep
      · rename_i hpc
        cases hstep
        exact ⟨hresponses.produce _, hupdates, by rw [written_produce_of_ne hpc]; exact hsent,
          hsent'⟩
      · rename_i hpc
        have hpc' : s.outgoing_md_updates_.producer ≠ .store := fun heq =>
          hbetween ⟨not_not.mp hpc, heq⟩
        cases hstep
        exact ⟨hresponses, hupdates.produce _, hsent,
          by rw [written_produce_of_ne hpc']; exact hsent'⟩
  | orderServer =>
    obtain ⟨responses, hconsume, hstep⟩ := bind_eq_ok.mp hstep
    cases hstep
    obtain ⟨responses', hconsume', hresponses⟩ := h.responses.consume
    obtain rfl := Except.ok.inj (hconsume.symm.trans hconsume')
    refine ⟨hresponses, h.updates, ?_, h.sent_updates⟩
    rw [(Channel.consume_cases hconsume).1]
    exact h.sent_responses
  | publisher =>
    obtain ⟨updates, hconsume, hstep⟩ := bind_eq_ok.mp hstep
    cases hstep
    obtain ⟨updates', hconsume', hupdates⟩ := h.updates.consume
    obtain rfl := Except.ok.inj (hconsume.symm.trans hconsume')
    refine ⟨h.responses, hupdates, h.sent_responses, ?_⟩
    rw [(Channel.consume_cases hconsume).1]
    exact h.sent_updates

/-- Whatever fits into the ring is unread or was read in time. -/
theorem keepsUnread_iff (hn : 0 < n) (hm : 0 < m) (h : Inv n m s) :
    s.KeepsUnread act ↔ s.WritesHaveRoom act := by
  unfold KeepsUnread WritesHaveRoom AtStores
  refine forall_congr' fun _ => forall_congr' fun hbetween => ?_
  simp only [h.responses.storesSafely_iff hn hbetween.1, h.updates.storesSafely_iff hm hbetween.2]

/-! ## Writes that have room -/

/-- The reads of a queue were right so far, and no unread element was overwritten. -/
structure Safe {T : Type} (n : ℕ) (c : Channel T) : Prop where
  inv : c.Inv n
  inOrder : c.InOrder
  ahead : c.written.length ≤ c.read.length + n

theorem safe_new {T : Type} (n : ℕ) (default : T) : Safe n (Channel.new n default) where
  inv := Channel.inv_new n default
  inOrder := by
    intro k v hv
    simp [Channel.new] at hv
  ahead := Nat.zero_le _

/-- A write that has room, or the rest of one. -/
theorem Safe.produce {T : Type} {c : Channel T} (h : Safe n c)
    (hroom : c.producer = .store → c.HasRoom) (value : T) : Safe n (c.produce value) where
  inv := h.inv.produce value
  inOrder := h.inOrder.produce value
  ahead := by
    rw [written_produce, (c.produce_logs value).1]
    split
    · rename_i hpc
      have hlt : c.written.length < c.read.length + c.queue.num_elems := hroom hpc
      rw [h.inv.num_elems] at hlt
      rw [List.length_append, List.length_singleton]
      exact hlt
    · exact h.ahead

/-- A reader's step. -/
theorem Safe.consume {T : Type} {c c' : Channel T} (h : Safe n c) (hstep : c.consume = .ok c') :
    Safe n c' := by
  obtain ⟨c'', hstep', hinv⟩ := h.inv.consume
  obtain rfl := Except.ok.inj (hstep.symm.trans hstep')
  refine ⟨hinv, h.inOrder.consume h.inv hstep fun _ _ _ => h.ahead, ?_⟩
  obtain ⟨hwritten, ⟨hread, -⟩ | ⟨slot, -, hread⟩⟩ := Channel.consume_cases hstep
  · rw [hwritten, hread]
    exact h.ahead
  · rw [hwritten, hread, List.length_append, List.length_singleton]
    have := h.ahead
    omega

/-- **A step whose write has room** leaves both queues safe. -/
theorem safe_step (hresponses : Safe n s.outgoing_ogw_responses_)
    (hupdates : Safe m s.outgoing_md_updates_) (hroom : s.WritesHaveRoom act)
    (hstep : s.step act = .ok s') :
    Safe n s'.outgoing_ogw_responses_ ∧ Safe m s'.outgoing_md_updates_ := by
  cases act with
  | request r =>
    simp only [Outbound.step, process] at hstep
    split at hstep
    · obtain ⟨e, -, hstep⟩ := bind_eq_ok.mp hstep
      cases hstep
      exact ⟨hresponses, hupdates⟩
    · cases hstep
      exact ⟨hresponses, hupdates⟩
  | engine =>
    simp only [Outbound.step, write] at hstep
    split at hstep
    · rename_i hbetween
      obtain ⟨hresponse, hupdate⟩ := hroom rfl hbetween
      split at hstep
      · cases hstep
        exact ⟨hresponses, hupdates⟩
      · rename_i r pending hpending
        cases hstep
        exact ⟨hresponses.produce (fun _ => hresponse r pending hpending) r, hupdates⟩
      · rename_i u pending hpending
        cases hstep
        exact ⟨hresponses, hupdates.produce (fun _ => hupdate u pending hpending) u⟩
    · -- the rest of a write needs no room
      rename_i hbetween
      split at hstep
      · rename_i hpc
        cases hstep
        exact ⟨hresponses.produce (fun heq => absurd heq hpc) _, hupdates⟩
      · rename_i hpc
        cases hstep
        exact ⟨hresponses,
          hupdates.produce (fun heq => absurd ⟨not_not.mp hpc, heq⟩ hbetween) _⟩
  | orderServer =>
    obtain ⟨responses, hconsume, hstep⟩ := bind_eq_ok.mp hstep
    cases hstep
    exact ⟨hresponses.consume hconsume, hupdates⟩
  | publisher =>
    obtain ⟨updates, hconsume, hstep⟩ := bind_eq_ok.mp hstep
    cases hstep
    exact ⟨hresponses, hupdates.consume hconsume⟩

/-- What was read safely is the first part of what was sent. -/
theorem Inv.readsInOrder (h : Inv n m s) (hresponses : Safe n s.outgoing_ogw_responses_)
    (hupdates : Safe m s.outgoing_md_updates_) : s.ReadsInOrder := by
  constructor
  · rw [h.sent_responses]
    exact (Channel.inOrder_iff_isPrefix.mp hresponses.inOrder).trans (List.prefix_append ..)
  · rw [h.sent_updates]
    exact (Channel.inOrder_iff_isPrefix.mp hupdates.inOrder).trans (List.prefix_append ..)

/-- Along a run the two conditions are the same. -/
theorem along_keepsUnread_iff (hn : 0 < n) (hm : 0 < m) :
    Lib.Runs.Along step KeepsUnread (new n m) acts ↔
      Lib.Runs.Along step WritesHaveRoom (new n m) acts :=
  Lib.Runs.along_congr (I := Inv n m) (fun _ _ h => keepsUnread_iff hn hm h)
    (fun _ _ _ h hstep => h.step hstep) (inv_new n m)

/-- A run whose writes have room is read in order. -/
theorem readsInOrder_run (hroom : Lib.Runs.Along step WritesHaveRoom (new n m) acts)
    (hrun : (new n m).run acts = .ok s) : s.ReadsInOrder := by
  have hinv : Inv n m s :=
    Lib.Runs.invariant_of_step (fun _ _ _ h hstep => h.step hstep) (inv_new n m) hrun
  obtain ⟨hresponses, hupdates⟩ := Lib.Runs.invariant
    (I := fun s : Outbound => Safe n s.outgoing_ogw_responses_ ∧ Safe m s.outgoing_md_updates_)
    (fun _ _ _ h hroom hstep => safe_step h.1 h.2 hroom hstep)
    ⟨safe_new n default, safe_new m default⟩ hroom hrun
  exact hinv.readsInOrder hresponses hupdates

/-- **Nothing is overwritten before it is read**, in any interleaving of the engine's writes with
the two readers and for any requests, exactly when every write comes while its queue has fewer
unread elements than slots; then the readers have the first part of what was sent. -/
theorem unreadKept_iff (hn : 0 < n) (hm : 0 < m) (hrun : (new n m).run acts = .ok s) :
    Lib.Runs.Along step KeepsUnread (new n m) acts ∧ s.ReadsInOrder ↔
      Lib.Runs.Along step WritesHaveRoom (new n m) acts := by
  rw [along_keepsUnread_iff hn hm]
  exact and_iff_left_of_imp fun hroom => readsInOrder_run hroom hrun

/-! ## A reader that is too slow -/

/-- A request to cancel an order that was never sent. -/
def strayCancel (order_id : ℕ) : MEClientRequest where
  type_ := .CANCEL
  client_id_ := 1
  ticker_id_ := 0
  order_id_ := order_id

/-- Its answer. -/
def rejected (order_id : ℕ) : MEClientResponse where
  type_ := .CANCEL_REJECTED
  client_id_ := 1
  ticker_id_ := 0
  client_order_id_ := order_id

/-- `i` such requests are answered, and nothing was read. -/
structure Waiting (n m i : ℕ) (s : Outbound) : Prop where
  inv : Inv n m s
  between : s.BetweenWrites
  pending : s.pending = []
  book : (s.matching_engine.ticker_order_book_ 0).book = (MEOrderBook.new 0).book
  written : s.outgoing_ogw_responses_.written = (List.range i).map rejected
  consumer : s.outgoing_ogw_responses_.consumer = .test
  read : s.outgoing_ogw_responses_.read = []

theorem waiting_new (n m : ℕ) : Waiting n m 0 (new n m) :=
  ⟨inv_new n m, ⟨rfl, rfl⟩, rfl, rfl, rfl, rfl, rfl⟩

/-- The engine rejects the next one. -/
theorem Waiting.process {i : ℕ} (h : Waiting n m i s) (hi : i < ME_MAX_ORDER_IDS) :
    ∃ e, s.step (.request (strayCancel i)) =
        .ok { s with matching_engine := e, pending := [.response (rejected i)] } ∧
      (e.ticker_order_book_ 0).book = (MEOrderBook.new 0).book := by
  have hfind : (s.matching_engine.ticker_order_book_ 0).findCancelable 1 i = .ok none := by
    unfold MEOrderBook.findCancelable LimitBook.getKey
    have hinRange : OrderInfo.inRange (I := MEOrderInfo) ((1, i) : ℕ × ℕ) = true :=
      Bool.and_eq_true_iff.mpr ⟨rfl, decide_eq_true hi⟩
    rw [h.book, if_pos (show 1 < ME_MAX_NUM_CLIENTS by decide), if_pos hinRange]
    rfl
  have hcancel : (s.matching_engine.ticker_order_book_ 0).cancel 1 i 0 =
      .ok ((s.matching_engine.ticker_order_book_ 0).sendClientResponse (rejected i)) := by
    unfold MEOrderBook.cancel
    rw [hfind]
    rfl
  refine ⟨s.matching_engine.store 0
    ((s.matching_engine.ticker_order_book_ 0).sendClientResponse (rejected i))
    [.response (rejected i)], ?_, ?_⟩
  · have hprocess : s.matching_engine.processClientRequest (strayCancel i) =
        .ok (s.matching_engine.store 0
          ((s.matching_engine.ticker_order_book_ 0).sendClientResponse (rejected i))
          [.response (rejected i)]) := by
      unfold MatchingEngine.processClientRequest
      rw [if_pos (show (strayCancel i).ticker_id_ < ME_MAX_TICKERS from
        (by decide : 0 < ME_MAX_TICKERS))]
      show (MEOrderBook.cancel _ 1 i 0 >>= _) = _
      rw [show (strayCancel i).ticker_id_ = 0 from rfl, hcancel, ok_bind]
      simp [MEOrderBook.sendClientResponse]
    simp only [Outbound.step, Outbound.process, if_pos (And.intro h.between h.pending), hprocess,
      ok_bind, MatchingEngine.store_sent, List.drop_left]
  · rw [MatchingEngine.store_self]
    exact h.book

/-- A write takes the engine three steps. -/
theorem write_response {r : MEClientResponse} {pending : List MEEvent} (hbetween : s.BetweenWrites)
    (hpending : s.pending = .response r :: pending) :
    s.write.write.write = { s with
      pending := pending
      outgoing_ogw_responses_ :=
        ((s.outgoing_ogw_responses_.produce r).produce default).produce default } := by
  have hstore : s.outgoing_ogw_responses_.producer = .store := hbetween.1
  have hfirst : s.write = { s with
      pending := pending, outgoing_ogw_responses_ := s.outgoing_ogw_responses_.produce r } := by
    unfold write
    rw [if_pos hbetween, hpending]
  have hwriting : (s.outgoing_ogw_responses_.produce r).producer = .writeIndex := by
    simp [Channel.produce, hstore]
  have hcounting :
      ((s.outgoing_ogw_responses_.produce r).produce default).producer = .count := by
    rw [Channel.produce, hwriting]
  rw [hfirst]
  simp [write, BetweenWrites, hwriting, hcounting]

theorem write_response_done {c : Channel MEClientResponse} (hstore : c.producer = .store)
    (r : MEClientResponse) :
    (((c.produce r).produce default).produce default).producer = .store ∧
      (((c.produce r).produce default).produce default).written = c.written ++ [r] ∧
      (((c.produce r).produce default).produce default).read = c.read ∧
      (((c.produce r).produce default).produce default).consumer = c.consumer := by
  simp [Channel.produce, hstore]

/-- One more request, which takes the engine four steps. -/
theorem Waiting.round {i : ℕ} (h : Waiting n m i s) (hi : i < ME_MAX_ORDER_IDS) :
    ∃ s', s.run [.request (strayCancel i), .engine, .engine, .engine] = .ok s' ∧
      Waiting n m (i + 1) s' := by
  obtain ⟨e, hprocess, hbook⟩ := h.process hi
  obtain ⟨hstore, hwritten, hread, hconsumer⟩ := write_response_done h.between.1 (rejected i)
  have hrun : s.run [.request (strayCancel i), .engine, .engine, .engine] = .ok { s with
      matching_engine := e, pending := []
      outgoing_ogw_responses_ := ((s.outgoing_ogw_responses_.produce (rejected i)).produce
        default).produce default } := by
    refine Lib.Runs.foldlM_cons_eq_ok.mpr ⟨_, hprocess, ?_⟩
    exact congrArg Except.ok (write_response (s := { s with matching_engine := e, pending := _ })
      h.between rfl)
  refine ⟨_, hrun, ?_, ⟨hstore, h.between.2⟩, rfl, hbook, ?_, ?_, ?_⟩
  · exact Lib.Runs.invariant_of_step (fun _ _ _ h hstep => h.step hstep) h.inv hrun
  · rw [hwritten, h.written, List.range_succ, List.map_append]
    rfl
  · rw [hconsumer, h.consumer]
  · rw [hread, h.read]

/-- The engine answers `i` requests while the order server reads nothing. -/
def strayCancels (i : ℕ) : List Act :=
  (List.range i).flatMap fun k => [.request (strayCancel k), .engine, .engine, .engine]

theorem run_strayCancels {i : ℕ} (hi : i ≤ ME_MAX_ORDER_IDS) :
    ∃ s, (new n m).run (strayCancels i) = .ok s ∧ Waiting n m i s := by
  induction i with
  | zero => exact ⟨_, rfl, waiting_new n m⟩
  | succ i ih =>
    obtain ⟨s, hrun, hs⟩ := ih (Nat.le_of_succ_le hi)
    obtain ⟨s', hround, hs'⟩ := hs.round hi
    refine ⟨s', ?_, hs'⟩
    unfold strayCancels
    rw [List.range_succ, List.flatMap_append, List.flatMap_singleton]
    exact Lib.Runs.foldlM_append_eq_ok.mpr ⟨s, hrun, hround⟩

/-- After one response more than the queue holds, the order server's first read gets the last
one. -/
theorem run_overrun (hn : 0 < n) (hlast : n < ME_MAX_ORDER_IDS) :
    ∃ s, (new n m).run (strayCancels (n + 1) ++ [.orderServer, .orderServer]) = .ok s ∧
      s.outgoing_ogw_responses_.read = [rejected n] ∧
      s.outgoing_ogw_responses_.written = (List.range (n + 1)).map rejected := by
  obtain ⟨s, hrun, hs⟩ := run_strayCancels (n := n) (m := m) hlast
  have hinv := hs.inv.responses
  have hsize : s.outgoing_ogw_responses_.queue.num_elements_ ≠ 0 := by
    have hnum := hinv.num_elements
    rw [hs.consumer, hs.read, hs.between.1, hs.written] at hnum
    simp [Channel.owedReads, Channel.owedWrites] at hnum
    omega
  have hread : s.outgoing_ogw_responses_.queue.next_read_index_ = 0 := by
    obtain ⟨i, hi, hindex⟩ := hinv.read_index
    rw [hs.consumer, hs.read] at hi
    obtain rfl : i = 0 := hi
    rw [hindex, Nat.zero_mod]
  -- response `n` took the slot of response 0
  have hslot : s.outgoing_ogw_responses_.queue.store_ 0 = rejected n := by
    have hv : s.outgoing_ogw_responses_.written[n]? = some (rejected n) := by
      simp [hs.written]
    rw [← Nat.mod_self n]
    exact hinv.slots n _ hv (by simp [hs.written]; omega)
  refine ⟨{ s with outgoing_ogw_responses_ := { s.outgoing_ogw_responses_ with
    consumer := .readIndex, read := [rejected n] } },
    Lib.Runs.foldlM_append_eq_ok.mpr ⟨s, hrun, ?_⟩, rfl, hs.written⟩
  simp [Outbound.step, Channel.consume, hs.consumer, LFQueue.getNextToRead, LFQueue.size, hsize,
    hread, hslot, hs.read]

/-- So the first response was overwritten before it was read. -/
theorem not_readsInOrder_of_overrun (hn : 0 < n) (h : Inv n m s)
    (hread : s.outgoing_ogw_responses_.read = [rejected n])
    (hwritten : s.outgoing_ogw_responses_.written = (List.range (n + 1)).map rejected) :
    ¬ s.ReadsInOrder := by
  intro horder
  have hfirst := Channel.getElem?_of_isPrefix horder.1 (k := 0) (by rw [hread]; rfl)
  rw [h.sent_responses, hwritten, List.range_succ_eq_map] at hfirst
  have hsame : 0 = n := congrArg MEClientResponse.client_order_id_ (Option.some.inj hfirst)
  omega

theorem overrun (hn : 0 < n) (hm : 0 < m) (hlast : n < ME_MAX_ORDER_IDS) :
    ∃ s, (new n m).run (strayCancels (n + 1) ++ [.orderServer, .orderServer]) = .ok s ∧
      ¬ Lib.Runs.Along step KeepsUnread (new n m)
        (strayCancels (n + 1) ++ [.orderServer, .orderServer]) ∧
      ¬ s.ReadsInOrder := by
  obtain ⟨s, hrun, hread, hwritten⟩ := run_overrun (m := m) hn hlast
  have hinv : Inv n m s :=
    Lib.Runs.invariant_of_step (fun _ _ _ h hstep => h.step hstep) (inv_new n m) hrun
  have hdisorder := not_readsInOrder_of_overrun hn hinv hread hwritten
  refine ⟨s, hrun, fun hkept => hdisorder ?_, hdisorder⟩
  exact readsInOrder_run ((along_keepsUnread_iff hn hm).mp hkept) hrun

/-- **A slow order server loses responses**: at the real capacities the engine answers 262145
requests before the first response is read, and that read gets the last response. -/
theorem not_unreadKept_strayCancels :
    ∃ s, (new ME_MAX_CLIENT_UPDATES ME_MAX_MARKET_UPDATES).run
        (strayCancels (ME_MAX_CLIENT_UPDATES + 1) ++ [.orderServer, .orderServer]) = .ok s ∧
      ¬ Lib.Runs.Along step KeepsUnread (new ME_MAX_CLIENT_UPDATES ME_MAX_MARKET_UPDATES)
        (strayCancels (ME_MAX_CLIENT_UPDATES + 1) ++ [.orderServer, .orderServer]) ∧
      ¬ s.ReadsInOrder :=
  overrun (by decide) (by decide) (by decide)

/-- A request answered and read. -/
theorem unreadKept_iff_read :
    Lib.Runs.Along step KeepsUnread (new 1 1) (strayCancels 1 ++ [.orderServer, .orderServer]) ∧
        Outbound.ReadsInOrder
          ((Outbound.run (new 1 1) (strayCancels 1 ++ [.orderServer, .orderServer])).toOption.getD
            (new 1 1)) ↔
      Lib.Runs.Along step WritesHaveRoom (new 1 1)
        (strayCancels 1 ++ [.orderServer, .orderServer]) :=
  unreadKept_iff Nat.one_pos Nat.one_pos rfl

end Outbound

end TradingEcosystem
