import TradingEcosystem.Common.Types
import TradingEcosystem.Lib.RingLog
import TradingEcosystem.Lib.Runs

/-!
# Lock-Free Queue

`common/lf_queue.h`: a ring of slots with an index for the next write, an index for the next read
and a counter, used by one producer and one consumer.

`updateWriteIndex` and `updateReadIndex` are two atomic steps each: first the index, then the
counter.  The queue never checks whether it is full.

- `LFQueue` : the queue and the atomic steps on it
- `Channel` : a queue, where its producer and its consumer are in their loops, and what they wrote
  and read so far
- `Channel.Inv` : what the indices and the counter say about the two logs
- `Channel.lossFree_iff` : the consumer reads what was written exactly when the producer is never
  more than the capacity ahead of a read
-/

namespace TradingEcosystem

structure LFQueue (T : Type) where
  /-- `store_` is total; only the indices below `num_elems`, which is `store_.size()`, are slots. -/
  store_ : ℕ → T
  num_elems : ℕ
  next_write_index_ : ℕ
  next_read_index_ : ℕ
  num_elements_ : ℕ

namespace LFQueue

variable {T : Type}

/-- `LFQueue(num_elems)`: every slot holds a default value. -/
def new (num_elems : ℕ) (default : T) : LFQueue T where
  store_ := fun _ => default
  num_elems := num_elems
  next_write_index_ := 0
  next_read_index_ := 0
  num_elements_ := 0

def size (q : LFQueue T) : ℕ := q.num_elements_

/-- `*getNextToWriteTo() = value`. -/
def store (q : LFQueue T) (value : T) : LFQueue T :=
  { q with store_ := Function.update q.store_ q.next_write_index_ value }

/-- The first statement of `updateWriteIndex`. -/
def advanceWriteIndex (q : LFQueue T) : LFQueue T :=
  { q with next_write_index_ := (q.next_write_index_ + 1) % q.num_elems }

/-- The second statement of `updateWriteIndex`. -/
def countWrite (q : LFQueue T) : LFQueue T := { q with num_elements_ := q.num_elements_ + 1 }

/-- The next slot to read, or null when the queue is empty. -/
def getNextToRead (q : LFQueue T) : Option ℕ :=
  if q.size ≠ 0 then some q.next_read_index_ else none

/-- The first statement of `updateReadIndex`. -/
def advanceReadIndex (q : LFQueue T) : LFQueue T :=
  { q with next_read_index_ := (q.next_read_index_ + 1) % q.num_elems }

/-- The other statements of `updateReadIndex`: the ASSERT and the counter. -/
def countRead (q : LFQueue T) : Except Fault (LFQueue T) :=
  if q.num_elements_ ≠ 0 then
    .ok { q with num_elements_ := q.num_elements_ - 1 }
  else
    .error .assert

end LFQueue

/-! ## One producer and one consumer -/

/-- The next statement of the producer. -/
inductive ProducerPc where
  | store
  | writeIndex
  | count
  deriving DecidableEq, Repr

/-- The next statement of the consumer; it holds a pointer to the slot it is about to read. -/
inductive ConsumerPc where
  | test
  | read (slot : ℕ)
  | readIndex
  | count
  deriving DecidableEq, Repr

structure Channel (T : Type) where
  queue : LFQueue T
  producer : ProducerPc := .store
  consumer : ConsumerPc := .test
  /-- Every value stored so far. -/
  written : List T := []
  /-- Every value read so far. -/
  read : List T := []

namespace Channel

variable {T : Type}

def new (num_elems : ℕ) (default : T) : Channel T where
  queue := .new num_elems default

/-- A step of the producer, which is going to store `value` next. -/
def produce (c : Channel T) (value : T) : Channel T :=
  match c.producer with
  | .store =>
    { c with queue := c.queue.store value, producer := .writeIndex,
             written := c.written ++ [value] }
  | .writeIndex => { c with queue := c.queue.advanceWriteIndex, producer := .count }
  | .count => { c with queue := c.queue.countWrite, producer := .store }

/-- A step of the consumer. -/
def consume (c : Channel T) : Except Fault (Channel T) :=
  match c.consumer with
  | .test =>
    match c.queue.getNextToRead with
    -- empty, so the consumer tests again
    | none => .ok c
    | some slot => .ok { c with consumer := .read slot }
  | .read slot =>
    .ok { c with consumer := .readIndex, read := c.read ++ [c.queue.store_ slot] }
  | .readIndex => .ok { c with queue := c.queue.advanceReadIndex, consumer := .count }
  | .count => do
    let queue ← c.queue.countRead
    .ok { c with queue := queue, consumer := .test }

/-! ## What the indices and the counter say -/

/-- Updates of the write index and of the counter that the producer still owes. -/
def owedWrites : ProducerPc → ℕ × ℕ
  | .store => (0, 0)
  | .writeIndex => (1, 1)
  | .count => (0, 1)

/-- Updates of the read index and of the counter that the consumer still owes. -/
def owedReads : ConsumerPc → ℕ × ℕ
  | .test => (0, 0)
  | .read _ => (0, 0)
  | .readIndex => (1, 1)
  | .count => (0, 1)

/-- The indices and the counter lag behind the two logs by what the parties still owe. -/
structure Inv (n : ℕ) (c : Channel T) : Prop where
  num_elems : c.queue.num_elems = n
  slots : Lib.RingLog.Holds n c.queue.store_ c.written
  write_index : ∃ i, i + (owedWrites c.producer).1 = c.written.length ∧
    c.queue.next_write_index_ = i % n
  read_index : ∃ i, i + (owedReads c.consumer).1 = c.read.length ∧
    c.queue.next_read_index_ = i % n
  num_elements : c.queue.num_elements_ + c.read.length + (owedWrites c.producer).2 =
    c.written.length + (owedReads c.consumer).2
  /-- Once past its test the consumer has an element to itself. -/
  nonempty : c.consumer ≠ .test → 0 < c.queue.num_elements_
  slot : ∀ slot, c.consumer = .read slot → slot = c.read.length % n

theorem inv_new (n : ℕ) (default : T) : Inv n (new n default) where
  num_elems := rfl
  slots := Lib.RingLog.holds_nil
  write_index := ⟨0, rfl, (Nat.zero_mod n).symm⟩
  read_index := ⟨0, rfl, (Nat.zero_mod n).symm⟩
  num_elements := rfl
  nonempty := fun h => absurd rfl h
  slot := fun _ h => by cases h

variable {n : ℕ} {c c' : Channel T} {value : T}

/-- Every step of the producer keeps the invariant. -/
theorem Inv.produce (h : Inv n c) (value : T) : Inv n (c.produce value) := by
  obtain ⟨hn, hslots, ⟨i, hi, hwrite⟩, hread, hnum, hpos, hslot⟩ := h
  unfold Channel.produce
  cases hpc : c.producer with
  | store =>
    simp only [hpc, owedWrites] at hi hnum
    -- the slot at the write index is that of the next entry of the log
    obtain rfl : i = c.written.length := hi
    refine ⟨hn, ?_, ⟨c.written.length, by simp [owedWrites], hwrite⟩, hread, ?_, hpos, hslot⟩
    · simp only [LFQueue.store, hwrite]
      exact hslots.snoc value
    · simp only [LFQueue.store, owedWrites, List.length_append, List.length_singleton]
      omega
  | writeIndex =>
    simp only [hpc, owedWrites] at hi hnum
    refine ⟨hn, hslots, ⟨i + 1, hi, ?_⟩, hread, ?_, hpos, hslot⟩
    · simp only [LFQueue.advanceWriteIndex, hwrite, hn]
      exact Lib.RingLog.succ_mod i
    · simp only [LFQueue.advanceWriteIndex, owedWrites]
      exact hnum
  | count =>
    simp only [hpc, owedWrites] at hi hnum
    refine ⟨hn, hslots, ⟨i, hi, hwrite⟩, hread, ?_, fun _ => Nat.succ_pos _, hslot⟩
    simp only [LFQueue.countWrite, owedWrites]
    omega

/-- **The consumer never faults**, and its steps keep the invariant. -/
theorem Inv.consume (h : Inv n c) : ∃ c', c.consume = .ok c' ∧ Inv n c' := by
  obtain ⟨hn, hslots, hwrite, ⟨i, hi, hread⟩, hnum, hpos, hslot⟩ := h
  unfold Channel.consume
  cases hpc : c.consumer with
  | test =>
    simp only [hpc, owedReads] at hi hnum
    obtain rfl : i = c.read.length := hi
    unfold LFQueue.getNextToRead LFQueue.size
    by_cases hsize : c.queue.num_elements_ ≠ 0
    · -- the pointer goes to the slot of the next entry to read
      rw [if_pos hsize]
      refine ⟨_, rfl, hn, hslots, hwrite, ⟨c.read.length, rfl, hread⟩, hnum,
        fun _ => Nat.pos_of_ne_zero hsize, fun slot heq => ?_⟩
      cases heq
      exact hread
    · rw [if_neg hsize]
      refine ⟨c, rfl, hn, hslots, hwrite, ⟨c.read.length, ?_, hread⟩, ?_, hpos, hslot⟩
      · simp [hpc, owedReads]
      · simpa [hpc, owedReads] using hnum
  | read slot =>
    simp only [hpc, owedReads] at hi hnum
    refine ⟨_, rfl, hn, hslots, hwrite, ⟨i, ?_, hread⟩, ?_, fun _ => hpos (by simp [hpc]),
      fun _ heq => by cases heq⟩
    · simpa [owedReads] using hi
    · simp only [owedReads, List.length_append, List.length_singleton]
      omega
  | readIndex =>
    simp only [hpc, owedReads] at hi hnum
    refine ⟨_, rfl, hn, hslots, hwrite, ⟨i + 1, hi, ?_⟩, hnum, fun _ => hpos (by simp [hpc]),
      fun _ heq => by cases heq⟩
    simp only [LFQueue.advanceReadIndex, hread, hn]
    exact Lib.RingLog.succ_mod i
  | count =>
    simp only [hpc, owedReads] at hi hnum
    -- the element that the test saw is still counted, so the ASSERT holds
    have hsome : 0 < c.queue.num_elements_ := hpos (by simp [hpc])
    have hcount : c.queue.countRead =
        .ok { c.queue with num_elements_ := c.queue.num_elements_ - 1 } := by
      simp [LFQueue.countRead, Nat.ne_of_gt hsome]
    simp only [hcount, ok_bind]
    refine ⟨_, rfl, hn, hslots, hwrite, ⟨i, hi, hread⟩, ?_, fun h => absurd rfl h,
      fun _ heq => by cases heq⟩
    simp only [owedReads]
    omega

/-- The consumer reads only what was written for it. -/
theorem Inv.lt_of_read (h : Inv n c) {slot : ℕ} (hpc : c.consumer = .read slot) :
    c.read.length < c.written.length := by
  have hnum := h.num_elements
  have hpos := h.nonempty (by simp [hpc])
  simp only [hpc, owedReads] at hnum
  omega

/-- The value the consumer is about to read is the next one written, if no later one has taken its
slot. -/
theorem Inv.read_eq (h : Inv n c) {slot : ℕ} (hpc : c.consumer = .read slot)
    (hahead : c.written.length ≤ c.read.length + n) :
    c.written[c.read.length]? = some (c.queue.store_ slot) := by
  have hlt := h.lt_of_read hpc
  rw [h.slot slot hpc, List.getElem?_eq_getElem hlt]
  exact congrArg some (h.slots _ _ (List.getElem?_eq_getElem hlt) hahead).symm

/-! ## Elements that are still to be read -/

/-- The slot that is written next has no element that is still to be read. -/
def UnreadKept (c : Channel T) : Prop :=
  ∀ k, c.read.length ≤ k → k < c.written.length →
    c.queue.next_write_index_ ≠ k % c.queue.num_elems

/-- Fewer elements than the capacity are still to be read. -/
def HasRoom (c : Channel T) : Prop := c.written.length < c.read.length + c.queue.num_elems

/-- Between two updates of the producer the two say the same. -/
theorem Inv.storesSafely_iff (hn : 0 < n) (h : Inv n c) (hpc : c.producer = .store) :
    c.UnreadKept ↔ c.HasRoom := by
  obtain ⟨i, hi, hwrite⟩ := h.write_index
  simp only [hpc, owedWrites] at hi
  obtain rfl : i = c.written.length := hi
  unfold UnreadKept HasRoom
  rw [hwrite, h.num_elems]
  constructor
  · intro hkept
    by_contra hfull
    -- the element that was written a whole turn ago
    refine hkept (c.written.length - n) (by omega) (by omega) ?_
    rw [← Nat.add_mod_right (c.written.length - n), Nat.sub_add_cancel (by omega)]
  · intro hroom k hread hlt heq
    have := Lib.RingLog.eq_of_mod_eq (Nat.le_of_lt hlt) (by omega) heq.symm
    omega

/-! ## Runs -/

/-- Who takes the next step. -/
inductive Party where
  | producer
  | consumer
  deriving DecidableEq, Repr

/-- The values the producer stores are `values 0`, `values 1`, and so on. -/
def step (values : ℕ → T) (c : Channel T) : Party → Except Fault (Channel T)
  | .producer => .ok (c.produce (values c.written.length))
  | .consumer => c.consume

/-- The two parties take their steps in the order of `schedule`. -/
def run (values : ℕ → T) (c : Channel T) (schedule : List Party) : Except Fault (Channel T) :=
  schedule.foldlM (step values) c

/-- Each value read is the one written with the same number. -/
def InOrder (c : Channel T) : Prop :=
  ∀ (k : ℕ) (v : T), c.read[k]? = some v → c.written[k]? = some v

/-- A read comes after the write it is for. -/
def ReadsWritten (c : Channel T) (party : Party) : Prop :=
  ∀ slot, party = .consumer → c.consumer = .read slot → c.read.length < c.written.length

/-- A read comes before the producer has stored more than the capacity beyond it. -/
def ReadsInTime (n : ℕ) (c : Channel T) (party : Party) : Prop :=
  ∀ slot, party = .consumer → c.consumer = .read slot → c.written.length ≤ c.read.length + n

variable {values : ℕ → T} {party : Party} {schedule : List Party}

theorem Inv.step (h : Inv n c) (values : ℕ → T) (party : Party) :
    ∃ c', c.step values party = .ok c' ∧ Inv n c' := by
  cases party with
  | producer => exact ⟨_, rfl, h.produce _⟩
  | consumer => exact h.consume

/-- What a step of the consumer adds to the log of reads. -/
theorem consume_cases (h : c.consume = .ok c') :
    c'.written = c.written ∧
      (c'.read = c.read ∧ (∀ slot, c.consumer ≠ .read slot) ∨
        ∃ slot, c.consumer = .read slot ∧ c'.read = c.read ++ [c.queue.store_ slot]) := by
  unfold consume at h
  cases hpc : c.consumer with
  | test =>
    simp only [hpc] at h
    split at h
    · cases h
      exact ⟨rfl, .inl ⟨rfl, by simp⟩⟩
    · cases h
      exact ⟨rfl, .inl ⟨rfl, by simp⟩⟩
  | read slot =>
    simp only [hpc] at h
    cases h
    exact ⟨rfl, .inr ⟨slot, rfl, rfl⟩⟩
  | readIndex =>
    simp only [hpc] at h
    cases h
    exact ⟨rfl, .inl ⟨rfl, by simp⟩⟩
  | count =>
    simp only [hpc] at h
    obtain ⟨queue, -, h⟩ := bind_eq_ok.mp h
    cases h
    exact ⟨rfl, .inl ⟨rfl, by simp⟩⟩

/-- A step of the producer reads nothing and only adds to what was written. -/
theorem produce_logs (c : Channel T) (value : T) :
    (c.produce value).read = c.read ∧ c.written <+: (c.produce value).written ∧
      (c.produce value).consumer = c.consumer := by
  unfold produce
  split
  · exact ⟨rfl, List.prefix_append .., rfl⟩
  · exact ⟨rfl, List.prefix_rfl, rfl⟩
  · exact ⟨rfl, List.prefix_rfl, rfl⟩

/-- The logs only grow. -/
theorem prefix_run (hrun : c.run values schedule = .ok c') :
    c.written <+: c'.written ∧ c.read <+: c'.read := by
  have hstep : ∀ (c₁ : Channel T) (party : Party) (c₂ : Channel T),
      c.written <+: c₁.written ∧ c.read <+: c₁.read → c₁.step values party = .ok c₂ →
      c.written <+: c₂.written ∧ c.read <+: c₂.read := by
    intro c₁ party c₂ h hstep
    cases party with
    | producer =>
      obtain rfl := Except.ok.inj hstep
      obtain ⟨hread, hwritten, -⟩ := c₁.produce_logs (values c₁.written.length)
      rw [hread]
      exact ⟨h.1.trans hwritten, h.2⟩
    | consumer =>
      obtain ⟨hwritten, ⟨hread, -⟩ | ⟨slot, -, hread⟩⟩ := consume_cases hstep
      · rw [hwritten, hread]
        exact h
      · rw [hwritten, hread]
        exact ⟨h.1, h.2.trans (List.prefix_append ..)⟩
  exact Lib.Runs.invariant_of_step hstep ⟨List.prefix_rfl, List.prefix_rfl⟩ hrun

/-- An entry of a log stays where it is. -/
theorem getElem?_of_isPrefix {log log' : List T} {k : ℕ} {v : T} (h : log <+: log')
    (hv : log[k]? = some v) : log'[k]? = some v := by
  obtain ⟨more, rfl⟩ := h
  rw [List.getElem?_append_left (List.getElem?_eq_some_iff.mp hv).1]
  exact hv

theorem InOrder.produce (h : c.InOrder) (value : T) : (c.produce value).InOrder := by
  obtain ⟨hread, hwritten, -⟩ := c.produce_logs value
  intro k v hv
  rw [hread] at hv
  exact getElem?_of_isPrefix hwritten (h k v hv)

/-- A read in time is one of the next value written. -/
theorem InOrder.consume (horder : c.InOrder) (h : Inv n c) (hstep : c.consume = .ok c')
    (htime : ReadsInTime n c .consumer) : c'.InOrder := by
  obtain ⟨hlog, ⟨hread, -⟩ | ⟨slot, hpc, hread⟩⟩ := consume_cases hstep
  · intro k v hv
    rw [hread] at hv
    rw [hlog]
    exact horder k v hv
  · intro k v hv
    rw [hlog]
    rw [hread] at hv
    by_cases hk : k < c.read.length
    · rw [List.getElem?_append_left hk] at hv
      exact horder k v hv
    · have hlen := (List.getElem?_eq_some_iff.mp hv).1
      rw [List.length_append, List.length_singleton] at hlen
      obtain rfl : k = c.read.length := by omega
      rw [List.getElem?_concat_length] at hv
      rw [← hv]
      exact h.read_eq hpc (htime slot rfl hpc)

/-- What is read in order is what was written first. -/
theorem inOrder_iff_isPrefix : c.InOrder ↔ c.read <+: c.written := by
  constructor
  · intro horder
    rw [List.prefix_iff_getElem?]
    intro k hk
    exact horder k _ (List.getElem?_eq_getElem hk)
  · intro hinitial k v hv
    exact getElem?_of_isPrefix hinitial hv

/-- A late read is of a value that was written to the slot since, and it stays in the log. -/
theorem not_inOrder_of_late (hn : 0 < n) (h : Inv n c) {slot : ℕ} (hpc : c.consumer = .read slot)
    (hlate : ¬ c.written.length ≤ c.read.length + n)
    (hread : c.read ++ [c.queue.store_ slot] <+: c'.read) (hwritten : c.written <+: c'.written)
    (hdistinct : c'.written.Nodup) : ¬ c'.InOrder := by
  intro horder
  have hlt := h.lt_of_read hpc
  have hv := List.getElem?_eq_getElem hlt
  have hwrong := horder _ _ (getElem?_of_isPrefix hread List.getElem?_concat_length)
  rw [getElem?_of_isPrefix hwritten hv, Option.some.injEq, h.slot slot hpc] at hwrong
  exact hlate ((h.slots.eq_iff hn (hdistinct.sublist hwritten.sublist) hv).mp hwrong.symm)

/-- **The law of a run**, from any state in which the reads were right so far; induction on the
schedule. -/
theorem Inv.inOrder_iff_inTime (hn : 0 < n) :
    ∀ {c : Channel T}, Inv n c → c.InOrder → c.run values schedule = .ok c' → c'.written.Nodup →
      (c'.InOrder ↔ Lib.Runs.Along (Channel.step values) (ReadsInTime n) c schedule) := by
  induction schedule with
  | nil =>
    intro c _ horder hrun _
    cases hrun
    exact iff_of_true horder trivial
  | cons party schedule ih =>
    intro c h horder hrun hdistinct
    obtain ⟨c₁, hstep, hrest⟩ := Lib.Runs.foldlM_cons_eq_ok.mp hrun
    obtain ⟨c₁', hstep', h₁⟩ := h.step values party
    obtain rfl := Except.ok.inj (hstep.symm.trans hstep')
    obtain ⟨hwritten, hread⟩ := prefix_run hrest
    rw [Lib.Runs.along_cons_of_ok hstep]
    cases party with
    | producer =>
      obtain rfl := Except.ok.inj hstep
      rw [ih h₁ (horder.produce _) hrest hdistinct]
      exact (and_iff_right fun slot hparty => by cases hparty).symm
    | consumer =>
      by_cases htime : ReadsInTime n c .consumer
      · rw [ih h₁ (horder.consume h hstep htime) hrest hdistinct]
        exact (and_iff_right htime).symm
      · -- the read of this step is late
        unfold ReadsInTime at htime
        simp only [not_forall] at htime
        obtain ⟨slot, -, hpc, hlate⟩ := htime
        obtain ⟨hlog, ⟨-, hnone⟩ | ⟨slot', hpc', hnew⟩⟩ := consume_cases hstep
        · exact absurd hpc (hnone slot)
        · obtain rfl : slot' = slot := ConsumerPc.read.inj (hpc'.symm.trans hpc)
          apply iff_of_false
          · exact not_inOrder_of_late hn h hpc hlate (hnew ▸ hread) (hlog ▸ hwritten) hdistinct
          · intro hall
            exact hlate (hall.1 slot' rfl hpc)

/-- **Exact condition for a loss-free queue**, for every schedule: no ASSERT fires, the consumer
reads nothing that was not written for it, and if the values differ it reads each value in its
turn exactly when the producer is never more than the capacity ahead of a read. -/
theorem lossFree_iff (hn : 0 < n) (default : T) (values : ℕ → T) (schedule : List Party) :
    ∃ c, (new n default).run values schedule = .ok c ∧
      Lib.Runs.Along (Channel.step values) ReadsWritten (new n default) schedule ∧
      (c.written.Nodup →
        (c.InOrder ↔
          Lib.Runs.Along (Channel.step values) (ReadsInTime n) (new n default) schedule)) := by
  have hstep : ∀ (c : Channel T) (party : Party), Inv n c → True →
      ∃ c', c.step values party = .ok c' ∧ Inv n c' := fun c party h _ => h.step values _
  obtain ⟨c, hrun, -⟩ := Lib.Runs.exists_ok hstep (inv_new n default) Lib.Runs.along_trivial
  refine ⟨c, hrun, ?_, ?_⟩
  · refine Lib.Runs.along_of_invariant (I := Inv n) ?_ ?_ (inv_new n default)
    · intro c _ h slot _ hpc
      exact h.lt_of_read hpc
    · intro c party c' h hc'
      obtain ⟨c'', hc'', h'⟩ := h.step values party
      obtain rfl := Except.ok.inj (hc'.symm.trans hc'')
      exact h'
  · intro hdistinct
    refine Inv.inOrder_iff_inTime hn (inv_new n default) (fun k v hv => ?_) hrun hdistinct
    simp [new] at hv

/-- With one slot, a second store before the first read loses the first value: the condition
fails, and so does the order. -/
theorem lossFree_iff_overrun :
    ∃ c, (new 1 0).run id
        [.producer, .producer, .producer, .producer, .consumer, .consumer] = .ok c ∧
      Lib.Runs.Along (Channel.step id) ReadsWritten (new 1 0)
        [.producer, .producer, .producer, .producer, .consumer, .consumer] ∧
      (c.written.Nodup →
        (c.InOrder ↔
          Lib.Runs.Along (Channel.step id) (ReadsInTime 1) (new 1 0)
            [.producer, .producer, .producer, .producer, .consumer, .consumer])) :=
  lossFree_iff Nat.one_pos 0 id
    [.producer, .producer, .producer, .producer, .consumer, .consumer]

end Channel

end TradingEcosystem
