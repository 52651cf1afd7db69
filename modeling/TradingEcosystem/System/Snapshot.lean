import TradingEcosystem.Exchange.MatchingEngine
import TradingEcosystem.Exchange.SnapshotSynthesizer
import TradingEcosystem.System.Mirror

/-!
# A Published Snapshot is the Exchange's Book

The synthesizer holds, for every ticker, the orders that are quoted after the updates it was
given, and a cycle of its messages rebuilds the quotes in a new book.

- `Quotes.find` : the quoted order with an id
- `Synthesized` : what the synthesizer holds
- `addToSnapshot_spec`, `run_spec` : it follows the published updates
- `cycle_rebuilds` : the messages of a cycle about one ticker
- `snapshot_rebuilds_books` : for every prefix of the updates of a run of the matching engine
-/

namespace TradingEcosystem

open LimitBook
open MEOrderBook (Call)

namespace Quotes

/-! ## Looking up an order -/

/-- The quoted order with an id. -/
def find (Q : Quotes) (oid : ℕ) : Option MarketOrderInfo :=
  Q.orders.find? fun x => decide (x.order_id_ = oid)

variable {Q : Quotes} {u : MEMarketUpdate} {oid : ℕ} {x : MarketOrderInfo}

theorem find_eq_some_iff (h : Q.WF) : Q.find oid = some x ↔ x ∈ Q.orders ∧ x.order_id_ = oid := by
  unfold find
  constructor
  · intro hfind
    exact ⟨List.mem_of_find?_eq_some hfind, by simpa using List.find?_some hfind⟩
  · intro hx
    obtain ⟨hx, hid⟩ := hx
    cases hfind : Q.orders.find? fun x => decide (x.order_id_ = oid) with
    | none => exact absurd (decide_eq_true hid) (List.find?_eq_none.mp hfind x hx)
    | some y =>
      have hy := List.mem_of_find?_eq_some hfind
      have hyid : y.order_id_ = oid := by simpa using List.find?_some hfind
      rw [List.inj_on_of_nodup_map h.ids_nodup hy hx (hyid.trans hid.symm)]

theorem find_apply_add (h : Q.WF) (hu : u.type_ = .ADD) (hpub : Q.Published u) :
    (Q.apply u).find oid = if oid = u.order_id_ then some (added u) else Q.find oid := by
  have hadm := hpub.1
  simp only [Admits, hu] at hadm
  obtain ⟨hside, -, hfresh, -⟩ := hadm
  apply Option.ext
  intro x
  rw [find_eq_some_iff (h.apply hpub), (orders_apply_add hu hside).mem_iff, List.mem_cons]
  split
  · next heq =>
    rw [Option.some.injEq, heq]
    constructor
    · intro hx
      exact (hx.1.resolve_right fun hmem => hfresh x hmem hx.2).symm
    · intro hx
      subst hx
      exact ⟨.inl rfl, rfl⟩
  · next hne =>
    rw [find_eq_some_iff h]
    constructor
    · intro hx
      refine ⟨hx.1.resolve_left fun heq => ?_, hx.2⟩
      rw [heq] at hx
      exact hne hx.2.symm
    · intro hx
      exact ⟨.inr hx.1, hx.2⟩

theorem find_apply_cancel (h : Q.WF) (hu : u.type_ = .CANCEL) (hpub : Q.Published u) :
    (Q.apply u).find oid = if oid = u.order_id_ then none else Q.find oid := by
  have horders : (Q.apply u).orders =
      Q.orders.filter fun x => decide (x.order_id_ ≠ u.order_id_) := by
    simp only [apply, hu]
    exact (List.filter_append _ _).symm
  apply Option.ext
  intro x
  rw [find_eq_some_iff (h.apply hpub), horders, List.mem_filter, decide_eq_true_eq]
  split
  · next heq =>
    constructor
    · intro hx
      exact absurd (hx.2.trans heq) hx.1.2
    · intro hx
      cases hx
  · next hne =>
    rw [find_eq_some_iff h]
    constructor
    · intro hx
      exact ⟨hx.1.1, hx.2⟩
    · intro hx
      exact ⟨⟨hx.1, fun heq => hne (hx.2.symm.trans heq)⟩, hx.2⟩

theorem find_apply_modify (hu : u.type_ = .MODIFY) :
    (Q.apply u).find oid =
      (Q.find oid).map fun x => if x.order_id_ = u.order_id_ then { x with qty_ := u.qty_ } else x := by
  have horders : (Q.apply u).orders = Q.orders.map fun x =>
      if x.order_id_ = u.order_id_ then { x with qty_ := u.qty_ } else x := by
    simp only [apply, hu]
    exact List.map_append.symm
  unfold find
  rw [horders, List.find?_map]
  refine congrArg _ (congrArg (List.find? · Q.orders) (funext fun x => ?_))
  rw [Function.comp_apply]
  split <;> rfl

end Quotes

namespace SnapshotSynthesizer

open Quotes (addOf)

/-! ## What the synthesizer holds -/

/-- After `n` updates, with at most `adds` blocks in use, the entries are the orders of the quotes,
each in a block of its own. -/
structure Synthesized (s : SnapshotSynthesizer) (Q : ℕ → Quotes) (n adds : ℕ) : Prop where
  last : s.last_inc_seq_num_ = n
  pool_wf : s.order_pool_.WF
  pool_size : s.order_pool_.size = ME_MAX_ORDER_IDS
  card : s.order_pool_.used.card ≤ adds
  entries : ∀ t oid, (s.ticker_orders_ t oid).map s.order_pool_.get = ((Q t).find oid).map (addOf t)
  used : ∀ t oid p, s.ticker_orders_ t oid = some p → p ∈ s.order_pool_.used
  inj : ∀ t oid t' oid' p, s.ticker_orders_ t oid = some p → s.ticker_orders_ t' oid' = some p →
    t = t' ∧ oid = oid'

theorem Synthesized.mono {s : SnapshotSynthesizer} {Q : ℕ → Quotes} {n adds adds' : ℕ}
    (h : Synthesized s Q n adds) (hle : adds ≤ adds') : Synthesized s Q n adds' :=
  { h with card := h.card.trans hle }

theorem synthesized_new : Synthesized SnapshotSynthesizer.new (fun _ => .empty) 0 0 where
  last := rfl
  pool_wf := MemPool.WF.new _ (by decide)
  pool_size := rfl
  card := by
    show (MemPool.new ME_MAX_ORDER_IDS _).used.card ≤ 0
    rw [MemPool.used_new]
    exact Nat.le_refl _
  entries := fun _ _ => rfl
  used := fun _ _ _ h => by cases h
  inj := fun _ _ _ _ _ h => by cases h

variable {s : SnapshotSynthesizer} {Q : ℕ → Quotes} {n adds : ℕ} {u : MEMarketUpdate}

theorem ticker_orders_setEntry (s : SnapshotSynthesizer) (u : MEMarketUpdate) (order : Option ℕ)
    (t oid : ℕ) :
    (s.setEntry u order).ticker_orders_ t oid =
      if t = u.ticker_id_ ∧ oid = u.order_id_ then order else s.ticker_orders_ t oid := by
  unfold setEntry
  by_cases ht : t = u.ticker_id_
  · subst ht
    by_cases ho : oid = u.order_id_
    · subst ho
      simp
    · simp [ho]
  · simp [ht]

/-- The entry of a quoted order. -/
theorem Synthesized.entry (h : Synthesized s Q n adds) {x : MarketOrderInfo} {t oid : ℕ}
    (hx : (Q t).find oid = some x) :
    ∃ p, s.ticker_orders_ t oid = some p ∧ s.order_pool_.get p = addOf t x := by
  have hentry := h.entries t oid
  rw [hx, Option.map_some, Option.map_eq_some_iff] at hentry
  exact hentry

/-- The order of a `MODIFY` or `CANCEL` passes the ASSERTs. -/
theorem Synthesized.expectOrder (h : Synthesized s Q n adds) (hwf : (Q u.ticker_id_).WF)
    (hknown : ∃ x ∈ (Q u.ticker_id_).orders, x.order_id_ = u.order_id_)
    (hagrees : ∀ x ∈ (Q u.ticker_id_).orders, x.order_id_ = u.order_id_ →
      x.side_ = u.side_ ∧ x.price_ = u.price_) :
    ∃ p x, s.expectOrder u = .ok p ∧ s.ticker_orders_ u.ticker_id_ u.order_id_ = some p ∧
      (Q u.ticker_id_).find u.order_id_ = some x ∧ s.order_pool_.get p = addOf u.ticker_id_ x ∧
      x.price_ = u.price_ := by
  obtain ⟨x, hx, hid⟩ := hknown
  obtain ⟨hside, hprice⟩ := hagrees x hx hid
  have hfind : (Q u.ticker_id_).find u.order_id_ = some x :=
    (Quotes.find_eq_some_iff hwf).mpr ⟨hx, hid⟩
  obtain ⟨p, hp, hget⟩ := h.entry hfind
  have hoid : u.order_id_ < ME_MAX_ORDER_IDS := hid ▸ hwf.ids x hx
  refine ⟨p, x, ?_, hp, hfind, hget, hprice⟩
  unfold SnapshotSynthesizer.expectOrder SnapshotSynthesizer.findOrder
  simp only [if_pos hoid, hp, ok_bind, hget]
  rw [if_pos ⟨hid, hside⟩]

/-- Changing the quotes of one ticker. -/
theorem update_find (t oid : ℕ) (q : Quotes) (t' : ℕ) :
    (Function.update Q t' q t).find oid = if t = t' then q.find oid else (Q t).find oid := by
  by_cases ht : t = t'
  · subst ht
    rw [Function.update_self, if_pos rfl]
  · rw [Function.update_of_ne ht, if_neg ht]

/-! ## One update -/

theorem add_spec (h : Synthesized s Q n adds) (hwf : (Q u.ticker_id_).WF) (hu : u.type_ = .ADD)
    (hpub : (Q u.ticker_id_).Published u) (hadds : adds + 1 < ME_MAX_ORDER_IDS) :
    ∃ s', s.applyUpdate u = .ok s' ∧
      Synthesized s' (Function.update Q u.ticker_id_ ((Q u.ticker_id_).apply u)) n (adds + 1) := by
  have hadm := hpub.1
  simp only [Quotes.Admits, hu] at hadm
  obtain ⟨-, hoid, hfresh, -⟩ := hadm
  have hnone : (Q u.ticker_id_).find u.order_id_ = none := by
    cases hfind : (Q u.ticker_id_).find u.order_id_ with
    | none => rfl
    | some x =>
      obtain ⟨hx, hid⟩ := (Quotes.find_eq_some_iff hwf).mp hfind
      exact absurd hid (hfresh x hx)
  have hentry := h.entries u.ticker_id_ u.order_id_
  rw [hnone, Option.map_none, Option.map_eq_none_iff] at hentry
  have hcard := h.card
  rcases MemPool.allocate_spec h.pool_wf u with ⟨p, pool, hrun, halloc⟩ | ⟨-, hfull⟩
  · have hold : ∀ t oid q, s.ticker_orders_ t oid = some q → q ≠ p := by
      rintro t oid q hq rfl
      exact halloc.fresh (h.used t oid q hq)
    refine ⟨{ s with order_pool_ := pool }.setEntry u (some p), ?_, h.last, halloc.wf,
      halloc.size.trans h.pool_size, ?_, fun t oid => ?_, fun t oid q hq => ?_,
      fun t oid t' oid' q hq hq' => ?_⟩
    · unfold applyUpdate findOrder
      simp only [hu, if_pos hoid, hentry, ok_bind, hrun]
    · show pool.used.card ≤ adds + 1
      rw [halloc.used, Finset.card_insert_of_notMem halloc.fresh]
      exact Nat.succ_le_succ hcard
    · rw [ticker_orders_setEntry, update_find]
      show Option.map pool.get _ = _
      by_cases ht : t = u.ticker_id_
      · subst ht
        rw [if_pos rfl, Quotes.find_apply_add hwf hu hpub]
        by_cases ho : oid = u.order_id_
        · -- the new order is stored as the update itself
          have hself : addOf u.ticker_id_ (Quotes.added u) = u := by
            cases u
            simp_all [addOf, Quotes.added]
          rw [if_pos ⟨rfl, ho⟩, if_pos ho, Option.map_some, Option.map_some, hself, halloc.get,
            if_pos rfl]
        · rw [if_neg (fun hboth => ho hboth.2), if_neg ho, ← h.entries]
          apply Option.map_congr
          intro q hq
          rw [halloc.get, if_neg (hold _ _ q hq)]
      · rw [if_neg (fun hboth => ht hboth.1), if_neg ht, ← h.entries]
        apply Option.map_congr
        intro q hq
        rw [halloc.get, if_neg (hold _ _ q hq)]
    · rw [ticker_orders_setEntry] at hq
      show q ∈ pool.used
      rw [halloc.used, Finset.mem_insert]
      split at hq
      · exact .inl (Option.some.inj hq).symm
      · exact .inr (h.used t oid q hq)
    · rw [ticker_orders_setEntry] at hq hq'
      split at hq <;> split at hq'
      · next h1 h2 => exact ⟨h1.1.trans h2.1.symm, h1.2.trans h2.2.symm⟩
      · exact absurd (Option.some.inj hq).symm (hold _ _ q hq')
      · exact absurd (Option.some.inj hq').symm (hold _ _ q hq)
      · exact h.inj t oid t' oid' q hq hq'
  · rw [h.pool_size] at hfull
    omega

theorem modify_spec (h : Synthesized s Q n adds) (hwf : (Q u.ticker_id_).WF)
    (hu : u.type_ = .MODIFY) (hpub : (Q u.ticker_id_).Published u) :
    ∃ s', s.applyUpdate u = .ok s' ∧
      Synthesized s' (Function.update Q u.ticker_id_ ((Q u.ticker_id_).apply u)) n adds := by
  obtain ⟨hadm, hord⟩ := hpub
  simp only [Quotes.Admits, hu] at hadm
  simp only [Quotes.Orderly, hu] at hord
  obtain ⟨p, x, hexpect, hp, hfind, hget, hprice⟩ := h.expectOrder hwf hadm hord
  have hxid := ((Quotes.find_eq_some_iff hwf).mp hfind).2
  set f : MEMarketUpdate → MEMarketUpdate := fun o => { o with qty_ := u.qty_, price_ := u.price_ }
    with hf
  refine ⟨{ s with order_pool_ := s.order_pool_.modify p f }, ?_, h.last, h.pool_wf.modify p f,
    h.pool_size, ?_, fun t oid => ?_, fun t oid q hq => ?_, h.inj⟩
  · unfold applyUpdate
    simp only [hu, hexpect, ok_bind, hf]
  · show (s.order_pool_.modify p f).used.card ≤ adds
    rw [MemPool.used_modify]
    exact h.card
  · show (s.ticker_orders_ t oid).map (s.order_pool_.modify p f).get = _
    -- only the entry of the update points to the block that changes
    have hother : ¬ (t = u.ticker_id_ ∧ oid = u.order_id_) →
        (s.ticker_orders_ t oid).map (s.order_pool_.modify p f).get =
          ((Q t).find oid).map (addOf t) := by
      intro hne
      rw [← h.entries]
      apply Option.map_congr
      intro q hq
      rw [MemPool.get_modify, if_neg]
      rintro rfl
      exact hne (h.inj _ _ _ _ _ hq hp)
    rw [update_find]
    by_cases ht : t = u.ticker_id_
    · subst ht
      rw [if_pos rfl, Quotes.find_apply_modify hu]
      by_cases ho : oid = u.order_id_
      · subst ho
        rw [hp, hfind, Option.map_some, Option.map_some, Option.map_some, MemPool.get_modify,
          if_pos rfl, if_pos hxid, hget, hf]
        simp only [addOf, hprice]
      · rw [hother fun hboth => ho hboth.2]
        cases hoid : (Q u.ticker_id_).find oid with
        | none => rfl
        | some y =>
          have hy := ((Quotes.find_eq_some_iff hwf).mp hoid).2
          rw [Option.map_some, Option.map_some, if_neg (fun heq => ho (hy.symm.trans heq))]
          rfl
    · rw [if_neg ht]
      exact hother fun hboth => ht hboth.1
  · show q ∈ (s.order_pool_.modify p f).used
    rw [MemPool.used_modify]
    exact h.used t oid q hq

theorem cancel_spec (h : Synthesized s Q n adds) (hwf : (Q u.ticker_id_).WF)
    (hu : u.type_ = .CANCEL) (hpub : (Q u.ticker_id_).Published u) :
    ∃ s', s.applyUpdate u = .ok s' ∧
      Synthesized s' (Function.update Q u.ticker_id_ ((Q u.ticker_id_).apply u)) n (adds - 1) := by
  have hpub' := hpub
  obtain ⟨hadm, hord⟩ := hpub'
  simp only [Quotes.Admits, hu] at hadm
  simp only [Quotes.Orderly, hu] at hord
  obtain ⟨p, x, hexpect, hp, hfind, hget, hprice⟩ := h.expectOrder hwf hadm hord
  obtain ⟨hrun, hpwf, hused⟩ := MemPool.deallocate_spec h.pool_wf (h.used _ _ p hp)
  -- the other entries hold other blocks
  have hother : ∀ t oid q, ¬ (t = u.ticker_id_ ∧ oid = u.order_id_) →
      s.ticker_orders_ t oid = some q → q ≠ p := by
    rintro t oid q hne hq rfl
    exact hne (h.inj _ _ _ _ _ hq hp)
  refine ⟨{ s with order_pool_ := s.order_pool_.setFree p true }.setEntry u none, ?_, h.last, hpwf,
    h.pool_size, ?_, fun t oid => ?_, fun t oid q hq => ?_, fun t oid t' oid' q hq hq' => ?_⟩
  · unfold applyUpdate
    simp only [hu, hexpect, ok_bind, hrun]
  · show (s.order_pool_.setFree p true).used.card ≤ adds - 1
    rw [hused, Finset.card_erase_of_mem (h.used _ _ p hp)]
    exact Nat.sub_le_sub_right h.card 1
  · rw [ticker_orders_setEntry, update_find]
    show Option.map (s.order_pool_.setFree p true).get _ = _
    have hgetEq : (s.order_pool_.setFree p true).get = s.order_pool_.get :=
      funext fun q => MemPool.get_setFree ..
    rw [hgetEq]
    by_cases ht : t = u.ticker_id_
    · subst ht
      rw [if_pos rfl, Quotes.find_apply_cancel hwf hu hpub]
      by_cases ho : oid = u.order_id_
      · rw [if_pos ⟨rfl, ho⟩, if_pos ho]
        rfl
      · rw [if_neg (fun hboth => ho hboth.2), if_neg ho]
        exact h.entries _ _
    · rw [if_neg (fun hboth => ht hboth.1), if_neg ht]
      exact h.entries _ _
  · rw [ticker_orders_setEntry] at hq
    split at hq
    · cases hq
    · next hne =>
      show q ∈ (s.order_pool_.setFree p true).used
      rw [hused, Finset.mem_erase]
      exact ⟨hother t oid q hne hq, h.used t oid q hq⟩
  · rw [ticker_orders_setEntry] at hq hq'
    split at hq
    · cases hq
    · split at hq'
      · cases hq'
      · exact h.inj t oid t' oid' q hq hq'

/-- How many are held after an update, `k` before it: orders of a book, or blocks of a pool. -/
def heldAfter (u : MEMarketUpdate) (k : ℕ) : ℕ :=
  match u.type_ with
  | .ADD => k + 1
  | .CANCEL => k - 1
  | .MODIFY | .CLEAR | .TRADE | .INVALID | .SNAPSHOT_START | .SNAPSHOT_END => k

theorem heldAfter_le (u : MEMarketUpdate) (k : ℕ) :
    heldAfter u k ≤ k + if u.type_ = .ADD then 1 else 0 := by
  unfold heldAfter
  cases u.type_ <;> simp

/-- **One numbered update**: no ASSERT fires and the entries follow the quotes. -/
theorem addToSnapshot_spec (h : Synthesized s Q n adds) (hwf : (Q u.ticker_id_).WF)
    (hpub : (Q u.ticker_id_).Published u) (hticker : u.ticker_id_ < ME_MAX_TICKERS)
    (hadds : u.type_ = .ADD → adds + 1 < ME_MAX_ORDER_IDS) :
    ∃ s', s.addToSnapshot { seq_num_ := n + 1, me_market_update_ := u } = .ok s' ∧
      Synthesized s' (Function.update Q u.ticker_id_ ((Q u.ticker_id_).apply u)) (n + 1)
        (heldAfter u adds) := by
  have hsame : (Q u.ticker_id_).apply u = Q u.ticker_id_ → Synthesized s
      (Function.update Q u.ticker_id_ ((Q u.ticker_id_).apply u)) n adds := by
    intro heq
    rw [heq, Function.update_eq_self]
    exact h
  have happly : ∃ s', s.applyUpdate u = .ok s' ∧
      Synthesized s' (Function.update Q u.ticker_id_ ((Q u.ticker_id_).apply u)) n
        (heldAfter u adds) := by
    unfold heldAfter
    cases hu : u.type_ with
    | ADD => exact add_spec h hwf hu hpub (hadds hu)
    | MODIFY => exact modify_spec h hwf hu hpub
    | CANCEL => exact cancel_spec h hwf hu hpub
    | CLEAR =>
      -- the exchange clears no book that holds orders
      have hempty : Q u.ticker_id_ = .empty := by
        have hadm := hpub.1
        simpa only [Quotes.Admits, hu] using hadm
      refine ⟨s, by simp only [applyUpdate, hu], hsame ?_⟩
      simp only [Quotes.apply, hu, hempty]
    | TRADE | INVALID | SNAPSHOT_START | SNAPSHOT_END =>
      exact ⟨s, by simp only [applyUpdate, hu], hsame (by simp only [Quotes.apply, hu])⟩
  obtain ⟨s', hrun, h'⟩ := happly
  refine ⟨{ s' with last_inc_seq_num_ := n + 1 }, ?_, rfl, h'.pool_wf, h'.pool_size, h'.card,
    h'.entries, h'.used, h'.inj⟩
  unfold addToSnapshot
  simp only [if_pos hticker, hrun, ok_bind, h'.last, if_true]

end SnapshotSynthesizer

/-! ## A run of the synthesizer -/

/-- The updates for the book of a ticker. -/
def updatesOf (ticker_id : ℕ) (us : List MEMarketUpdate) : List MEMarketUpdate :=
  us.filter fun u => decide (u.ticker_id_ = ticker_id)

theorem marketUpdates_eventsOf (t : ℕ) (events : List MEEvent) :
    marketUpdates (eventsOf t events) = updatesOf t (marketUpdates events) := by
  induction events with
  | nil => rfl
  | cons event events ih =>
    unfold eventsOf updatesOf marketUpdates at ih ⊢
    cases event with
    | response r =>
      show _ = (events.filterMap MEEvent.update?).filter _
      rw [← ih, List.filter_cons]
      split <;> rfl
    | update u =>
      show _ = (u :: events.filterMap MEEvent.update?).filter _
      rw [List.filter_cons, List.filter_cons, ← ih]
      show List.filterMap MEEvent.update? (if decide (u.ticker_id_ = t) = true then _ else _) = _
      split <;> rfl

namespace SnapshotSynthesizer

variable {s : SnapshotSynthesizer} {Q : ℕ → Quotes}

/-- The quotes of every ticker after one update more. -/
theorem applyAll_updatesOf_cons (u : MEMarketUpdate) (us : List MEMarketUpdate) (t : ℕ) :
    (Function.update Q u.ticker_id_ ((Q u.ticker_id_).apply u) t).applyAll (updatesOf t us) =
      (Q t).applyAll (updatesOf t (u :: us)) := by
  unfold updatesOf
  by_cases ht : t = u.ticker_id_
  · subst ht
    rw [Function.update_self, List.filter_cons_of_pos (by simp)]
    rfl
  · rw [Function.update_of_ne ht, List.filter_cons_of_neg (by simpa using Ne.symm ht)]

/-- **A run of the synthesizer follows the published updates**; induction on the updates. -/
theorem run_spec {us : List MEMarketUpdate} :
    ∀ {s : SnapshotSynthesizer} {Q : ℕ → Quotes} {n adds : ℕ}, Synthesized s Q n adds →
      (∀ t, (Q t).WF) → (∀ u ∈ us, u.ticker_id_ < ME_MAX_TICKERS) →
      (∀ t, (Q t).Along Quotes.Published (updatesOf t us)) →
      adds + us.countP (fun u => decide (u.type_ = .ADD)) < ME_MAX_ORDER_IDS →
      ∃ s', s.run (numbered (n + 1) us) = .ok s' ∧
        Synthesized s' (fun t => (Q t).applyAll (updatesOf t us)) (n + us.length)
          (adds + us.countP fun u => decide (u.type_ = .ADD)) := by
  induction us with
  | nil =>
    intro s Q n adds h _ _ _ _
    exact ⟨s, rfl, h⟩
  | cons u us ih =>
    intro s Q n adds h hwf htickers hpub hadds
    have hself : updatesOf u.ticker_id_ (u :: us) = u :: updatesOf u.ticker_id_ us :=
      List.filter_cons_of_pos (by simp)
    have hpub_u := hpub u.ticker_id_
    rw [hself] at hpub_u
    have hcount : (u :: us).countP (fun u => decide (u.type_ = .ADD)) =
        (if u.type_ = .ADD then 1 else 0) + us.countP fun u => decide (u.type_ = .ADD) := by
      rw [List.countP_cons, Nat.add_comm]
      simp only [decide_eq_true_eq]
    rw [hcount, ← Nat.add_assoc] at hadds
    obtain ⟨s₁, hrun₁, hheld⟩ := addToSnapshot_spec h (hwf _) hpub_u.1
      (htickers u (List.mem_cons_self ..)) fun hadd => by
        rw [if_pos hadd] at hadds
        exact Nat.lt_of_le_of_lt (Nat.le_add_right _ _) hadds
    have h₁ := hheld.mono (heldAfter_le u adds)
    -- only the quotes of the update's ticker changed
    have hwf₁ : ∀ t,
        (Function.update Q u.ticker_id_ ((Q u.ticker_id_).apply u) t).WF := by
      intro t
      by_cases ht : t = u.ticker_id_
      · subst ht
        rw [Function.update_self]
        exact (hwf _).apply hpub_u.1
      · rw [Function.update_of_ne ht]
        exact hwf t
    have hpub₁ : ∀ t, (Function.update Q u.ticker_id_ ((Q u.ticker_id_).apply u) t).Along
        Quotes.Published (updatesOf t us) := by
      intro t
      by_cases ht : t = u.ticker_id_
      · subst ht
        rw [Function.update_self]
        exact hpub_u.2
      · rw [Function.update_of_ne ht]
        have hskip : updatesOf t (u :: us) = updatesOf t us :=
          List.filter_cons_of_neg (by simpa using Ne.symm ht)
        exact hskip ▸ hpub t
    obtain ⟨s', hrun, h'⟩ := ih h₁ hwf₁ (fun u' hu' => htickers u' (List.mem_cons_of_mem _ hu'))
      hpub₁ hadds
    refine ⟨s', ?_, ?_⟩
    · rw [numbered_cons]
      show List.foldlM addToSnapshot s (_ :: _) = _
      rw [List.foldlM_cons, hrun₁]
      exact hrun
    · rw [hcount, ← Nat.add_assoc, List.length_cons, Nat.add_comm us.length, ← Nat.add_assoc]
      have heq : (fun t => (Function.update Q u.ticker_id_ ((Q u.ticker_id_).apply u) t).applyAll
          (updatesOf t us)) = fun t => (Q t).applyAll (updatesOf t (u :: us)) :=
        funext (applyAll_updatesOf_cons u us)
      rw [← heq]
      exact h'

/-! ## A cycle -/

/-- The orders of the quotes by ascending id. -/
def ordersById (Q : Quotes) : List MarketOrderInfo := (List.range ME_MAX_ORDER_IDS).filterMap Q.find

theorem ordersById_sorted {Q : Quotes} (h : Q.WF) :
    (ordersById Q).Pairwise fun x y => x.order_id_ < y.order_id_ := by
  unfold ordersById
  rw [List.pairwise_filterMap]
  refine List.pairwise_lt_range.imp fun {i j} hij x hx y hy => ?_
  rw [((Quotes.find_eq_some_iff h).mp hx).2, ((Quotes.find_eq_some_iff h).mp hy).2]
  exact hij

theorem ordersById_perm {Q : Quotes} (h : Q.WF) : (ordersById Q).Perm Q.orders := by
  have hnd : (ordersById Q).Nodup := (ordersById_sorted h).imp fun {x y} hlt heq => by
    rw [heq] at hlt
    exact Nat.lt_irrefl _ hlt
  apply (List.perm_ext_iff_of_nodup hnd (List.Nodup.of_map _ h.ids_nodup)).mpr
  intro x
  unfold ordersById
  rw [List.mem_filterMap]
  constructor
  · intro hx
    obtain ⟨oid, -, hfind⟩ := hx
    exact ((Quotes.find_eq_some_iff h).mp hfind).1
  · intro hx
    exact ⟨x.order_id_, List.mem_range.mpr (h.ids x hx), (Quotes.find_eq_some_iff h).mpr ⟨hx, rfl⟩⟩

theorem tickerUpdates_eq {n adds : ℕ} (h : Synthesized s Q n adds) (t : ℕ) :
    s.tickerUpdates t =
      { type_ := .CLEAR, ticker_id_ := t } :: (ordersById (Q t)).map (Quotes.addOf t) := by
  unfold tickerUpdates ordersById
  rw [List.map_filterMap]
  apply congrArg
  apply List.filterMap_congr
  intro oid _
  exact h.entries t oid

/-- Concatenating lists of which only one is not empty. -/
theorem flatMap_eq_of_eq_nil {f : ℕ → List MEMarketUpdate} {t : ℕ} {ts : List ℕ} (ht : t ∈ ts)
    (hnd : ts.Nodup) (hf : ∀ t' ∈ ts, t' ≠ t → f t' = []) : ts.flatMap f = f t := by
  induction ts with
  | nil => cases ht
  | cons t' ts ih =>
    obtain ⟨hnot, hnd⟩ := List.nodup_cons.mp hnd
    rw [List.flatMap_cons]
    rcases List.mem_cons.mp ht with rfl | ht
    · have hrest : ts.flatMap f = [] := by
        rw [List.flatMap_eq_nil_iff]
        intro t' ht'
        apply hf t' (List.mem_cons_of_mem _ ht')
        rintro rfl
        exact hnot ht'
      rw [hrest, List.append_nil]
    · have hne : t' ≠ t := by
        rintro rfl
        exact hnot ht
      rw [hf t' (List.mem_cons_self ..) hne, List.nil_append]
      exact ih ht hnd fun t'' ht'' => hf t'' (List.mem_cons_of_mem _ ht'')

theorem publishSnapshot_updates (s : SnapshotSynthesizer) :
    s.publishSnapshot.map MDPMarketUpdate.me_market_update_ =
      { type_ := .SNAPSHOT_START, order_id_ := s.last_inc_seq_num_ } ::
        ((List.range ME_MAX_TICKERS).flatMap s.tickerUpdates ++
          [{ type_ := .SNAPSHOT_END, order_id_ := s.last_inc_seq_num_ }]) :=
  map_me_market_update_numbered ..

/-- A cycle is numbered from zero. -/
theorem publishSnapshot_numbers (s : SnapshotSynthesizer) :
    s.publishSnapshot.map MDPMarketUpdate.seq_num_ = List.range s.publishSnapshot.length := by
  rw [List.range_eq_range']
  exact map_seq_num_numbered ..

/-- Between its `SNAPSHOT_START` and `SNAPSHOT_END` a cycle holds clears and orders only. -/
theorem type_of_mem_cycle {n adds : ℕ} (h : Synthesized s Q n adds) :
    ∀ u ∈ (List.range ME_MAX_TICKERS).flatMap s.tickerUpdates,
      u.type_ = .CLEAR ∨ u.type_ = .ADD := by
  intro u hu
  obtain ⟨t, -, hu⟩ := List.mem_flatMap.mp hu
  rw [tickerUpdates_eq h] at hu
  rcases List.mem_cons.mp hu with rfl | hu
  · exact .inl rfl
  · obtain ⟨x, -, rfl⟩ := List.mem_map.mp hu
    exact .inr rfl

theorem Synthesized.ticker_id {n adds t : ℕ} (h : Synthesized s Q n adds) :
    ∀ u ∈ s.tickerUpdates t, u.ticker_id_ = t := by
  intro u hu
  rw [tickerUpdates_eq h] at hu
  rcases List.mem_cons.mp hu with rfl | hu
  · rfl
  · obtain ⟨x, -, rfl⟩ := List.mem_map.mp hu
    rfl

/-- The messages of a cycle that concern a ticker. -/
theorem updatesOf_publishSnapshot {n adds t : ℕ} (h : Synthesized s Q n adds)
    (ht : t < ME_MAX_TICKERS) :
    updatesOf t (s.publishSnapshot.map MDPMarketUpdate.me_market_update_) = s.tickerUpdates t := by
  have hinvalid : TickerId_INVALID ≠ t := by
    unfold TickerId_INVALID
    unfold ME_MAX_TICKERS at ht
    omega
  have hflat : ((List.range ME_MAX_TICKERS).flatMap s.tickerUpdates).filter
      (fun u => decide (u.ticker_id_ = t)) = s.tickerUpdates t := by
    rw [List.filter_flatMap, flatMap_eq_of_eq_nil (List.mem_range.mpr ht) List.nodup_range]
    · exact List.filter_eq_self.mpr fun u hu => decide_eq_true (h.ticker_id u hu)
    · intro t' _ hne
      apply List.filter_eq_nil_iff.mpr
      intro u hu
      rw [decide_eq_true_eq, h.ticker_id u hu]
      exact hne
  unfold updatesOf
  rw [publishSnapshot_updates, List.filter_cons_of_neg (by simpa using hinvalid),
    List.filter_append, hflat, List.filter_cons_of_neg (by simpa using hinvalid)]
  exact List.append_nil _

/-- **The messages of a cycle about a ticker rebuild its quotes** in a new book. -/
theorem cycle_rebuilds {n adds t : ℕ} (h : Synthesized s Q n adds) (hwf : (Q t).WF)
    (ht : t < ME_MAX_TICKERS) :
    ∃ m sh, (MarketOrderBook.new t).run
        (updatesOf t (s.publishSnapshot.map MDPMarketUpdate.me_market_update_)) = .ok m ∧
      MarketOrderBook.Holds m.book sh (Q t) := by
  obtain ⟨hadm, hreplay⟩ :=
    Quotes.replay_clear t hwf (ordersById_perm hwf) (ordersById_sorted hwf)
  obtain ⟨m, sh, hrun, hholds, -⟩ :=
    MarketOrderBook.run_spec (MarketOrderBook.holds_new t) hadm
  refine ⟨m, sh, ?_, ?_⟩
  · rw [updatesOf_publishSnapshot h ht, tickerUpdates_eq h]
    exact hrun
  · rw [← hreplay]
    exact hholds

end SnapshotSynthesizer

/-! ## The snapshots of a run of the exchange -/

/-- The updates of a run of the engine for one ticker, as the quotes see them. -/
theorem engine_published {base : ℤ} {t : ℕ} {requests : List MEClientRequest} {book : MEOrderBook}
    (hvalid : ValidCalls base (callsOf t requests))
    (hadds : newCount requests < ME_MAX_ORDER_IDS)
    (hrun : (MEOrderBook.new t).run (callsOf t requests) = .ok book) :
    Quotes.empty.Along Quotes.Published
      (marketUpdates (PriorityBook.run t .empty (callsOf t requests)).2) := by
  have hspace : (MEOrderBook.new t).run (callsOf t requests) ≠ .error .outOfSpace := by
    rw [hrun]
    intro h
    cases h
  exact (PriorityBook.run_quotes (PriorityBook.ValidCalls.admitted t hvalid)
    ((length_newKey_callsOf_le t requests).trans_lt hadds) hspace).1

/-- **A published snapshot is the exchange's book**: whatever part of its updates the exchange
has numbered and passed to the synthesizer, no ASSERT fires, and the cycle published then is
numbered from zero, carries the last update's number, and rebuilds the book of every ticker as
the updates themselves do. -/
theorem snapshot_rebuilds_books {base : ℕ → ℤ} {requests : List MEClientRequest}
    (hdis : MatchingEngine.Dispatched requests)
    (hvalid : ∀ t, t < ME_MAX_TICKERS → ValidCalls (base t) (callsOf t requests))
    (hadds : newCount requests < ME_MAX_ORDER_IDS)
    (hspace : MatchingEngine.new.run requests ≠ .error .outOfSpace) :
    ∃ e, MatchingEngine.new.run requests = .ok e ∧
      ∀ k, k ≤ (marketUpdates e.sent).length →
        ∃ syn, SnapshotSynthesizer.new.run (numbered 1 ((marketUpdates e.sent).take k)) = .ok syn ∧
          syn.publishSnapshot.map MDPMarketUpdate.seq_num_ =
            List.range syn.publishSnapshot.length ∧
          (∃ body, syn.publishSnapshot.map MDPMarketUpdate.me_market_update_ =
              { type_ := .SNAPSHOT_START, order_id_ := k } ::
                (body ++ [{ type_ := .SNAPSHOT_END, order_id_ := k }]) ∧
            ∀ u ∈ body, u.type_ = .CLEAR ∨ u.type_ = .ADD) ∧
          ∀ t, t < ME_MAX_TICKERS → ∃ m m',
            (MarketOrderBook.new t).run
              (updatesOf t (syn.publishSnapshot.map MDPMarketUpdate.me_market_update_)) = .ok m ∧
            (MarketOrderBook.new t).run (updatesOf t ((marketUpdates e.sent).take k)) = .ok m' ∧
            ∀ s, s.IsTrading → m.book.levelsView s = m'.book.levelsView s := by
  have hadm : ∀ t, t < ME_MAX_TICKERS → PriorityBook.empty.Admitted t (callsOf t requests) :=
    fun t ht => PriorityBook.ValidCalls.admitted t (hvalid t ht)
  rcases MatchingEngine.run_spec MatchingEngine.refines_new hdis hadm with
    ⟨e, events, hrun, hsent, htickers, hcount, hbooks⟩ | herr
  swap
  · exact absurd herr hspace
  have hsent' : e.sent = events := by
    rw [hsent]
    rfl
  rw [← hsent'] at htickers hcount hbooks
  refine ⟨e, hrun, fun k hk => ?_⟩
  set us := (marketUpdates e.sent).take k with hus
  have hus_tickers : ∀ u ∈ us, u.ticker_id_ < ME_MAX_TICKERS := by
    intro u hu
    obtain ⟨event, hevent, hu'⟩ := List.mem_filterMap.mp (List.mem_of_mem_take hu)
    have hevent_ticker := htickers event hevent
    cases event with
    | response r => cases hu'
    | update u' =>
      obtain rfl := Option.some.inj hu'
      exact hevent_ticker
  -- every ticker's part of the updates is an initial part of what its book published
  have hpub : ∀ t, Quotes.empty.Along Quotes.Published (updatesOf t us) := by
    intro t
    by_cases ht : t < ME_MAX_TICKERS
    · obtain ⟨hbook, hevents⟩ := hbooks t ht
      have hall := engine_published (hvalid t ht) hadds hbook
      rw [← hevents, marketUpdates_eventsOf] at hall
      have hsplit : marketUpdates e.sent = us ++ (marketUpdates e.sent).drop k :=
        (List.take_append_drop k _).symm
      rw [hsplit] at hall
      unfold updatesOf at hall ⊢
      rw [List.filter_append] at hall
      exact (Quotes.along_append.mp hall).1
    · -- no update is of another ticker
      have hnil : updatesOf t us = [] := by
        apply List.filter_eq_nil_iff.mpr
        intro u hu
        rw [decide_eq_true_eq]
        rintro rfl
        exact ht (hus_tickers u hu)
      rw [hnil]
      trivial
  have hus_adds : 0 + us.countP (fun u => decide (u.type_ = .ADD)) < ME_MAX_ORDER_IDS := by
    have hle : us.countP (fun u => decide (u.type_ = .ADD)) ≤ addCount e.sent :=
      (List.take_sublist k _).countP_le
    omega
  obtain ⟨syn, hsyn, hheld⟩ := SnapshotSynthesizer.run_spec SnapshotSynthesizer.synthesized_new
    (fun _ => Quotes.WF.empty) hus_tickers hpub hus_adds
  have hwf : ∀ t, (Quotes.empty.applyAll (updatesOf t us)).WF := fun t =>
    Quotes.WF.empty.applyAll (hpub t)
  have hlast : syn.last_inc_seq_num_ = k := by
    rw [hheld.last, hus, List.length_take, Nat.min_eq_left hk, Nat.zero_add]
  refine ⟨syn, hsyn, syn.publishSnapshot_numbers, ⟨_, ?_, SnapshotSynthesizer.type_of_mem_cycle hheld⟩,
    fun t ht => ?_⟩
  · rw [SnapshotSynthesizer.publishSnapshot_updates, hlast]
  · obtain ⟨m, sh, hm, hholds⟩ := SnapshotSynthesizer.cycle_rebuilds hheld (hwf t) ht
    have hadmits : Quotes.empty.AdmitsAll (updatesOf t us) := (hpub t).imp fun _ _ h => h.1
    obtain ⟨m', sh', hm', hholds', -⟩ :=
      MarketOrderBook.run_spec (MarketOrderBook.holds_new t) hadmits
    exact ⟨m, m', hm, hm', fun s hs => hholds'.levelsView_eq hholds hs⟩

/-- A buy order of ticker 0 that is filled in part. -/
def partialFill : List MEClientRequest :=
  [{ type_ := .NEW, client_id_ := 1, ticker_id_ := 0, order_id_ := 1, side_ := .BUY, price_ := 10,
     qty_ := 5 },
   { type_ := .NEW, client_id_ := 2, ticker_id_ := 0, order_id_ := 1, side_ := .SELL, price_ := 10,
     qty_ := 3 }]

theorem snapshot_rebuilds_books_partialFill :
    ∃ e, MatchingEngine.new.run partialFill = .ok e ∧
      ∀ k, k ≤ (marketUpdates e.sent).length →
        ∃ syn, SnapshotSynthesizer.new.run (numbered 1 ((marketUpdates e.sent).take k)) = .ok syn ∧
          syn.publishSnapshot.map MDPMarketUpdate.seq_num_ =
            List.range syn.publishSnapshot.length ∧
          (∃ body, syn.publishSnapshot.map MDPMarketUpdate.me_market_update_ =
              { type_ := .SNAPSHOT_START, order_id_ := k } ::
                (body ++ [{ type_ := .SNAPSHOT_END, order_id_ := k }]) ∧
            ∀ u ∈ body, u.type_ = .CLEAR ∨ u.type_ = .ADD) ∧
          ∀ t, t < ME_MAX_TICKERS → ∃ m m',
            (MarketOrderBook.new t).run
              (updatesOf t (syn.publishSnapshot.map MDPMarketUpdate.me_market_update_)) = .ok m ∧
            (MarketOrderBook.new t).run (updatesOf t ((marketUpdates e.sent).take k)) = .ok m' ∧
            ∀ s, s.IsTrading → m.book.levelsView s = m'.book.levelsView s := by
  have hvalid : ∀ t, t < ME_MAX_TICKERS → ValidCalls 0 (callsOf t partialFill) := by
    intro t _
    by_cases ht : t = 0
    · subst ht
      exact ⟨by simp [callsOf, partialFill, MEClientRequest.call?, Call.Valid, Side.IsTrading,
        ME_MAX_NUM_CLIENTS, ME_MAX_ORDER_IDS, ME_MAX_PRICE_LEVELS], by decide⟩
    · have hnil : callsOf t partialFill = [] := by
        simp [callsOf, partialFill, Ne.symm ht]
      rw [hnil]
      exact ⟨by simp, List.nodup_nil⟩
  have hspace : MatchingEngine.new.run partialFill ≠ .error .outOfSpace :=
    ne_outOfSpace_of_isOk (by decide +kernel)
  exact snapshot_rebuilds_books (by simp [MatchingEngine.Dispatched, partialFill, MEClientRequest.call?,
    ME_MAX_TICKERS]) hvalid (by decide) hspace

end TradingEcosystem
