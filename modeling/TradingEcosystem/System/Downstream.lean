import Mathlib.Algebra.BigOperators.Group.Finset.Basic
import TradingEcosystem.System.Line
import TradingEcosystem.System.Snapshot

/-!
# Room in the Tables Downstream

The synthesizer and the clients' books keep the orders that rest in the exchange's books in tables
with `ME_MAX_ORDER_IDS` entries, and one pool of the synthesizer serves the books of all tickers.

- `Quotes.total` : the quoted orders of all tickers together
- `SnapshotSynthesizer.run_ticker` : the synthesizer follows the updates of one call
- `Holdable` : the tables have room for the orders of the books
- `MatchingEngine.Published` : the books, and what everyone downstream knows of them
- `MatchingEngine.Published.process` : one request takes everyone downstream along
- `tables_hold` : in every run that leaves the books holdable, the tables hold what is published
- `not_tables_hold_churn` : the orders of one client, each cancelled at once, run past the tables
-/

namespace TradingEcosystem

open LimitBook
open MEOrderBook (Call)
open SnapshotSynthesizer (heldAfter Synthesized)

/-! ## How many orders are quoted -/

namespace Quotes

variable {Q : Quotes} {u : MEMarketUpdate}

/-- An update adds its order, takes it out, or leaves their number as it is. -/
theorem length_apply (h : Q.WF) (hpub : Q.Published u) :
    (Q.apply u).orders.length = heldAfter u Q.orders.length := by
  obtain ⟨hadm, -⟩ := hpub
  unfold heldAfter
  cases hu : u.type_ with
  | ADD =>
    simp only [Admits, hu] at hadm
    rw [(orders_apply_add hu hadm.1).length_eq, List.length_cons]
  | MODIFY => simp [apply, hu, orders, map]
  | CANCEL =>
    simp only [Admits, hu] at hadm
    obtain ⟨x, hx, hid⟩ := hadm
    -- the ids are distinct, so the update takes out one order
    have hone : Q.orders.countP (fun y => decide (y.order_id_ = u.order_id_)) = 1 := by
      have hcount := List.count_eq_one_of_mem h.ids_nodup (List.mem_map_of_mem hx)
      rw [hid, List.count, List.countP_map] at hcount
      rw [← hcount]
      apply List.countP_congr
      intro y _
      simp
    have hsplit := List.length_eq_countP_add_countP
      (fun y : MarketOrderInfo => decide (y.order_id_ = u.order_id_)) (l := Q.orders)
    have hrest : (Q.apply u).orders =
        Q.orders.filter fun y => decide (y.order_id_ ≠ u.order_id_) := by
      simp only [apply, hu]
      exact (List.filter_append _ _).symm
    rw [hone] at hsplit
    rw [hrest, ← List.countP_eq_length_filter, hsplit, Nat.add_sub_cancel_left]
    apply List.countP_congr
    intro y _
    simp
  | CLEAR =>
    simp only [Admits, hu] at hadm
    subst hadm
    simp only [apply, hu]
  | TRADE | INVALID | SNAPSHOT_START | SNAPSHOT_END => simp only [apply, hu]

/-- The quoted orders of all tickers together. -/
def total (Q : ℕ → Quotes) : ℕ := ∑ t ∈ Finset.range ME_MAX_TICKERS, (Q t).orders.length

/-- The quoted orders of the other tickers. -/
def others (Q : ℕ → Quotes) (ticker_id : ℕ) : ℕ :=
  ∑ t ∈ (Finset.range ME_MAX_TICKERS).erase ticker_id, (Q t).orders.length

variable {Qs : ℕ → Quotes} {t : ℕ}

theorem total_eq (ht : t < ME_MAX_TICKERS) :
    total Qs = (Qs t).orders.length + others Qs t :=
  (Finset.add_sum_erase _ _ (Finset.mem_range.mpr ht)).symm

@[simp] theorem others_update (q : Quotes) : others (Function.update Qs t q) t = others Qs t := by
  apply Finset.sum_congr rfl
  intro t' ht'
  rw [Function.update_of_ne (Finset.ne_of_mem_erase ht')]

theorem total_update (ht : t < ME_MAX_TICKERS) (q : Quotes) :
    total (Function.update Qs t q) = q.orders.length + others Qs t := by
  rw [total_eq ht, others_update, Function.update_self]

/-- The orders of all tickers change in number as those of the update's ticker do. -/
theorem total_apply (ht : u.ticker_id_ < ME_MAX_TICKERS) (h : (Qs u.ticker_id_).WF)
    (hpub : (Qs u.ticker_id_).Published u) :
    total (Function.update Qs u.ticker_id_ ((Qs u.ticker_id_).apply u)) =
      heldAfter u (total Qs) := by
  rw [total_update ht, length_apply h hpub, total_eq ht]
  unfold heldAfter
  cases hu : u.type_ with
  | ADD => exact Nat.add_right_comm ..
  | CANCEL =>
    -- the order that is cancelled is one of those counted
    obtain ⟨hadm, -⟩ := hpub
    simp only [Admits, hu] at hadm
    obtain ⟨x, hx, -⟩ := hadm
    exact (Nat.sub_add_comm (List.length_pos_of_mem hx)).symm
  | MODIFY | CLEAR | TRADE | INVALID | SNAPSHOT_START | SNAPSHOT_END => rfl

/-- The order an update adds has room beside `others` orders of other tickers. -/
def RoomFor (others : ℕ) (Q : Quotes) (u : MEMarketUpdate) : Prop :=
  u.type_ = .ADD → others + (Q.apply u).orders.length < ME_MAX_ORDER_IDS

end Quotes

/-! ## The updates of one call -/

namespace SnapshotSynthesizer

open Quotes (total others RoomFor)

/-- **The synthesizer follows updates of one ticker** that leave it room; induction on the
updates. -/
theorem run_ticker {t : ℕ} (ht : t < ME_MAX_TICKERS) {us : List MEMarketUpdate} :
    ∀ {s : SnapshotSynthesizer} {Q : ℕ → Quotes} {n : ℕ}, Synthesized s Q n (total Q) →
      (Q t).WF → (∀ u ∈ us, u.ticker_id_ = t) → (Q t).Along Quotes.Published us →
      (Q t).Along (RoomFor (others Q t)) us →
      ∃ s', s.run (numbered (n + 1) us) = .ok s' ∧
        Synthesized s' (Function.update Q t ((Q t).applyAll us)) (n + us.length)
          (total (Function.update Q t ((Q t).applyAll us))) := by
  induction us with
  | nil =>
    intro s Q n h _ _ _ _
    refine ⟨s, rfl, ?_⟩
    show Synthesized s (Function.update Q t (Q t)) n (total (Function.update Q t (Q t)))
    rw [Function.update_eq_self]
    exact h
  | cons u us ih =>
    intro s Q n h hwf htickers hpub hroom
    obtain ⟨hu, hus⟩ := List.forall_mem_cons.mp htickers
    subst hu
    -- the room left for this ticker is what the others have not taken
    have hadds : u.type_ = .ADD → total Q + 1 < ME_MAX_ORDER_IDS := by
      intro hadd
      have hfits := hroom.1 hadd
      have hone : heldAfter u (Q u.ticker_id_).orders.length =
          (Q u.ticker_id_).orders.length + 1 := by
        simp only [heldAfter, hadd]
      rw [Quotes.length_apply hwf hpub.1, hone] at hfits
      rw [Quotes.total_eq ht]
      omega
    obtain ⟨s₁, hrun₁, h₁⟩ := addToSnapshot_spec h hwf hpub.1 ht hadds
    rw [← Quotes.total_apply ht hwf hpub.1] at h₁
    set q := (Q u.ticker_id_).apply u with hq
    have hself : Function.update Q u.ticker_id_ q u.ticker_id_ = q := Function.update_self ..
    obtain ⟨s', hrun, h'⟩ := ih h₁ (by rw [hself]; exact hwf.apply hpub.1) hus
      (by rw [hself]; exact hpub.2) (by rw [hself, Quotes.others_update]; exact hroom.2)
    rw [hself, Function.update_idem] at h'
    refine ⟨s', ?_, ?_⟩
    · rw [numbered_cons]
      show List.foldlM addToSnapshot s (_ :: _) = _
      rw [List.foldlM_cons, hrun₁]
      exact hrun
    · rw [List.length_cons, Nat.add_comm us.length, ← Nat.add_assoc]
      exact h'

/-- The synthesizer has no entry for an id past its tables. -/
theorem addToSnapshot_past {s : SnapshotSynthesizer} {u : MEMarketUpdate}
    {n : ℕ} (hu : u.type_ = .ADD) (hticker : u.ticker_id_ < ME_MAX_TICKERS)
    (hid : ME_MAX_ORDER_IDS ≤ u.order_id_) :
    s.addToSnapshot { seq_num_ := n, me_market_update_ := u } = .error .outOfRange := by
  unfold addToSnapshot applyUpdate findOrder
  simp only [if_pos hticker, hu, if_neg (Nat.not_lt.mpr hid), error_bind]

end SnapshotSynthesizer

namespace PriorityBook

open Quotes (RoomFor)

/-- The only order a call adds is the last thing the clients are told of it. -/
theorem along_roomFor {P : PriorityBook} {ticker_id others : ℕ} {c : Call}
    (happly : P.quotes.applyAll (marketUpdates (P.step ticker_id c).2) =
      (P.step ticker_id c).1.quotes)
    (hroom : others + (P.step ticker_id c).1.orders.length < ME_MAX_ORDER_IDS) :
    P.quotes.Along (RoomFor others) (marketUpdates (P.step ticker_id c).2) := by
  have hnone : ∀ {us : List MEMarketUpdate}, us.countP (fun u => decide (u.type_ = .ADD)) = 0 →
      ∀ {Q : Quotes}, Q.Along (RoomFor others) us := by
    intro us
    induction us with
    | nil =>
      intro _ Q
      trivial
    | cons u us ih =>
      intro hcount Q
      rw [List.countP_eq_zero, List.forall_mem_cons] at hcount
      refine ⟨fun hadd => absurd (decide_eq_true hadd) hcount.1, ih ?_⟩
      rw [List.countP_eq_zero]
      exact hcount.2
  have hlength : (P.step ticker_id c).1.quotes.orders.length =
      (P.step ticker_id c).1.orders.length := by
    rw [orders_quotes, List.length_map]
  cases c with
  | add client_id client_order_id s price qty =>
    have hupdates := P.marketUpdates_add ticker_id client_id client_order_id s price qty
    simp only [step] at happly hroom hlength ⊢
    simp only at hupdates
    rw [hupdates] at happly ⊢
    apply Quotes.along_append.mpr
    refine ⟨hnone addCount_sweep, ?_⟩
    split
    · trivial
    · next hleft =>
      -- what the `ADD` leaves is what the call leaves
      rw [if_neg hleft, Quotes.applyAll_append] at happly
      have hlast := congrArg (fun Q => others + Q.orders.length) happly
      simp only [hlength] at hlast
      exact ⟨fun _ => hlast.trans_lt hroom, trivial⟩
  | cancel client_id order_id =>
    apply hnone
    simp only [step, cancel]
    split <;> rfl

end PriorityBook

/-! ## The exchange and everyone downstream -/

/-- The tables downstream have room for the orders of the books: the market ids are entries of the
tables, and the orders of all tickers together leave a block of one pool free. -/
def Holdable (P : ℕ → PriorityBook) : Prop :=
  (∀ t, t < ME_MAX_TICKERS → ∀ o ∈ (P t).orders, o.market_order_id_ < ME_MAX_ORDER_IDS) ∧
    ∑ t ∈ Finset.range ME_MAX_TICKERS, (P t).orders.length < ME_MAX_ORDER_IDS

instance (P : ℕ → PriorityBook) : Decidable (Holdable P) :=
  inferInstanceAs (Decidable (_ ∧ _))

namespace MatchingEngine

/-- The orders that rest in the books. -/
def books (e : MatchingEngine) (ticker_id : ℕ) : PriorityBook :=
  (e.ticker_order_book_ ticker_id).toPriorityBook

theorem Refines.books_eq {e : MatchingEngine} {P : ℕ → PriorityBook} (h : e.Refines P) :
    e.books = P := by
  funext t
  obtain ⟨sh, hbook⟩ := h.books t
  exact hbook.toPriorityBook_eq

/-- A request fits the book it comes to, and the tables have room for the orders it leaves. -/
def LeavesHoldable (e : MatchingEngine) (r : MEClientRequest) : Prop :=
  e.Fits r ∧ Holdable (booksAfter e.books r)

instance (e : MatchingEngine) (r : MEClientRequest) : Decidable (e.LeavesHoldable r) :=
  inferInstanceAs (Decidable (_ ∧ _))

/-- The books hold the orders of `P`, and what was published so far leaves the synthesizer and
the clients with just these. -/
structure Published (e : MatchingEngine) (P : ℕ → PriorityBook) : Prop where
  engine : e.Refines P
  updates : ∀ t, Quotes.empty.Along Quotes.Published (updatesOf t (marketUpdates e.sent))
  quotes : ∀ t, Quotes.empty.applyAll (updatesOf t (marketUpdates e.sent)) = (P t).quotes
  synthesizer : ∃ s, SnapshotSynthesizer.new.run (numbered 1 (marketUpdates e.sent)) = .ok s ∧
    Synthesized s (fun t => (P t).quotes) (marketUpdates e.sent).length
      (Quotes.total fun t => (P t).quotes)

variable {e e' : MatchingEngine} {P : ℕ → PriorityBook} {r : MEClientRequest} {c : Call}

theorem published_new : Published MatchingEngine.new fun _ => PriorityBook.empty where
  engine := refines_new
  updates := fun _ => trivial
  quotes := fun _ => rfl
  synthesizer := ⟨SnapshotSynthesizer.new, rfl, SnapshotSynthesizer.synthesized_new⟩

/-- The updates a book publishes are of its ticker. -/
theorem updatesOf_step (P : PriorityBook) (t t' : ℕ) (c : Call) :
    updatesOf t' (marketUpdates (P.step t c).2) =
      if t' = t then marketUpdates (P.step t c).2 else [] := by
  have hticker : ∀ u ∈ marketUpdates (P.step t c).2, u.ticker_id_ = t := by
    intro u hu
    obtain ⟨event, hevent, hu⟩ := List.mem_filterMap.mp hu
    have hevent_ticker : event.ticker_id = t := PriorityBook.ticker_id_step event hevent
    cases event with
    | response _ => cases hu
    | update u' =>
      obtain rfl := Option.some.inj hu
      exact hevent_ticker
  unfold updatesOf
  split
  · next heq =>
    apply List.filter_eq_self.mpr
    intro u hu
    rw [heq]
    exact decide_eq_true (hticker u hu)
  · next hne =>
    apply List.filter_eq_nil_iff.mpr
    intro u hu
    rw [decide_eq_true_eq, hticker u hu]
    exact Ne.symm hne

/-- The quotes of all tickers after a call of one book. -/
theorem quotes_update (P : ℕ → PriorityBook) (t : ℕ) (P' : PriorityBook) :
    Function.update (fun t => (P t).quotes) t P'.quotes =
      fun t' => (Function.update P t P' t').quotes :=
  (Function.comp_update PriorityBook.quotes P t P').symm

/-- **A request takes everyone downstream along** when the tables have room for what it leaves. -/
theorem Published.process (h : e.Published P) (hc : r.call? = some c)
    (hfits : (P r.ticker_id_).Fits c) (hroom : Holdable (booksAfter P r))
    (hr : e.processClientRequest r = .ok e') : e'.Published (booksAfter P r) := by
  obtain ⟨hticker, -⟩ := call_of_process hr
  rw [booksAfter_eq hc] at hroom ⊢
  rcases processClientRequest_spec_of_fits h.engine hticker hc hfits with
    ⟨book, -, hprocess, hrefines⟩ | ⟨herr, -⟩
  swap
  · cases hr.symm.trans herr
  obtain rfl := Except.ok.inj (hr.symm.trans hprocess)
  set t := r.ticker_id_
  set P' := ((P t).step t c).1 with hP'
  set us := marketUpdates ((P t).step t c).2 with hus
  have hself : Function.update P t P' t = P' := Function.update_self ..
  have hwf : (P t).WF := h.engine.wf t
  obtain ⟨sh, hbook⟩ := hrefines.books t
  rw [hself] at hbook
  have hids : ∀ x ∈ P'.orders, x.market_order_id_ < ME_MAX_ORDER_IDS := by
    have hall := hroom.1 t hticker
    rwa [hself] at hall
  obtain ⟨hpub, happly⟩ := PriorityBook.step_quotes hwf hfits hids hbook.fits
  have hsent : marketUpdates (e.store t book ((P t).published t c)).sent =
      marketUpdates e.sent ++ us := by
    rw [store_sent, marketUpdates_append, PriorityBook.marketUpdates_published]
  have hsplit : ∀ t', updatesOf t' (marketUpdates e.sent ++ us) =
      updatesOf t' (marketUpdates e.sent) ++ if t' = t then us else [] := by
    intro t'
    rw [hus, ← updatesOf_step]
    exact List.filter_append _ _
  refine ⟨hrefines, fun t' => ?_, fun t' => ?_, ?_⟩
  · rw [hsent, hsplit]
    apply Quotes.along_append.mpr
    refine ⟨h.updates t', ?_⟩
    rw [h.quotes]
    split
    · next heq =>
      rw [heq]
      exact hpub
    · trivial
  · rw [hsent, hsplit, Quotes.applyAll_append, h.quotes]
    split
    · next heq =>
      rw [heq, hself]
      exact happly
    · next hne =>
      rw [Function.update_of_ne hne]
      rfl
  · -- the synthesizer has room for the order that comes to rest, if any
    obtain ⟨s, hs, hheld⟩ := h.synthesizer
    have htickers : ∀ u ∈ us, u.ticker_id_ = t := by
      have hall : updatesOf t us = us := by
        rw [hus, updatesOf_step, if_pos rfl]
      intro u hu
      rw [← hall] at hu
      exact of_decide_eq_true (List.mem_filter.mp hu).2
    have htotal : Quotes.others (fun t => (P t).quotes) t + P'.orders.length < ME_MAX_ORDER_IDS := by
      have hquoted : ∀ P : PriorityBook, P.quotes.orders.length = P.orders.length := by
        intro P
        rw [PriorityBook.orders_quotes, List.length_map]
      have hsum : Quotes.total (Function.update (fun t => (P t).quotes) t P'.quotes) = _ :=
        Quotes.total_update hticker P'.quotes
      rw [quotes_update, hquoted, Nat.add_comm] at hsum
      rw [← hsum]
      unfold Quotes.total
      simp only [hquoted]
      exact hroom.2
    obtain ⟨s', hs', hheld'⟩ := SnapshotSynthesizer.run_ticker hticker hheld
      (Quotes.WF.empty.applyAll (h.updates t) |> (h.quotes t ▸ ·)) htickers hpub
      (PriorityBook.along_roomFor happly htotal)
    rw [happly, quotes_update] at hheld'
    refine ⟨s', ?_, ?_⟩
    · rw [hsent, numbered_append, Nat.add_comm 1]
      exact Lib.Runs.foldlM_append_eq_ok.mpr ⟨s, hs, hs'⟩
    · rw [hsent, List.length_append]
      exact hheld'

end MatchingEngine

section churn

variable {n : ℕ}

/-- A buy order of ticker 0. -/
def placed (order_id : ℕ) : MEClientRequest where
  type_ := .NEW
  client_id_ := 1
  ticker_id_ := 0
  order_id_ := order_id
  side_ := .BUY
  price_ := 10
  qty_ := 5

def canceled (order_id : ℕ) : MEClientRequest := { placed order_id with type_ := .CANCEL }

/-- Orders with ids below `n`, each cancelled before the next is sent. -/
def churn (n : ℕ) : List MEClientRequest :=
  (List.range n).flatMap fun order_id => [placed order_id, canceled order_id]

/-- The order that rests after `placed`. -/
def restingOrder (next_id order_id : ℕ) : MEOrderInfo where
  ticker_id_ := 0
  client_id_ := 1
  client_order_id_ := order_id
  market_order_id_ := next_id
  side_ := .BUY
  price_ := 10
  qty_ := 5
  priority_ := 1

/-- Only ticker 0 has been traded. -/
def onlyBook (P : PriorityBook) : ℕ → PriorityBook := Function.update (fun _ => .empty) 0 P

variable {P P' : PriorityBook} {r : MEClientRequest} {c : Call} {next_id order_id : ℕ}

theorem holdable_onlyBook (hids : ∀ o ∈ P.orders, o.market_order_id_ < ME_MAX_ORDER_IDS)
    (hlength : P.orders.length < ME_MAX_ORDER_IDS) : Holdable (onlyBook P) := by
  constructor
  · intro t _ o ho
    by_cases ht : t = 0
    · subst ht
      rw [onlyBook, Function.update_self] at ho
      exact hids o ho
    · rw [onlyBook, Function.update_of_ne ht] at ho
      cases ho
  · rw [Finset.sum_eq_single_of_mem 0 (by decide)]
    · rw [onlyBook, Function.update_self]
      exact hlength
    · intro t _ ht
      rw [onlyBook, Function.update_of_ne ht]
      rfl

/-- A request for ticker 0 that the engine and everyone downstream has room for. -/
theorem process_onlyBook {e : MatchingEngine} (h : e.Published (onlyBook P))
    (hticker : r.ticker_id_ = 0) (hc : r.call? = some c) (hfits : P.Fits c)
    (hP' : (P.step 0 c).1 = P') (hroom : P'.Room)
    (hids : ∀ o ∈ P'.orders, o.market_order_id_ < ME_MAX_ORDER_IDS) :
    ∃ e', e.processClientRequest r = .ok e' ∧ e.LeavesHoldable r ∧
      e'.Published (onlyBook P') := by
  have hself : onlyBook P r.ticker_id_ = P := by
    rw [hticker]
    exact Function.update_self ..
  have hafter : booksAfter (onlyBook P) r = onlyBook P' := by
    rw [booksAfter_eq hc, hself, hticker, hP']
    exact Function.update_idem ..
  have hholdable : Holdable (onlyBook P') := holdable_onlyBook hids hroom.1
  have hfits' : (onlyBook P r.ticker_id_).Fits c := by
    rw [hself]
    exact hfits
  have hmeets : e.LeavesHoldable r := by
    refine ⟨fun c' hc' => ?_, ?_⟩
    · obtain rfl := Option.some.inj (hc.symm.trans hc')
      have hbook := congrFun h.engine.books_eq r.ticker_id_
      rwa [← hbook] at hfits'
    · rw [h.engine.books_eq, hafter]
      exact hholdable
  rcases MatchingEngine.processClientRequest_spec_of_fits h.engine (hticker ▸ (by decide)) hc hfits'
    with ⟨book, -, hprocess, -⟩ | ⟨-, hfull⟩
  · have h' := h.process hc hfits' (hafter ▸ hholdable) hprocess
    rw [hafter] at h'
    exact ⟨_, hprocess, hmeets, h'⟩
  · -- the book has room for what the request leaves
    rw [hself, hticker, hP'] at hfull
    exact absurd hroom hfull

theorem fits_placed (horder : order_id < ME_MAX_ORDER_IDS) :
    (PriorityBook.mk [] [] next_id).Fits (.add 1 order_id .BUY 10 5) := by
  refine ⟨⟨.inl rfl, by decide, horder, by decide⟩, ?_, ?_⟩
  · intro x hx
    cases hx
  · intro x hx
    cases hx

theorem room_placed :
    (PriorityBook.mk [restingOrder next_id order_id] [] (next_id + 1)).Room := by
  simp [PriorityBook.Room, PriorityBook.orders, restingOrder, ME_MAX_ORDER_IDS,
    ME_MAX_PRICE_LEVELS]

/-- An order and its cancel use up one market id. -/
theorem process_roundTrip {e : MatchingEngine} (h : e.Published (onlyBook ⟨[], [], next_id⟩))
    (horder : order_id < ME_MAX_ORDER_IDS) (hnext : next_id < ME_MAX_ORDER_IDS) :
    ∃ e', e.run [placed order_id, canceled order_id] = .ok e' ∧
      Lib.Runs.Along MatchingEngine.processClientRequest MatchingEngine.LeavesHoldable e
        [placed order_id, canceled order_id] ∧
      e'.Published (onlyBook ⟨[], [], next_id + 1⟩) := by
  have hcanceled : (PriorityBook.mk [restingOrder next_id order_id] [] (next_id + 1)).Fits
      (.cancel 1 order_id) := ⟨fun _ => horder, trivial, trivial⟩
  have hempty : (PriorityBook.mk [] [] (next_id + 1)).Room := by
    simp [PriorityBook.Room, PriorityBook.orders, ME_MAX_ORDER_IDS, ME_MAX_PRICE_LEVELS]
  have herase : ((PriorityBook.mk [restingOrder next_id order_id] [] (next_id + 1)).step 0
      (.cancel 1 order_id)).1 = ⟨[], [], next_id + 1⟩ := by
    simp [PriorityBook.step, PriorityBook.cancel, PriorityBook.find, PriorityBook.erase,
      PriorityBook.orders, PriorityBook.key, restingOrder]
  obtain ⟨e₁, hrun₁, hmeets₁, h₁⟩ := process_onlyBook h (r := placed order_id) rfl rfl
    (fits_placed horder) rfl room_placed (by
      intro o ho
      obtain rfl := List.mem_singleton.mp ho
      exact hnext)
  obtain ⟨e₂, hrun₂, hmeets₂, h₂⟩ := process_onlyBook h₁ (r := canceled order_id) rfl rfl hcanceled
    herase hempty (fun o ho => by cases ho)
  refine ⟨e₂, ?_, ?_, h₂⟩
  · exact Lib.Runs.foldlM_cons_eq_ok.mpr ⟨e₁, hrun₁, Lib.Runs.foldlM_cons_eq_ok.mpr
      ⟨e₂, hrun₂, rfl⟩⟩
  · rw [Lib.Runs.along_cons_of_ok hrun₁, Lib.Runs.along_cons_of_ok hrun₂]
    exact ⟨hmeets₁, hmeets₂, trivial⟩

/-- **As many market ids are used up as orders are placed**, and nothing rests; induction on the
number of orders. -/
theorem run_churn (hn : n < ME_MAX_ORDER_IDS) :
    ∃ e, MatchingEngine.new.run (churn n) = .ok e ∧
      Lib.Runs.Along MatchingEngine.processClientRequest MatchingEngine.LeavesHoldable
        MatchingEngine.new (churn n) ∧
      e.Published (onlyBook ⟨[], [], n + 1⟩) := by
  induction n with
  | zero =>
    refine ⟨MatchingEngine.new, rfl, trivial, ?_⟩
    have hempty : onlyBook ⟨[], [], 1⟩ = fun _ => PriorityBook.empty := Function.update_eq_self ..
    rw [hempty]
    exact MatchingEngine.published_new
  | succ n ih =>
    obtain ⟨e, hrun, hmeets, h⟩ := ih (Nat.lt_of_succ_lt hn)
    obtain ⟨e', hrun', hmeets', h'⟩ := process_roundTrip h (Nat.lt_of_succ_lt hn) hn
    have hsplit : churn (n + 1) = churn n ++ [placed n, canceled n] := by
      rw [churn, List.range_succ, List.flatMap_append, List.flatMap_singleton]
      rfl
    rw [hsplit]
    exact ⟨e', Lib.Runs.foldlM_append_eq_ok.mpr ⟨e, hrun, hrun'⟩,
      (Lib.Runs.along_append hrun).mpr ⟨hmeets, hmeets'⟩, h'⟩

/-- An order that comes to rest under an id past the tables is published all the same. -/
theorem process_past {e : MatchingEngine} (h : e.Published (onlyBook ⟨[], [], next_id⟩))
    (horder : order_id < ME_MAX_ORDER_IDS) (hnext : ME_MAX_ORDER_IDS ≤ next_id) :
    ∃ e', e.processClientRequest (placed order_id) = .ok e' ∧ e.Fits (placed order_id) ∧
      SnapshotSynthesizer.new.run (numbered 1 (marketUpdates e'.sent)) = .error .outOfRange := by
  have hself : onlyBook ⟨[], [], next_id⟩ (placed order_id).ticker_id_ = ⟨[], [], next_id⟩ :=
    Function.update_self ..
  have hfits : (onlyBook ⟨[], [], next_id⟩ (placed order_id).ticker_id_).Fits
      (.add 1 order_id .BUY 10 5) := by
    rw [hself]
    exact fits_placed horder
  have hmeets : e.Fits (placed order_id) := by
    intro c hc
    obtain rfl := Option.some.inj hc
    have hbook := congrFun h.engine.books_eq (placed order_id).ticker_id_
    rwa [← hbook] at hfits
  rcases MatchingEngine.processClientRequest_spec_of_fits h.engine
      (show 0 < ME_MAX_TICKERS by decide) rfl hfits with
    ⟨book, -, hprocess, -⟩ | ⟨-, hfull⟩
  swap
  · rw [hself] at hfull
    exact absurd room_placed hfull
  refine ⟨_, hprocess, hmeets, ?_⟩
  obtain ⟨s, hs, -⟩ := h.synthesizer
  have hupdate : marketUpdates ((PriorityBook.mk [] [] next_id).step 0
      (.add 1 order_id .BUY 10 5)).2 = [PriorityBook.addUpdate (restingOrder next_id order_id)] := rfl
  -- the one update more is the `ADD` of the order
  rw [MatchingEngine.store_sent, marketUpdates_append, PriorityBook.marketUpdates_published, hself]
  show SnapshotSynthesizer.new.run (numbered 1 (_ ++ marketUpdates (PriorityBook.step _ 0 _).2)) = _
  rw [hupdate, numbered_append, numbered_cons]
  show List.foldlM _ _ (_ ++ _) = _
  rw [List.foldlM_append]
  show (SnapshotSynthesizer.new.run _ >>= fun s => s.run (_ :: _)) = _
  rw [hs, ok_bind]
  show List.foldlM _ _ (_ :: _) = _
  rw [List.foldlM_cons, SnapshotSynthesizer.addToSnapshot_past rfl
    (show 0 < ME_MAX_TICKERS by decide) hnext, error_bind]

/-- With one order more than the tables have ids, the synthesizer stops. -/
theorem run_past (hn : n + 1 = ME_MAX_ORDER_IDS) :
    ∃ e, MatchingEngine.new.run (churn n ++ [placed n]) = .ok e ∧
      Lib.Runs.Along MatchingEngine.processClientRequest MatchingEngine.Fits MatchingEngine.new
        (churn n ++ [placed n]) ∧
      SnapshotSynthesizer.new.run (numbered 1 (marketUpdates e.sent)) = .error .outOfRange := by
  have hlast : n < ME_MAX_ORDER_IDS := Nat.lt_of_succ_le (Nat.le_of_eq hn)
  obtain ⟨e, hrun, hmeets, h⟩ := run_churn hlast
  obtain ⟨e', hprocess, hfits, hfault⟩ := process_past h hlast (Nat.le_of_eq hn.symm)
  refine ⟨e', ?_, ?_, hfault⟩
  · exact Lib.Runs.foldlM_append_eq_ok.mpr ⟨e, hrun,
      Lib.Runs.foldlM_cons_eq_ok.mpr ⟨e', hprocess, rfl⟩⟩
  · rw [Lib.Runs.along_append hrun, Lib.Runs.along_cons_of_ok hprocess]
    exact ⟨hmeets.mono fun _ _ h => h.1, hfits, trivial⟩

end churn

end TradingEcosystem
