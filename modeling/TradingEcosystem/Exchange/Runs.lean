import TradingEcosystem.Exchange.Refinement
import TradingEcosystem.Lib.Runs
import Mathlib.Data.Finset.Prod

/-!
# Runs of the Exchange's Book

What holds after any sequence of calls from an empty book.

- `Admitted` : every call of a sequence is admitted by the book it meets
- `ValidCalls` : a condition on the calls alone that implies it
- `run_spec` : the run refines the run of `PriorityBook`
- `run_of_fits` : the states of a run of any length
- `step_refines_priorityBook` : the refinement, call by call
- `wellFormed_run` : the representation invariant
-/

namespace TradingEcosystem

open LimitBook
open MEOrderBook (Call)

/-! ## Admitted sequences of calls -/

namespace PriorityBook

/-- Every call is admitted by the book it meets. -/
def Admitted (ticker_id : ℕ) : PriorityBook → List Call → Prop
  | _, [] => True
  | P, c :: calls => P.Admits c ∧ Admitted ticker_id (P.step ticker_id c).1 calls

instance (ticker_id : ℕ) : ∀ (P : PriorityBook) (calls : List Call),
    Decidable (P.Admitted ticker_id calls)
  | _, [] => isTrue trivial
  | P, c :: calls =>
    have := instDecidableAdmitted ticker_id (P.step ticker_id c).1 calls
    inferInstanceAs (Decidable (_ ∧ _))

theorem run_append (ticker_id : ℕ) (P : PriorityBook) (calls calls' : List Call) :
    run ticker_id P (calls ++ calls') =
      ((run ticker_id (run ticker_id P calls).1 calls').1,
        (run ticker_id P calls).2 ++ (run ticker_id (run ticker_id P calls).1 calls').2) := by
  induction calls generalizing P with
  | nil => rfl
  | cons c calls ih =>
    simp only [List.cons_append, run, ih, List.append_assoc]

theorem admitted_append {ticker_id : ℕ} {P : PriorityBook} {calls calls' : List Call} :
    Admitted ticker_id P (calls ++ calls') ↔
      Admitted ticker_id P calls ∧ Admitted ticker_id (run ticker_id P calls).1 calls' := by
  induction calls generalizing P with
  | nil => simp [Admitted, run]
  | cons c calls ih =>
    simp only [List.cons_append, Admitted, run, ih, and_assoc]

/-- The invariant holds along an admitted sequence. -/
theorem WF.run {ticker_id : ℕ} {P : PriorityBook} {calls : List Call} (h : P.WF)
    (hadm : Admitted ticker_id P calls) : (PriorityBook.run ticker_id P calls).1.WF := by
  induction calls generalizing P with
  | nil => exact h
  | cons c calls ih => exact ih (h.step hadm.1) hadm.2

/-- What every call publishes, a run publishes; induction on the calls. -/
theorem forall_run {ticker_id : ℕ} {I : PriorityBook → Prop} {G : Call → Prop} {p : MEEvent → Prop}
    (hstep : ∀ P c, I P → P.WF → P.Admits c → G c →
      I (P.step ticker_id c).1 ∧ ∀ event ∈ (P.step ticker_id c).2, p event) {calls : List Call} :
    ∀ {P : PriorityBook}, I P → P.WF → Admitted ticker_id P calls → (∀ c ∈ calls, G c) →
      ∀ event ∈ (PriorityBook.run ticker_id P calls).2, p event := by
  induction calls with
  | nil =>
    intro P _ _ _ _ event hevent
    cases hevent
  | cons c calls ih =>
    intro P hI hwf hadm hG
    obtain ⟨hc, hrest⟩ := List.forall_mem_cons.mp hG
    obtain ⟨hI', hevents⟩ := hstep P c hI hwf hadm.1 hc
    exact List.forall_mem_append.mpr ⟨hevents, ih hI' (hwf.step hadm.1) hadm.2 hrest⟩

/-- Every call meets `Q` in the book it comes to. -/
def Along (Q : PriorityBook → Call → Prop) (ticker_id : ℕ) : PriorityBook → List Call → Prop
  | _, [] => True
  | P, c :: calls => Q P c ∧ Along Q ticker_id (P.step ticker_id c).1 calls

instance (Q : PriorityBook → Call → Prop) [∀ P c, Decidable (Q P c)] (ticker_id : ℕ) :
    ∀ (P : PriorityBook) (calls : List Call), Decidable (Along Q ticker_id P calls)
  | _, [] => isTrue trivial
  | P, c :: calls =>
    have := instDecidableAlong Q ticker_id (P.step ticker_id c).1 calls
    inferInstanceAs (Decidable (_ ∧ _))

theorem along_append {Q : PriorityBook → Call → Prop} {ticker_id : ℕ} {P : PriorityBook}
    {calls calls' : List Call} :
    Along Q ticker_id P (calls ++ calls') ↔
      Along Q ticker_id P calls ∧ Along Q ticker_id (run ticker_id P calls).1 calls' := by
  induction calls generalizing P with
  | nil => simp [Along, run]
  | cons c calls ih =>
    simp only [List.cons_append, Along, run, ih, and_assoc]

theorem WF.run_of_fits {ticker_id : ℕ} {P : PriorityBook} {calls : List Call} (h : P.WF)
    (hfits : Along Fits ticker_id P calls) : (PriorityBook.run ticker_id P calls).1.WF := by
  induction calls generalizing P with
  | nil => exact h
  | cons c calls ih => exact ih (h.step_of_fits hfits.1) hfits.2

end PriorityBook

/-! ## Valid calls -/

namespace MEOrderBook.Call

/-- The client order id a call introduces. -/
def newKey : Call → Option (ℕ × ℕ)
  | .add client_id client_order_id _ _ _ => some (client_id, client_order_id)
  | .cancel _ _ => none

/-- What a call must be by itself: a real side, ids within the arrays, a price of the window of
`ME_MAX_PRICE_LEVELS` prices from `base` on, a `uint32_t` quantity. -/
def Valid (base : ℤ) : Call → Prop
  | .add client_id client_order_id s price qty =>
    s.IsTrading ∧ client_id < ME_MAX_NUM_CLIENTS ∧ client_order_id < ME_MAX_ORDER_IDS ∧
      (base ≤ price ∧ price < base + ME_MAX_PRICE_LEVELS) ∧ qty < 2 ^ 32
  | .cancel _ order_id => order_id < ME_MAX_ORDER_IDS

instance (base : ℤ) : DecidablePred (Valid base)
  | .add .. => inferInstanceAs (Decidable (_ ∧ _))
  | .cancel .. => inferInstanceAs (Decidable (_ < _))

end MEOrderBook.Call

/-- Each call is valid and no client uses an order id twice. -/
structure ValidCalls (base : ℤ) (calls : List Call) : Prop where
  valid : ∀ c ∈ calls, c.Valid base
  keys_nodup : (calls.filterMap Call.newKey).Nodup

namespace PriorityBook

/-- What valid calls `calls` have made of the book. -/
structure Tracks (base : ℤ) (calls : List Call) (P : PriorityBook) : Prop where
  next_id : P.next_id = (calls.filterMap Call.newKey).length + 1
  price : ∀ x ∈ P.orders, base ≤ x.price_ ∧ x.price_ < base + ME_MAX_PRICE_LEVELS
  key : ∀ x ∈ P.orders, key x ∈ calls.filterMap Call.newKey

theorem Tracks.step {base : ℤ} {calls : List Call} {P : PriorityBook} {c : Call}
    (h : Tracks base calls P) (hc : c.Valid base) (ticker_id : ℕ) :
    Tracks base (calls ++ [c]) (P.step ticker_id c).1 := by
  have hsub : ∀ {k : ℕ × ℕ}, k ∈ calls.filterMap Call.newKey →
      k ∈ (calls ++ [c]).filterMap Call.newKey := fun hk => by
    rw [List.filterMap_append]
    exact List.mem_append_left _ hk
  cases c with
  | add client_id client_order_id s price qty =>
    obtain ⟨hs, -, -, hprice, -⟩ := hc
    refine ⟨?_, ?_, ?_⟩
    · rw [PriorityBook.step, (P.side_add ticker_id client_id client_order_id price qty hs).2.1,
        h.next_id, List.filterMap_append, List.length_append]
      rfl
    · exact forall_add (p := fun x => base ≤ x.price_ ∧ x.price_ < base + ME_MAX_PRICE_LEVELS)
        (fun _ => Iff.rfl) hs h.price hprice
    · refine forall_add (p := fun x => PriorityBook.key x ∈ List.filterMap Call.newKey _)
        (fun _ => Iff.rfl) hs (fun x hx => hsub (h.key x hx)) ?_
      simp [List.filterMap_append, Call.newKey, PriorityBook.key, taker]
  | cancel client_id order_id =>
    have hlen : ((calls ++ [Call.cancel client_id order_id]).filterMap Call.newKey) =
        calls.filterMap Call.newKey := by
      simp [List.filterMap_append, Call.newKey]
    simp only [PriorityBook.step, cancel]
    split
    · exact ⟨by rw [hlen]; exact h.next_id, h.price, fun x hx => hsub (h.key x hx)⟩
    · have hmem : ∀ {k : ℕ × ℕ} {x : MEOrderInfo}, x ∈ (P.erase k).orders → x ∈ P.orders := by
        intro k x hx
        rcases List.mem_append.mp hx with hx | hx
        · exact List.mem_append_left _ (List.mem_filter.mp hx).1
        · exact List.mem_append_right _ (List.mem_filter.mp hx).1
      exact ⟨by rw [hlen]; exact h.next_id, fun x hx => h.price x (hmem hx),
        fun x hx => hsub (h.key x (hmem hx))⟩

/-- Distinct pairs from a grid of `m` by `n`. -/
theorem length_le_mul {m n : ℕ} {ks : List (ℕ × ℕ)} (hnd : ks.Nodup)
    (hks : ∀ k ∈ ks, k.1 < m ∧ k.2 < n) : ks.length ≤ m * n := by
  have hsub : ks.toFinset ⊆ Finset.range m ×ˢ Finset.range n := by
    intro k hk
    obtain ⟨h1, h2⟩ := hks k (List.mem_toFinset.mp hk)
    exact Finset.mk_mem_product (Finset.mem_range.mpr h1) (Finset.mem_range.mpr h2)
  have hcard := Finset.card_le_card hsub
  rwa [List.toFinset_card_of_nodup hnd, Finset.card_product, Finset.card_range,
    Finset.card_range] at hcard

/-- There are fewer ids than fit a `uint32_t`. -/
theorem length_newKey_lt {base : ℤ} {calls : List Call} (h : ValidCalls base calls) :
    (calls.filterMap Call.newKey).length < 2 ^ 32 - 1 := by
  have hmem : ∀ k ∈ calls.filterMap Call.newKey,
      k.1 < ME_MAX_NUM_CLIENTS ∧ k.2 < ME_MAX_ORDER_IDS := by
    intro k hk
    rw [List.mem_filterMap] at hk
    obtain ⟨c, hc, hkey⟩ := hk
    have hvalid := h.valid c hc
    cases c with
    | add client_id client_order_id s price qty =>
      rw [← Option.some.inj hkey]
      exact ⟨hvalid.2.1, hvalid.2.2.1⟩
    | cancel client_id order_id => cases hkey
  have hlen := length_le_mul h.keys_nodup hmem
  simp only [ME_MAX_NUM_CLIENTS, ME_MAX_ORDER_IDS] at hlen
  omega

theorem Tracks.admits {base : ℤ} {calls : List Call} {P : PriorityBook} {c : Call}
    (h : Tracks base calls P) (hvalid : ValidCalls base (calls ++ [c])) : P.Admits c := by
  have hc := hvalid.valid c (by simp)
  cases c with
  | add client_id client_order_id s price qty =>
    obtain ⟨hs, hclient, hoid, hprice, hqty⟩ := hc
    have hkeys := hvalid.keys_nodup
    have hlen := length_newKey_lt hvalid
    simp only [List.filterMap_append, List.filterMap_cons, List.filterMap_nil, Call.newKey]
      at hkeys hlen
    refine ⟨hs, hclient, hoid, hqty, ?_, ?_, ?_⟩
    · rw [h.next_id]
      simp only [List.length_append, List.length_singleton] at hlen
      omega
    · intro x hx heq
      exact (List.nodup_append.mp hkeys).2.2 _ (h.key x hx) _ (by simp) heq
    · intro x hx hidx
      exact priceToIndex_inj (h.price x hx) hprice hidx
  | cancel client_id order_id => exact fun _ => hc

/-- **Valid calls are admitted.** -/
theorem ValidCalls.admitted {base : ℤ} {calls : List Call} (ticker_id : ℕ)
    (h : ValidCalls base calls) : Admitted ticker_id empty calls := by
  have hgen : ∀ (calls done : List Call) (P : PriorityBook), ValidCalls base (done ++ calls) →
      Tracks base done P → Admitted ticker_id P calls := by
    intro calls
    induction calls with
    | nil => intros; trivial
    | cons c calls ih =>
      intro done P hvalid htracks
      have happ : done ++ c :: calls = (done ++ [c]) ++ calls := by simp
      rw [happ] at hvalid
      have hdone : ValidCalls base (done ++ [c]) :=
        ⟨fun c' hc' => hvalid.valid c' (List.mem_append_left _ hc'),
          hvalid.keys_nodup.sublist ((List.sublist_append_left _ _).filterMap _)⟩
      exact ⟨htracks.admits hdone,
        ih (done ++ [c]) _ hvalid (htracks.step (hdone.valid c (by simp)) ticker_id)⟩
  refine hgen calls [] empty h ⟨rfl, ?_, ?_⟩
  · intro x hx
    simp [orders, empty] at hx
  · intro x hx
    simp [orders, empty] at hx

end PriorityBook

/-! ## The run of the book -/

namespace MEOrderBook

/-- **A run refines the run of the list of resting orders**, unless a pool gets down to its last
block; induction on the calls. -/
theorem run_spec {ticker_id : ℕ} {calls : List Call} :
    ∀ {b : MEOrderBook} {sh : Shape} {P : PriorityBook}, Refines b sh P → P.WF →
      b.ticker_id_ = ticker_id → P.Admitted ticker_id calls →
      (∃ b' sh', b.run calls = .ok b' ∧ Refines b' sh' (P.run ticker_id calls).1 ∧
        b'.sent = b.sent ++ (P.run ticker_id calls).2 ∧ b'.ticker_id_ = ticker_id) ∨
      b.run calls = .error .outOfSpace := by
  induction calls with
  | nil =>
    intro b sh P h _ ht _
    exact .inl ⟨b, sh, rfl, h, (List.append_nil _).symm, ht⟩
  | cons c calls ih =>
    intro b sh P h hwf ht hadm
    have hrun : b.run (c :: calls) = b.step c >>= fun b => b.run calls := List.foldlM_cons ..
    rcases step_spec h hwf hadm.1 with ⟨b₁, sh₁, hstep, h₁, hsent₁, ht₁⟩ | herr
    · rw [ht] at h₁ hsent₁ ht₁
      rw [hrun, hstep, ok_bind]
      rcases ih h₁ (hwf.step hadm.1) ht₁ hadm.2 with ⟨b₂, sh₂, hrun₂, h₂, hsent₂, ht₂⟩ | herr
      · refine .inl ⟨b₂, sh₂, hrun₂, h₂, ?_, ht₂⟩
        rw [hsent₂, hsent₁, List.append_assoc]
        rfl
      · exact .inr herr
    · right
      rw [hrun, herr, error_bind]

/-- The run of a new book. -/
theorem run_new {ticker_id : ℕ} {calls : List Call}
    (hadm : PriorityBook.empty.Admitted ticker_id calls)
    (hspace : (MEOrderBook.new ticker_id).run calls ≠ .error .outOfSpace) :
    ∃ b sh, (MEOrderBook.new ticker_id).run calls = .ok b ∧
      Refines b sh (PriorityBook.run ticker_id .empty calls).1 ∧
      b.sent = (PriorityBook.run ticker_id .empty calls).2 ∧ b.ticker_id_ = ticker_id := by
  rcases run_spec (refines_new ticker_id) .empty rfl hadm with ⟨b, sh, hrun, h, hsent, ht⟩ | herr
  · exact ⟨b, sh, hrun, h, by simpa [MEOrderBook.new] using hsent, ht⟩
  · exact absurd herr hspace

/-- The states of a run whose calls fit, with no bound on the number of orders. -/
theorem run_of_fits {ticker_id : ℕ} {calls : List Call} :
    ∀ {b b' : MEOrderBook} {sh : Shape} {P : PriorityBook}, Refines b sh P → P.WF →
      b.ticker_id_ = ticker_id → P.Along PriorityBook.Fits ticker_id calls →
      b.run calls = .ok b' →
      ∃ sh', Refines b' sh' (P.run ticker_id calls).1 ∧ b'.ticker_id_ = ticker_id := by
  induction calls with
  | nil =>
    intro b b' sh P h _ ht _ hrun
    cases hrun
    exact ⟨sh, h, ht⟩
  | cons c calls ih =>
    intro b b' sh P h hwf ht hfits hrun
    obtain ⟨b₁, hstep, hrest⟩ := Lib.Runs.foldlM_cons_eq_ok.mp hrun
    rcases step_spec_of_fits h hwf hfits.1 with ⟨b₂, sh₂, hstep', h₂, -, ht₂⟩ | ⟨herr, -⟩
    · obtain rfl := Except.ok.inj (hstep.symm.trans hstep')
      rw [ht] at h₂ ht₂
      exact ih h₂ (hwf.step_of_fits hfits.1) ht₂ hfits.2 hrest
    · cases hstep.symm.trans herr

/-! ## Price-time priority -/

/-- The lists of resting orders a reader of the book finds. -/
def toPriorityBook (b : MEOrderBook) : PriorityBook :=
  ⟨b.book.orderList .BUY, b.book.orderList .SELL, b.next_market_order_id_⟩

theorem Holds.toPriorityBook_eq {unique : Prop} {b : MEOrderBook} {sh : Shape} {P : PriorityBook}
    (h : Holds unique b sh P) : b.toPriorityBook = P := by
  have hbids : b.book.orderList .BUY = P.bids :=
    (h.rep.orderList_eq (.inl rfl)).trans (h.infos .BUY (.inl rfl))
  have hasks : b.book.orderList .SELL = P.asks :=
    (h.rep.orderList_eq (.inr rfl)).trans (h.infos .SELL (.inr rfl))
  rw [toPriorityBook, hbids, hasks, h.next_id]

theorem Refines.toPriorityBook_eq {b : MEOrderBook} {sh : Shape} {P : PriorityBook}
    (h : Refines b sh P) : b.toPriorityBook = P :=
  (h.holds True).toPriorityBook_eq

/-- The memory of the book is well formed, its orders are open and queue in the order of their
priorities and ids, and the best bid is below the best ask. -/
structure WellFormed (b : MEOrderBook) (sh : Shape) : Prop extends BookRep b.book sh where
  qty : ∀ o ∈ sh.orders, 0 < (b.order o).qty_
  queue_sorted : ∀ l ∈ sh.all, (sh.queue l).Pairwise fun o o' =>
    (b.order o).priority_ < (b.order o').priority_ ∧
      (b.order o).market_order_id_ < (b.order o').market_order_id_
  uncrossed : ∀ l l', b.book.bids_by_price_ = some l → b.book.asks_by_price_ = some l' →
    (b.book.level l).price_ < (b.book.level l').price_

/-- A level that heads a side holds an order of its price. -/
theorem exists_order_of_best {b : LimitBook MEOrderInfo (ℕ × ℕ)} {sh : Shape} (h : BookRep b sh)
    {s : Side} (hs : s.IsTrading) {l : ℕ} (hl : b.best s = some l) :
    ∃ x ∈ infos b sh s, x.price_ = (b.level l).price_ := by
  rw [(h.levels s hs).head] at hl
  have hmem : l ∈ sh.levels s := List.mem_of_mem_head? hl
  have hq := h.queues s hs l hmem
  obtain ⟨o, os, ho⟩ := List.exists_cons_of_ne_nil hq.ne_nil
  have hol : o ∈ sh.queue l := by simp [ho]
  exact ⟨_, List.mem_map.mpr ⟨o, Shape.mem_flat.mpr ⟨l, hmem, hol⟩, rfl⟩, hq.price o hol⟩

theorem Refines.wellFormed {b : MEOrderBook} {sh : Shape} {P : PriorityBook}
    (h : Refines b sh P) (hwf : P.WF) : WellFormed b sh where
  toBookRep := h.rep
  qty := fun o ho => (hwf.qty (b.order o) (h.orders_eq ▸ List.mem_map_of_mem ho)).1
  queue_sorted := fun l hl => by
    obtain ⟨s, hs, hls, hq⟩ := h.rep.queue_rep hl
    have hsorted := hwf.sorted s hs
    rw [← h.infos s hs, LimitBook.infos, List.pairwise_map, Shape.flat, List.flatMap_def] at hsorted
    have hsub : (sh.queue l).Sublist ((sh.levels s).map sh.queue).flatten :=
      List.sublist_flatten_of_mem (List.mem_map_of_mem hls)
    refine (hsorted.sublist hsub).imp_of_mem fun {o o'} ho ho' hoo' => ?_
    rcases hoo' with hb | ⟨-, hlt⟩
    · have hprice : s.better (OrderInfo.price (b.book.order o).info)
          (OrderInfo.price (b.book.order o').info) = true := hb
      rw [hq.price o ho, hq.price o' ho', Side.better_irrefl] at hprice
      cases hprice
    · exact hlt
  uncrossed := fun l l' hl hl' => by
    obtain ⟨x, hx, hxl⟩ := exists_order_of_best (s := .BUY) h.rep (.inl rfl) hl
    obtain ⟨y, hy, hyl⟩ := exists_order_of_best (s := .SELL) h.rep (.inr rfl) hl'
    rw [h.infos _ (.inl rfl)] at hx
    rw [h.infos _ (.inr rfl)] at hy
    rw [← hxl, ← hyl]
    exact hwf.uncrossed x hx y hy

end MEOrderBook

end TradingEcosystem
