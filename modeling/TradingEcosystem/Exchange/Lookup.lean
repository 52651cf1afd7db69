import TradingEcosystem.Exchange.Runs

/-!
# Finding Levels and Orders

The exchange's book finds a price level through `price % ME_MAX_PRICE_LEVELS` and an order
through its client's id for it.  Neither lookup compares what it finds with what it was asked
for, so both laws depend on the calls.

- `ownLevels_run` : which prices the lookup of levels answers for, and that orders queue and
  trade at their own prices, while no add comes to the slot of another resting price
- `cancelable_run` : every resting order is found under its key and can be cancelled, while
  moreover no add reuses the id of a resting order
-/

namespace TradingEcosystem

open LimitBook
open MEOrderBook (Call)
open PriorityBook (key)

/-! ## What the calls must keep -/

namespace PriorityBook

/-- Both conditions of every call; induction on the calls. -/
theorem along_fits {ticker_id : ℕ} {calls : List Call} (hrange : ∀ c ∈ calls, c.InRange) :
    ∀ {P : PriorityBook}, Along KeyFree ticker_id P calls → Along SlotFree ticker_id P calls →
      Along Fits ticker_id P calls := by
  induction calls with
  | nil =>
    intro P _ _
    trivial
  | cons c calls ih =>
    intro P hkey hslot
    obtain ⟨hc, hcalls⟩ := List.forall_mem_cons.mp hrange
    exact ⟨⟨hc, hkey.1, hslot.1⟩, ih hcalls hkey.2 hslot.2⟩

/-- A call brings at most its own key into the book. -/
theorem key_of_step {P : PriorityBook} {ticker_id : ℕ} {c : Call} (hc : c.InRange) :
    ∀ x ∈ (P.step ticker_id c).1.orders, key x ∈ P.orders.map key ∨ some (key x) = c.newKey := by
  apply forall_step (p := fun x => key x ∈ P.orders.map key ∨ some (key x) = c.newKey) _ hc
  · intro x hx
    exact .inl (List.mem_map_of_mem hx)
  · intro _ _ _ _ _ hadd
    rw [hadd]
    exact .inr rfl
  · intro x
    exact Iff.rfl

/-- An id that is never used twice is never that of a resting order; induction on the calls, with
the keys of the orders that rest already. -/
theorem along_keyFree {ticker_id : ℕ} {calls : List Call} (hrange : ∀ c ∈ calls, c.InRange)
    (hnodup : (calls.filterMap Call.newKey).Nodup) :
    ∀ {P : PriorityBook}, (∀ x ∈ P.orders, key x ∉ calls.filterMap Call.newKey) →
      Along KeyFree ticker_id P calls := by
  induction calls with
  | nil =>
    intro P _
    trivial
  | cons c calls ih =>
    intro P hfresh
    obtain ⟨hc, hcalls⟩ := List.forall_mem_cons.mp hrange
    have hsub : (calls.filterMap Call.newKey).Sublist ((c :: calls).filterMap Call.newKey) :=
      (List.sublist_cons_self c calls).filterMap _
    refine ⟨?_, ih hcalls (hnodup.sublist hsub) ?_⟩
    · cases c with
      | add client_id client_order_id s price qty =>
        intro x hx heq
        exact hfresh x hx (heq ▸ List.mem_cons_self ..)
      | cancel client_id order_id => trivial
    · intro x hx
      rcases key_of_step hc x hx with hold | hnew
      · obtain ⟨y, hy, heq⟩ := List.mem_map.mp hold
        intro hmem
        exact hfresh y hy (heq ▸ hsub.subset hmem)
      · -- the order of this very call: its key comes up once only
        rw [List.filterMap_cons, ← hnew] at hnodup
        exact (List.nodup_cons.mp hnodup).1

/-- The condition of one call of a sequence. -/
theorem of_along {Q : PriorityBook → Call → Prop} {ticker_id : ℕ} {P : PriorityBook}
    {past calls : List Call} {c : Call} (h : P.Along Q ticker_id calls)
    (hnext : past ++ [c] <+: calls) : Q (run ticker_id P past).1 c := by
  obtain ⟨rest, rfl⟩ := hnext
  rw [List.append_assoc] at h
  exact (along_append.mp h).2.1

end PriorityBook

/-! ## Reading the memory -/

namespace MEOrderBook

/-- The resting orders, as the pointers lead to them. -/
def resting (b : MEOrderBook) : List ℕ :=
  (b.book.levelList .BUY).flatMap b.book.queueList ++
    (b.book.levelList .SELL).flatMap b.book.queueList

section reading

variable {b : MEOrderBook} {sh : Shape} {P : PriorityBook}

theorem Refines.resting_eq (h : Refines b sh P) : b.resting = sh.orders := by
  have hside : ∀ {s : Side}, s.IsTrading →
      (b.book.levelList s).flatMap b.book.queueList = sh.flat s := by
    intro s hs
    rw [h.rep.levelList_eq hs, Shape.flat, List.flatMap_def, List.flatMap_def]
    exact congrArg _ (List.map_congr_left fun l hl => h.rep.queueList_eq hs hl)
  rw [resting, hside (.inl rfl), hside (.inr rfl)]
  rfl

theorem Refines.map_order_resting (h : Refines b sh P) : b.resting.map b.order = P.orders := by
  rw [h.resting_eq]
  exact h.orders_eq

theorem Refines.mem_orders (h : Refines b sh P) {o : ℕ} (ho : o ∈ b.resting) :
    b.order o ∈ P.orders :=
  h.map_order_resting ▸ List.mem_map_of_mem ho

/-- Every state on the way of a run whose calls fit. -/
theorem refines_of_run {ticker_id : ℕ} {past calls : List Call}
    (hfits : PriorityBook.empty.Along PriorityBook.Fits ticker_id calls) (hpast : past <+: calls)
    (hrun : (MEOrderBook.new ticker_id).run past = .ok b) :
    ∃ sh, Refines b sh (PriorityBook.run ticker_id .empty past).1 ∧
      (PriorityBook.run ticker_id .empty past).1.WF ∧ b.ticker_id_ = ticker_id := by
  obtain ⟨rest, rfl⟩ := hpast
  have hpast := (PriorityBook.along_append.mp hfits).1
  obtain ⟨sh, h, ht⟩ := run_of_fits (refines_new ticker_id) .empty rfl hpast hrun
  exact ⟨sh, h, PriorityBook.WF.empty.run_of_fits hpast, ht⟩

end reading

/-! ## Levels -/

/-- A fill that the limits of both parties allow: one of the incoming order within its limit, or
one of a resting order at its own price. -/
def AllowedFill (b : MEOrderBook) (r : MEClientResponse) : Call → Prop
  | .add client_id client_order_id s price _ =>
    (r.client_id_ = client_id ∧ r.client_order_id_ = client_order_id ∧ r.side_ = s ∧
        PriorityBook.crosses s price r.price_ = true) ∨
      ∃ o ∈ b.resting, key (b.order o) = (r.client_id_, r.client_order_id_) ∧
        r.side_ = (b.order o).side_ ∧ r.price_ = (b.order o).price_
  | .cancel _ _ => False

/-- Orders are found, queue and trade at their own prices. -/
structure OwnLevels (b : MEOrderBook) : Prop where
  /-- For which prices the lookup answers with nothing or with the level of that price. -/
  lookup : ∀ p, (∀ l, b.book.getOrdersAtPrice p = some l → (b.book.level l).price_ = p) ↔
    ∀ o ∈ b.resting, priceToIndex (b.order o).price_ = priceToIndex p → (b.order o).price_ = p
  queued : ∀ s, s.IsTrading → ∀ l ∈ b.book.levelList s, ∀ o ∈ b.book.queueList l,
    (b.order o).price_ = (b.book.level l).price_ ∧ (b.order o).side_ = s ∧
      (b.book.level l).side_ = s ∧ b.book.getOrdersAtPrice (b.order o).price_ = some l

section levels

variable {b b' : MEOrderBook} {sh : Shape} {P : PriorityBook}

theorem Refines.ownLevels (h : Refines b sh P) : OwnLevels b where
  lookup := by
    intro p
    rw [h.resting_eq]
    constructor
    · intro hp o ho hidx
      obtain ⟨s, hs, ho⟩ := Shape.mem_orders_iff_flat.mp ho
      obtain ⟨l, hl, hol⟩ := Shape.mem_flat.mp ho
      have hslot := h.rep.level_of_order (Shape.mem_all.mpr ⟨s, hs, hl⟩) hol
      have hsame : b.book.getOrdersAtPrice p = some l := by
        unfold getOrdersAtPrice at hslot ⊢
        rw [← hidx]
        exact hslot
      exact ((h.rep.queues s hs l hl).price o hol).trans (hp l hsame)
    · intro hp l hl
      obtain ⟨hmem, hidx⟩ := (h.rep.slots _ l).mp hl
      obtain ⟨s, hs, hls⟩ := Shape.mem_all.mp hmem
      -- a level that is listed holds an order
      have hq := h.rep.queues s hs l hls
      obtain ⟨o, os, ho⟩ := List.exists_cons_of_ne_nil hq.ne_nil
      have hol : o ∈ sh.queue l := ho ▸ List.mem_cons_self ..
      have hprice : (b.order o).price_ = (b.book.level l).price_ := hq.price o hol
      rw [← hprice] at hidx ⊢
      exact hp o (Shape.mem_orders_iff_flat.mpr ⟨s, hs, Shape.mem_flat.mpr ⟨l, hls, hol⟩⟩) hidx
  queued := by
    intro s hs l hl o ho
    rw [h.rep.levelList_eq hs] at hl
    rw [h.rep.queueList_eq hs hl] at ho
    refine ⟨(h.rep.queues s hs l hl).price o ho, ?_, (h.rep.levels s hs).side l hl, ?_⟩
    · exact h.rep.side_of_mem_flat hs (Shape.mem_flat.mpr ⟨l, hl, ho⟩)
    · exact h.rep.level_of_order (Shape.mem_all.mpr ⟨s, hs, hl⟩) ho

end levels

end MEOrderBook

namespace PriorityBook

/-- The fills of a sweep; induction on the resting orders. -/
theorem fill_of_sweep {ticker_id : ℕ} {t : MEOrderInfo} {makers : List MEOrderInfo} :
    ∀ {leaves : ℕ}, ∀ r ∈ clientResponses (sweep ticker_id t makers leaves).2.2,
      (r.client_id_ = t.client_id_ ∧ r.client_order_id_ = t.client_order_id_ ∧
          r.side_ = t.side_ ∧ crosses t.side_ t.price_ r.price_ = true) ∨
        ∃ x ∈ makers, key x = (r.client_id_, r.client_order_id_) ∧ r.side_ = x.side_ ∧
          r.price_ = x.price_ := by
  induction makers with
  | nil =>
    intro leaves r hr
    cases hr
  | cons maker makers ih =>
    intro leaves r hr
    rw [sweep] at hr
    by_cases hstop : leaves = 0 ∨ crosses t.side_ t.price_ maker.price_ = false
    · rw [if_pos hstop] at hr
      cases hr
    · rw [if_neg hstop] at hr
      have hcross : crosses t.side_ t.price_ maker.price_ = true := by
        simpa using fun h => hstop (.inr h)
      -- one match fills the two parties
      have hfill : ∀ {fill left : ℕ}, r ∈ clientResponses (fillEvents ticker_id t maker fill left) →
          (r.client_id_ = t.client_id_ ∧ r.client_order_id_ = t.client_order_id_ ∧
            r.side_ = t.side_ ∧ crosses t.side_ t.price_ r.price_ = true) ∨
          ∃ x ∈ maker :: makers, key x = (r.client_id_, r.client_order_id_) ∧
            r.side_ = x.side_ ∧ r.price_ = x.price_ := by
        intro fill left hr
        rcases List.mem_cons.mp hr with rfl | hr
        · exact .inl ⟨rfl, rfl, rfl, hcross⟩
        · obtain rfl := List.mem_singleton.mp hr
          exact .inr ⟨maker, List.mem_cons_self .., rfl, rfl, rfl⟩
      simp only at hr
      split at hr
      · rw [clientResponses_append] at hr
        rcases List.mem_append.mp hr with hr | hr
        · exact hfill hr
        · rcases ih r hr with htaker | ⟨x, hx, hmaker⟩
          · exact .inl htaker
          · exact .inr ⟨x, List.mem_cons_of_mem _ hx, hmaker⟩
      · exact hfill hr

/-- The fills an incoming order causes. -/
theorem fill_of_published {P : PriorityBook} {ticker_id client_id client_order_id qty : ℕ}
    {s : Side} {price : ℤ} (hs : s.IsTrading) {r : MEClientResponse}
    (hr : r ∈ clientResponses (P.published ticker_id (.add client_id client_order_id s price qty)))
    (hfilled : r.type_ = .FILLED) :
    (r.client_id_ = client_id ∧ r.client_order_id_ = client_order_id ∧ r.side_ = s ∧
        crosses s price r.price_ = true) ∨
      ∃ x ∈ P.orders, key x = (r.client_id_, r.client_order_id_) ∧ r.side_ = x.side_ ∧
        r.price_ = x.price_ := by
  unfold published at hr
  rw [clientResponses_append] at hr
  rcases List.mem_append.mp hr with hr | hr
  · rcases List.mem_cons.mp hr with rfl | hr
    · cases hfilled
    · rcases fill_of_sweep r hr with htaker | ⟨x, hx, hmaker⟩
      · exact .inl htaker
      · exact .inr ⟨x, mem_orders.mpr ⟨_, hs.opposite, hx⟩, hmaker⟩
  · -- what rests afterwards is no response
    split at hr
    · cases hr
    · cases hr

/-- A cancel is answered by CANCELED or CANCEL_REJECTED. -/
theorem not_fill_of_cancel {P : PriorityBook} {ticker_id client_id order_id : ℕ} :
    ∀ r ∈ clientResponses (P.cancel ticker_id client_id order_id).2, r.type_ ≠ .FILLED := by
  intro r hr hfilled
  rw [cancel] at hr
  split at hr
  · obtain rfl := List.mem_singleton.mp hr
    cases hfilled
  · obtain rfl := List.mem_singleton.mp hr
    cases hfilled

end PriorityBook

namespace MEOrderBook

/-- The fills of a call that fits. -/
theorem Refines.allowedFill {b b' : MEOrderBook} {sh : Shape} {P : PriorityBook} {c : Call}
    (h : Refines b sh P) (hwf : P.WF) (hfits : P.Fits c) (hstep : b.step c = .ok b') :
    ∃ events, b'.sent = b.sent ++ events ∧
      ∀ r ∈ clientResponses events, r.type_ = .FILLED → AllowedFill b r c := by
  rcases step_spec_of_fits h hwf hfits with ⟨b'', sh', hstep', -, hsent, -⟩ | ⟨herr, -⟩
  · obtain rfl := Except.ok.inj (hstep.symm.trans hstep')
    refine ⟨_, hsent, ?_⟩
    intro r hr hfilled
    cases c with
    | add client_id client_order_id s price qty =>
      rcases PriorityBook.fill_of_published hfits.1.1 hr hfilled with htaker | ⟨x, hx, hmaker⟩
      · exact .inl htaker
      · rw [← h.map_order_resting] at hx
        obtain ⟨o, ho, rfl⟩ := List.mem_map.mp hx
        exact .inr ⟨o, ho, hmaker⟩
    | cancel client_id order_id =>
      exact PriorityBook.not_fill_of_cancel r hr hfilled
  · cases hstep.symm.trans herr

/-- **Orders live at their own prices while every add comes to a free slot.**  Even then a level
is found for another price as soon as a resting order shares that price's slot. -/
theorem ownLevels_run {ticker_id : ℕ} {calls : List Call} (hrange : ∀ c ∈ calls, c.InRange)
    (hnodup : (calls.filterMap Call.newKey).Nodup)
    (hslot : PriorityBook.empty.Along PriorityBook.SlotFree ticker_id calls) :
    ∀ past b, past <+: calls → (MEOrderBook.new ticker_id).run past = .ok b →
      OwnLevels b ∧ ∀ c b', past ++ [c] <+: calls → b.step c = .ok b' →
        ∃ events, b'.sent = b.sent ++ events ∧
          ∀ r ∈ clientResponses events, r.type_ = .FILLED → AllowedFill b r c := by
  intro past b hpast hrun
  have hkey : PriorityBook.empty.Along PriorityBook.KeyFree ticker_id calls :=
    PriorityBook.along_keyFree hrange hnodup
      fun x hx => by simp [PriorityBook.orders, PriorityBook.empty] at hx
  have hfits := PriorityBook.along_fits hrange hkey hslot
  obtain ⟨sh, h, hwf, -⟩ := refines_of_run hfits hpast hrun
  refine ⟨h.ownLevels, ?_⟩
  intro c b' hnext hstep
  exact h.allowedFill hwf (PriorityBook.of_along hfits hnext) hstep

/-- Two sell orders at 257 and 258; the second state on the way. -/
theorem ownLevels_run_twoLevels :
    ∃ b, (MEOrderBook.new 0).run [.add 1 1 .SELL 257 5, .add 1 2 .SELL 258 5] = .ok b ∧
      OwnLevels b := by
  have hok : ((MEOrderBook.new 0).run [.add 1 1 .SELL 257 5, .add 1 2 .SELL 258 5]).isOk = true := by
    decide +kernel
  cases hb : (MEOrderBook.new 0).run [.add 1 1 .SELL 257 5, .add 1 2 .SELL 258 5] with
  | error e =>
    rw [hb] at hok
    cases hok
  | ok b =>
    refine ⟨b, rfl, ?_⟩
    apply (ownLevels_run _ _ _ _ b (List.prefix_refl _) hb).1
    · decide
    · decide
    · decide +kernel

/-- A buy order at 1 joins the queue of a resting sell order at 257. -/
theorem not_ownLevels_sharedSlot :
    ¬ ∀ (calls : List Call) (b : MEOrderBook), (∀ c ∈ calls, c.InRange) →
      (calls.filterMap Call.newKey).Nodup → (MEOrderBook.new 0).run calls = .ok b →
      (∀ p l, b.book.getOrdersAtPrice p = some l → (b.book.level l).price_ = p) ∧
      ∀ s, s.IsTrading → ∀ l ∈ b.book.levelList s, ∀ o ∈ b.book.queueList l,
        (b.order o).price_ = (b.book.level l).price_ ∧ (b.order o).side_ = s := by
  intro h
  have hmixed : ((MEOrderBook.new 0).run [.add 1 1 .SELL 257 5, .add 1 2 .BUY 1 5]).toOption.map
      (fun b => (b.book.levelList .SELL).map fun l =>
        (b.book.queueList l).map fun o => (b.order o).side_) = some [[.SELL, .BUY]] := by
    decide +kernel
  cases hb : (MEOrderBook.new 0).run [.add 1 1 .SELL 257 5, .add 1 2 .BUY 1 5] with
  | error e => simp [hb, Except.toOption] at hmixed
  | ok b =>
    have hqueued := (h _ b (by decide) (by decide) hb).2 .SELL (.inr rfl)
    rw [hb, Except.toOption, Option.map_some, Option.some.injEq] at hmixed
    -- the level of the sell side that holds the buy order
    have hmem : [Side.SELL, Side.BUY] ∈ (b.book.levelList .SELL).map fun l =>
        (b.book.queueList l).map fun o => (b.order o).side_ := by
      rw [hmixed]
      exact List.mem_singleton_self _
    obtain ⟨l, hl, hsides⟩ := List.mem_map.mp hmem
    have hbuy : Side.BUY ∈ (b.book.queueList l).map fun o => (b.order o).side_ := by
      rw [hsides]
      decide
    obtain ⟨o, ho, hside⟩ := List.mem_map.mp hbuy
    have hsell := (hqueued l hl o ho).2
    rw [hside] at hsell
    cases hsell

end MEOrderBook

/-! ## Orders -/

namespace PriorityBook

/-- The published updates tell that an order left the book. -/
def Ended (events : List MEEvent) (x : MEOrderInfo) : Prop :=
  ∃ u ∈ marketUpdates events, u.type_ = .CANCEL ∧ u.order_id_ = x.market_order_id_

/-- An order still rests, perhaps with a smaller quantity. -/
def StillRests (xs : List MEOrderInfo) (x : MEOrderInfo) : Prop := ∃ y ∈ xs, noQty y = noQty x

theorem Ended.append_left {events : List MEEvent} {x : MEOrderInfo} (h : Ended events x)
    (before : List MEEvent) : Ended (before ++ events) x := by
  obtain ⟨u, hu, hended⟩ := h
  refine ⟨u, ?_, hended⟩
  rw [marketUpdates_append]
  exact List.mem_append_right _ hu

theorem Ended.append_right {events : List MEEvent} {x : MEOrderInfo} (h : Ended events x)
    (after : List MEEvent) : Ended (events ++ after) x := by
  obtain ⟨u, hu, hended⟩ := h
  refine ⟨u, ?_, hended⟩
  rw [marketUpdates_append]
  exact List.mem_append_left _ hu

/-- A sweep takes out the orders it announces and no others; induction on the resting orders. -/
theorem rests_or_ended_of_sweep {ticker_id : ℕ} {t : MEOrderInfo} {makers : List MEOrderInfo} :
    ∀ {leaves : ℕ}, ∀ x ∈ makers, StillRests (sweep ticker_id t makers leaves).1 x ∨
      Ended (sweep ticker_id t makers leaves).2.2 x := by
  induction makers with
  | nil =>
    intro leaves x hx
    cases hx
  | cons maker makers ih =>
    intro leaves x hx
    rw [sweep]
    by_cases hstop : leaves = 0 ∨ crosses t.side_ t.price_ maker.price_ = false
    · rw [if_pos hstop]
      exact .inl ⟨x, hx, rfl⟩
    · rw [if_neg hstop]
      simp only
      split
      · next hfull =>
        rcases List.mem_cons.mp hx with rfl | hx
        · -- the order is used up: the last event of the match is its CANCEL
          right
          apply Ended.append_right
          unfold fillEvents
          rw [if_pos hfull]
          exact ⟨_, List.mem_cons_of_mem _ (List.mem_singleton_self _), rfl, rfl⟩
        · exact (ih x hx).imp_right fun h => h.append_left _
      · left
        rcases List.mem_cons.mp hx with rfl | hx
        · exact ⟨_, List.mem_cons_self .., rfl⟩
        · exact ⟨x, List.mem_cons_of_mem _ hx, rfl⟩

theorem rests_or_ended_of_add {P : PriorityBook}
    {ticker_id client_id client_order_id qty : ℕ} {s : Side} {price : ℤ} (hs : s.IsTrading) :
    ∀ x ∈ P.orders,
      StillRests (P.add ticker_id client_id client_order_id s price qty).1.orders x ∨
        Ended (P.published ticker_id (.add client_id client_order_id s price qty)) x := by
  obtain ⟨hopp, -, hown⟩ := P.side_add ticker_id client_id client_order_id price qty hs
  set t := P.taker ticker_id client_id client_order_id s price qty
  have hcongr :
      (sweep ticker_id { t with market_order_id_ := t.market_order_id_ % 2 ^ 32 }
        (P.side s.opposite) qty).1 = (sweep ticker_id t (P.side s.opposite) qty).1 :=
    (sweep_congr (by rfl) (by rfl) _ _).1
  intro x hx
  rcases List.mem_append.mp ((orders_perm P hs).mem_iff.mp hx) with hx | hx
  · -- the own side only grows
    refine .inl ⟨x, mem_orders.mpr ⟨s, hs, ?_⟩, rfl⟩
    rw [hown]
    split
    · exact hx
    · exact (List.mem_orderedInsert _).mpr (.inr hx)
  · rcases rests_or_ended_of_sweep x hx with ⟨y, hy, heq⟩ | hended
    · refine .inl ⟨y, mem_orders.mpr ⟨s.opposite, hs.opposite, ?_⟩, heq⟩
      rw [hopp, ← hcongr]
      exact hy
    · exact .inr (Ended.append_right (hended.append_left [acceptedEvent t]) _)

theorem rests_or_ended_of_cancel {P : PriorityBook} (hwf : P.WF)
    {ticker_id client_id order_id : ℕ} :
    ∀ x ∈ P.orders, StillRests (P.cancel ticker_id client_id order_id).1.orders x ∨
      Ended (P.cancel ticker_id client_id order_id).2 x := by
  intro x hx
  rw [cancel]
  split
  · exact .inl ⟨x, hx, rfl⟩
  · next o ho =>
    have hmem : o ∈ P.orders := List.mem_of_find?_eq_some ho
    have hkey : key o = (client_id, order_id) :=
      of_decide_eq_true (List.find?_some (p := fun o => decide (key o = (client_id, order_id))) ho)
    by_cases hxk : key x = (client_id, order_id)
    · -- keys are distinct, so this is the order that was found
      obtain rfl : x = o :=
        List.inj_on_of_nodup_map hwf.keys hx hmem (hxk.trans hkey.symm)
      exact .inr ⟨_, List.mem_cons_self .., rfl, rfl⟩
    · refine .inl ⟨x, ?_, rfl⟩
      have hkeep : decide (key x ≠ (client_id, order_id)) = true := decide_eq_true hxk
      rcases List.mem_append.mp hx with hx | hx
      · exact List.mem_append_left _ (List.mem_filter.mpr ⟨hx, hkeep⟩)
      · exact List.mem_append_right _ (List.mem_filter.mpr ⟨hx, hkeep⟩)

end PriorityBook

namespace MEOrderBook

/-- Each resting order is the one its key finds, and its client can cancel it. -/
structure Cancelable (b : MEOrderBook) : Prop where
  found : ∀ o ∈ b.resting, b.book.key_to_order_ (key (b.order o)) = some o
  keys : (b.resting.map fun o => key (b.order o)).Nodup
  canceled : ∀ o ∈ b.resting, ∃ b' u,
    b.step (.cancel (b.order o).client_id_ (b.order o).client_order_id_) = .ok b' ∧
      b'.resting.map b'.order = (b.resting.erase o).map b.order ∧
      b'.sent = b.sent ++ [.update u, .response
        { type_ := .CANCELED, client_id_ := (b.order o).client_id_, ticker_id_ := b.ticker_id_,
          client_order_id_ := (b.order o).client_order_id_,
          market_order_id_ := (b.order o).market_order_id_, side_ := (b.order o).side_,
          price_ := (b.order o).price_, leaves_qty_ := (b.order o).qty_ }]

/-- Every order of `b` still rests in `b'`, unless the updates published since tell its end. -/
def Keeps (b b' : MEOrderBook) : Prop :=
  ∃ events, b'.sent = b.sent ++ events ∧ ∀ o ∈ b.resting,
    PriorityBook.StillRests (b'.resting.map b'.order) (b.order o) ∨
      PriorityBook.Ended events (b.order o)

section orders

variable {b b' : MEOrderBook} {sh : Shape} {P : PriorityBook}

theorem Refines.found (h : Refines b sh P) {o : ℕ} (ho : o ∈ b.resting) :
    b.book.key_to_order_ (key (b.order o)) = some o :=
  (h.rep.keys _ o).mpr ⟨h.resting_eq ▸ ho, rfl⟩

theorem Refines.keys_nodup (h : Refines b sh P) (hwf : P.WF) :
    (b.resting.map fun o => key (b.order o)).Nodup := by
  have hkeys := hwf.keys
  rw [← h.map_order_resting, List.map_map] at hkeys
  exact hkeys

/-- The orders left when one is taken out by its key. -/
theorem Refines.orders_erase (h : Refines b sh P) (hwf : P.WF) {o : ℕ} (ho : o ∈ b.resting) :
    (P.erase (key (b.order o))).orders = (b.resting.erase o).map b.order := by
  have hkeys := h.keys_nodup hwf
  have hnodup : b.resting.Nodup := List.Nodup.of_map _ hkeys
  rw [PriorityBook.erase_orders, ← h.map_order_resting, List.filter_map,
    hnodup.erase_eq_filter]
  apply congrArg (List.map b.order)
  apply List.filter_congr
  intro o' ho'
  have hiff : key (b.order o') = key (b.order o) ↔ o' = o :=
    ⟨fun heq => List.inj_on_of_nodup_map hkeys ho' ho heq, fun heq => by rw [heq]⟩
  by_cases heq : o' = o
  · simp [heq]
  · simp [heq, mt hiff.mp heq]

theorem Refines.cancelable (h : Refines b sh P) (hwf : P.WF) : Cancelable b where
  found := fun o ho => h.found ho
  keys := h.keys_nodup hwf
  canceled := by
    intro o ho
    have hrange : (Call.cancel (b.order o).client_id_ (b.order o).client_order_id_).InRange := by
      intro _
      have hinRange := h.rep.keys_inRange o (h.resting_eq ▸ ho)
      exact of_decide_eq_true (Bool.and_eq_true_iff.mp hinRange).2
    obtain ⟨b', sh', hrun, h', hsent, -⟩ := cancel_spec h hrange b.ticker_id_
    have hfind : P.find ((b.order o).client_id_, (b.order o).client_order_id_) =
        some (b.order o) := by
      rw [h.find_eq]
      exact congrArg (Option.map b.order) (h.found ho)
    rw [PriorityBook.cancel, hfind] at h' hsent
    refine ⟨b', _, hrun, ?_, hsent⟩
    rw [h'.map_order_resting]
    exact h.orders_erase hwf ho

theorem Refines.keeps {c : Call} (h : Refines b sh P) (hwf : P.WF) (hfits : P.Fits c)
    (hstep : b.step c = .ok b') : Keeps b b' := by
  rcases step_spec_of_fits h hwf hfits with ⟨b'', sh', hstep', h', hsent, -⟩ | ⟨herr, -⟩
  · obtain rfl := Except.ok.inj (hstep.symm.trans hstep')
    refine ⟨_, hsent, ?_⟩
    intro o ho
    rw [h'.map_order_resting]
    cases c with
    | add client_id client_order_id s price qty =>
      exact PriorityBook.rests_or_ended_of_add hfits.1.1 _ (h.mem_orders ho)
    | cancel client_id order_id =>
      exact PriorityBook.rests_or_ended_of_cancel hwf _ (h.mem_orders ho)
  · cases hstep.symm.trans herr

end orders

/-- **Every resting order can be cancelled by its owner, and no call takes it out of reach**, while
no add reuses the id of an order that rests or comes to the slot of another resting price. -/
theorem cancelable_run {ticker_id : ℕ} {calls : List Call} (hrange : ∀ c ∈ calls, c.InRange)
    (hkey : PriorityBook.empty.Along PriorityBook.KeyFree ticker_id calls)
    (hslot : PriorityBook.empty.Along PriorityBook.SlotFree ticker_id calls) :
    ∀ past b, past <+: calls → (MEOrderBook.new ticker_id).run past = .ok b →
      Cancelable b ∧ ∀ c b', past ++ [c] <+: calls → b.step c = .ok b' → Keeps b b' := by
  intro past b hpast hrun
  have hfits := PriorityBook.along_fits hrange hkey hslot
  obtain ⟨sh, h, hwf, -⟩ := refines_of_run hfits hpast hrun
  refine ⟨h.cancelable hwf, ?_⟩
  intro c b' hnext hstep
  exact h.keeps hwf (PriorityBook.of_along hfits hnext) hstep

/-- The id 1 of client 1 is used again after its first order was filled. -/
theorem cancelable_run_reusedId :
    ∃ b, (MEOrderBook.new 0).run
        [.add 1 1 .SELL 10 5, .add 2 1 .BUY 10 5, .add 1 1 .SELL 11 5] = .ok b ∧
      Cancelable b := by
  have hok : ((MEOrderBook.new 0).run
      [.add 1 1 .SELL 10 5, .add 2 1 .BUY 10 5, .add 1 1 .SELL 11 5]).isOk = true := by
    decide +kernel
  cases hb : (MEOrderBook.new 0).run
      [.add 1 1 .SELL 10 5, .add 2 1 .BUY 10 5, .add 1 1 .SELL 11 5] with
  | error e =>
    rw [hb] at hok
    cases hok
  | ok b =>
    refine ⟨b, rfl, ?_⟩
    apply (cancelable_run _ _ _ _ b (List.prefix_refl _) hb).1
    · decide
    · decide +kernel
    · decide +kernel

/-- Client 1 sends the id of its resting order again: both orders rest under one key. -/
theorem not_cancelable_reusedId :
    ¬ ∀ (calls : List Call) (b : MEOrderBook), (∀ c ∈ calls, c.InRange) →
      (MEOrderBook.new 0).run calls = .ok b → Cancelable b := by
  intro h
  have hkeys : ((MEOrderBook.new 0).run [.add 1 7 .BUY 10 5, .add 1 7 .BUY 10 5]).toOption.map
      (fun b => b.resting.map fun o => key (b.order o)) = some [(1, 7), (1, 7)] := by
    decide +kernel
  cases hb : (MEOrderBook.new 0).run [.add 1 7 .BUY 10 5, .add 1 7 .BUY 10 5] with
  | error e => simp [hb, Except.toOption] at hkeys
  | ok b =>
    have hnodup := (h _ b (by decide) hb).keys
    rw [hb, Except.toOption, Option.map_some, Option.some.injEq] at hkeys
    rw [hkeys] at hnodup
    exact absurd hnodup (by decide)

-- A shared slot breaks the law as well: two cancels later a freed order still heads the sell side.
example : ((MEOrderBook.new 0).run
    [.add 1 1 .SELL 257 5, .add 1 2 .BUY 1 5, .cancel 1 1, .cancel 1 2]).toOption.map
      (fun b => b.resting.map fun o => b.book.key_to_order_ (key (b.order o))) = some [none] := by
  decide +kernel

end MEOrderBook

end TradingEcosystem
