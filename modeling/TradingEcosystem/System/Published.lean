import TradingEcosystem.Trading.Quotes

/-!
# Quotes in Good Order

What holds of the quotes after any part of the exchange's updates, also in the middle of a call,
and why the orders alone, replayed in the order of their ids, rebuild them.

- `Quotes.Published` : what each update of the exchange obeys
- `Quotes.WF` : the invariant, kept by every published update
- `replay_ids` : adding the orders in the order of their ids gives the same quotes
-/

namespace TradingEcosystem

open LimitBook Lib.SortedInsert

namespace Quotes

/-- Ids ascend, and an update of an order repeats its side and price. -/
def Orderly (Q : Quotes) (u : MEMarketUpdate) : Prop :=
  match u.type_ with
  | .ADD => ∀ x ∈ Q.orders, x.order_id_ < u.order_id_
  | .MODIFY | .CANCEL =>
    ∀ x ∈ Q.orders, x.order_id_ = u.order_id_ → x.side_ = u.side_ ∧ x.price_ = u.price_
  | .CLEAR | .TRADE | .INVALID | .SNAPSHOT_START | .SNAPSHOT_END => True

def Published (Q : Quotes) (u : MEMarketUpdate) : Prop := Q.Admits u ∧ Q.Orderly u

/-- `x` comes before `y` on side `s`: better price, or same price and smaller id. -/
def QueuedBefore (s : Side) (x y : MarketOrderInfo) : Prop :=
  s.better x.price_ y.price_ = true ∨ x.price_ = y.price_ ∧ x.order_id_ < y.order_id_

structure WF (Q : Quotes) : Prop where
  side : ∀ s, s.IsTrading → ∀ x ∈ Q.side s, x.side_ = s
  sorted : ∀ s, s.IsTrading → (Q.side s).Pairwise (QueuedBefore s)
  ids : ∀ x ∈ Q.orders, x.order_id_ < ME_MAX_ORDER_IDS
  ids_nodup : (Q.orders.map MarketOrderInfo.order_id_).Nodup
  slots : ∀ x ∈ Q.orders, ∀ y ∈ Q.orders, priceToIndex x.price_ = priceToIndex y.price_ →
    x.price_ = y.price_ ∧ x.side_ = y.side_
  fits : Q.Fits

/-! ## The invariant is kept -/

variable {Q Q' : Quotes} {u : MEMarketUpdate} {s : Side}

theorem WF.empty : Quotes.empty.WF where
  side := fun s hs x hx => by rcases hs with rfl | rfl <;> cases hx
  sorted := fun s hs => by rcases hs with rfl | rfl <;> exact List.Pairwise.nil
  ids := fun x hx => by cases hx
  ids_nodup := List.nodup_nil
  slots := fun x hx => by cases hx
  fits := ⟨by decide, by decide⟩

/-- An order without its quantity. -/
def noQty (x : MarketOrderInfo) : MarketOrderInfo := { x with qty_ := 0 }

theorem levelCount_mono {xs ys : List MarketOrderInfo}
    (h : (xs.map noQty).Sublist (ys.map noQty)) : levelCount xs ≤ levelCount ys := by
  have hprices : ∀ zs : List MarketOrderInfo,
      zs.map MarketOrderInfo.price_ = (zs.map noQty).map MarketOrderInfo.price_ := fun zs => by
    rw [List.map_map]
    rfl
  unfold levelCount
  apply Finset.card_le_card
  intro p hp
  rw [List.mem_toFinset, hprices] at hp ⊢
  exact (h.map _).subset hp

/-- Taking orders out and changing quantities keeps the invariant. -/
theorem WF.of_sublist (h : Q.WF)
    (hsub : ∀ s, s.IsTrading → ((Q'.side s).map noQty).Sublist ((Q.side s).map noQty)) :
    Q'.WF := by
  have horders : (Q'.orders.map noQty).Sublist (Q.orders.map noQty) := by
    unfold orders
    rw [List.map_append, List.map_append]
    exact (hsub .BUY (.inl rfl)).append (hsub .SELL (.inr rfl))
  have hfrom : ∀ {xs ys : List MarketOrderInfo}, (xs.map noQty).Sublist (ys.map noQty) →
      ∀ x ∈ xs, ∃ y ∈ ys, noQty y = noQty x := fun hs x hx =>
    List.mem_map.mp (hs.subset (List.mem_map_of_mem hx))
  have hside : ∀ {x y : MarketOrderInfo}, noQty y = noQty x → y.side_ = x.side_ ∧
      y.price_ = x.price_ ∧ y.order_id_ = x.order_id_ := by
    intro x y heq
    simp only [noQty, MarketOrderInfo.mk.injEq] at heq
    exact ⟨heq.2.1, heq.2.2.1, heq.1⟩
  refine ⟨fun s hs x hx => ?side, fun s hs => ?sorted, fun x hx => ?ids, ?nodup,
    fun x hx y hy hidx => ?slots, ?orders, ?levels⟩
  case side =>
    obtain ⟨y, hy, heq⟩ := hfrom (hsub s hs) x hx
    rw [← (hside heq).1]
    exact h.side s hs y hy
  case sorted =>
    have hmap : ((Q.side s).map noQty).Pairwise (QueuedBefore s) :=
      List.pairwise_map.mpr (h.sorted s hs)
    have hmap' : ((Q'.side s).map noQty).Pairwise (QueuedBefore s) := hmap.sublist (hsub s hs)
    rw [List.pairwise_map] at hmap'
    exact hmap'
  case ids =>
    obtain ⟨y, hy, heq⟩ := hfrom horders x hx
    rw [← (hside heq).2.2]
    exact h.ids y hy
  case nodup =>
    have hids : ∀ zs : List MarketOrderInfo,
        zs.map MarketOrderInfo.order_id_ = (zs.map noQty).map MarketOrderInfo.order_id_ :=
      fun zs => by
        rw [List.map_map]
        rfl
    have hnd := h.ids_nodup
    rw [hids] at hnd ⊢
    exact hnd.sublist (horders.map _)
  case slots =>
    obtain ⟨x', hx', hxeq⟩ := hfrom horders x hx
    obtain ⟨y', hy', hyeq⟩ := hfrom horders y hy
    obtain ⟨hxs, hxp, -⟩ := hside hxeq
    obtain ⟨hys, hyp, -⟩ := hside hyeq
    rw [← hxp, ← hyp] at hidx ⊢
    rw [← hxs, ← hys]
    exact h.slots x' hx' y' hy' hidx
  case orders =>
    have hlen := horders.length_le
    rw [List.length_map, List.length_map] at hlen
    exact hlen.trans_lt h.fits.1
  case levels =>
    have hbids : levelCount Q'.bids ≤ levelCount Q.bids := levelCount_mono (hsub .BUY (.inl rfl))
    have hasks : levelCount Q'.asks ≤ levelCount Q.asks := levelCount_mono (hsub .SELL (.inr rfl))
    exact (Nat.add_le_add hbids hasks).trans_lt h.fits.2

/-- Insertion behind the orders of the price keeps the queue order when the id is the largest. -/
theorem pairwise_insert {x : MarketOrderInfo} {xs : List MarketOrderInfo} (hs : s.IsTrading)
    (hsorted : xs.Pairwise (QueuedBefore s)) (hids : ∀ y ∈ xs, y.order_id_ < x.order_id_) :
    (xs.orderedInsert (Precedes s) x).Pairwise (QueuedBefore s) := by
  apply pairwise_orderedInsert hsorted
  · intro y _ hxy
    exact .inl hxy
  · intro y hy hnot
    by_cases hprice : y.price_ = x.price_
    · exact .inr ⟨hprice, hids y hy⟩
    · exact .inl ((Side.better_total hs hprice).resolve_right hnot)
  · intro y _ z _ hxy hyz
    rcases hyz with hyz | ⟨hprice, -⟩
    · exact Side.better_trans hxy hyz
    · show s.better x.price_ z.price_ = true
      rw [← hprice]
      exact hxy

theorem WF.add (h : Q.WF) (hu : u.type_ = .ADD) (hpub : Q.Published u) : (Q.apply u).WF := by
  obtain ⟨hadm, hord⟩ := hpub
  simp only [Admits, hu] at hadm
  simp only [Orderly, hu] at hord
  obtain ⟨hside, hid, hfresh, hslot, hfits⟩ := hadm
  have hsides : ∀ s' : Side, s'.IsTrading → _ := fun s' hs' => Q.side_apply_add hu hside hs'
  have hperm := Q.orders_apply_add hu hside
  have hmem : ∀ x, x ∈ (Q.apply u).orders ↔ x = added u ∨ x ∈ Q.orders := fun x => by
    rw [hperm.mem_iff, List.mem_cons]
  -- an order of the slot is one of the price and the side of the new one
  have hnew : ∀ y ∈ Q.orders, priceToIndex y.price_ = priceToIndex u.price_ →
      y.price_ = u.price_ ∧ y.side_ = u.side_ := by
    intro y hy hidx
    obtain ⟨s', hs', hy⟩ := mem_orders.mp hy
    obtain ⟨hprice, rfl⟩ := hslot s' hs' y hy hidx
    exact ⟨hprice, h.side _ hs' y hy⟩
  refine ⟨fun s' hs' x hx => ?side, fun s' hs' => ?sorted, fun x hx => ?ids, ?nodup,
    fun x hx y hy hidx => ?slots, hfits⟩
  case side =>
    rw [hsides s' hs'] at hx
    split at hx
    · next heq =>
      rcases (List.mem_orderedInsert _).mp hx with rfl | hx
      · exact heq.symm
      · rw [heq]
        exact h.side _ hside x hx
    · exact h.side s' hs' x hx
  case sorted =>
    rw [hsides s' hs']
    split
    · next heq =>
      subst heq
      exact pairwise_insert hside (h.sorted _ hside) fun y hy =>
        hord y (mem_orders.mpr ⟨_, hside, hy⟩)
    · exact h.sorted s' hs'
  case ids =>
    rcases (hmem x).mp hx with rfl | hx
    · exact hid
    · exact h.ids x hx
  case nodup =>
    rw [(hperm.map _).nodup_iff, List.map_cons, List.nodup_cons]
    refine ⟨fun hin => ?_, h.ids_nodup⟩
    obtain ⟨y, hy, heq⟩ := List.mem_map.mp hin
    exact hfresh y hy heq
  case slots =>
    rcases (hmem x).mp hx with rfl | hx <;> rcases (hmem y).mp hy with rfl | hy
    · exact ⟨rfl, rfl⟩
    · obtain ⟨hprice, hsd⟩ := hnew y hy hidx.symm
      exact ⟨hprice.symm, hsd.symm⟩
    · exact hnew x hx hidx
    · exact h.slots x hx y hy hidx

theorem WF.filter (h : Q.WF) (p : MarketOrderInfo → Bool) : (Q.map (List.filter p)).WF :=
  h.of_sublist fun s hs => by
    rw [side_map hs]
    exact List.filter_sublist.map _

/-- **Every published update keeps the invariant.** -/
theorem WF.apply (h : Q.WF) (hpub : Q.Published u) : (Q.apply u).WF := by
  cases hu : u.type_ with
  | ADD => exact h.add hu hpub
  | MODIFY =>
    apply h.of_sublist
    intro s hs
    simp only [Quotes.apply, hu]
    rw [side_map hs, List.map_map]
    have hmap : ∀ xs : List MarketOrderInfo, xs.map (noQty ∘ fun x =>
        if x.order_id_ = u.order_id_ then { x with qty_ := u.qty_ } else x) = xs.map noQty := by
      intro xs
      apply List.map_congr_left
      intro x _
      rw [Function.comp_apply]
      split <;> rfl
    rw [hmap]
  | CANCEL =>
    simp only [Quotes.apply, hu]
    exact h.filter _
  | CLEAR =>
    simp only [Quotes.apply, hu]
    exact WF.empty
  | TRADE | INVALID | SNAPSHOT_START | SNAPSHOT_END => simpa only [Quotes.apply, hu] using h

/-- Every part of the published updates leaves quotes in good order. -/
theorem WF.applyAll {us : List MEMarketUpdate} (h : Q.WF) (hpub : Along Published Q us) :
    (Q.applyAll us).WF :=
  Along.invariant (I := WF) (fun _ _ hQ hp => hQ.apply hp) h hpub

/-! ## Replay in the order of the ids -/

theorem eq_empty_of_orders (h : Q.orders = []) : Q = empty := by
  obtain ⟨hbids, hasks⟩ := List.append_eq_nil_iff.mp h
  cases Q
  simp_all [empty]

/-- The quotes are what adding the order of the largest id to the other orders gives. -/
theorem apply_addOf (h : Q.WF) {x : MarketOrderInfo} (hx : x ∈ Q.orders)
    (hlast : ∀ y ∈ Q.orders, y.order_id_ ≠ x.order_id_ → y.order_id_ < x.order_id_)
    (ticker_id : ℕ) :
    (Q.map (List.filter fun y => decide (y.order_id_ ≠ x.order_id_))).apply (addOf ticker_id x) =
      Q := by
  obtain ⟨s, hs, hxs⟩ := mem_orders.mp hx
  have hside := h.side s hs x hxs
  subst hside
  have hinj : ∀ y ∈ Q.orders, y.order_id_ = x.order_id_ → y = x := fun y hy heq =>
    List.inj_on_of_nodup_map h.ids_nodup hy hx heq
  refine ext_side fun s' hs' => ?_
  rw [side_apply_add rfl hs hs']
  show (if s' = x.side_ then List.orderedInsert (Precedes x.side_) x
    ((Q.map _).side x.side_) else _) = _
  split
  · next heq =>
    subst heq
    rw [side_map hs]
    have hmemf : ∀ y, y ∈ (Q.side x.side_).filter (fun y => decide (y.order_id_ ≠ x.order_id_)) ↔
        y ∈ Q.side x.side_ ∧ y.order_id_ ≠ x.order_id_ := fun y => by
      rw [List.mem_filter, decide_eq_true_eq]
    have hbefore : ∀ y ∈ Q.side x.side_, y ∈ Q.orders := fun y hy => mem_orders.mpr ⟨_, hs, hy⟩
    symm
    -- two sorted lists of the same orders are equal
    apply eq_of_pairwise_of_mem_iff (h.sorted _ hs)
    · apply pairwise_insert hs ((h.sorted _ hs).filter _)
      intro y hy
      obtain ⟨hy, hne⟩ := (hmemf y).mp hy
      exact hlast y (hbefore y hy) hne
    · intro y _ hyy
      rcases hyy with hyy | ⟨-, hlt⟩
      · rw [Side.better_irrefl] at hyy
        cases hyy
      · exact Nat.lt_irrefl _ hlt
    · intro y _ z _ hyz hzy
      unfold QueuedBefore at hyz hzy
      rcases hyz with hyz | ⟨hp, hlt⟩ <;> rcases hzy with hzy | ⟨hp', hlt'⟩
      · rw [Side.better_asymm hyz] at hzy
        cases hzy
      · rw [hp', Side.better_irrefl] at hyz
        cases hyz
      · rw [hp, Side.better_irrefl] at hzy
        cases hzy
      · exact Nat.lt_asymm hlt hlt'
    · intro y
      rw [List.mem_orderedInsert, hmemf]
      constructor
      · intro hy
        by_cases heq : y.order_id_ = x.order_id_
        · exact .inl (hinj y (hbefore y hy) heq)
        · exact .inr ⟨hy, heq⟩
      · intro hy
        rcases hy with rfl | ⟨hy, -⟩
        · exact hxs
        · exact hy
  · next hne =>
    -- the order is not of this side
    rw [side_map hs', List.filter_eq_self]
    intro y hy
    apply decide_eq_true
    intro heq
    apply hne
    rw [← hinj y (mem_orders.mpr ⟨s', hs', hy⟩) heq]
    exact (h.side s' hs' y hy).symm

/-- **Replay**: adding the orders in the order of their ids gives the same quotes; induction on
the orders, the one with the largest id last. -/
theorem replay_ids (ticker_id : ℕ) {xs : List MarketOrderInfo} :
    ∀ {Q : Quotes}, Q.WF → xs.Perm Q.orders →
      xs.Pairwise (fun x y => x.order_id_ < y.order_id_) →
      empty.AdmitsAll (xs.map (addOf ticker_id)) ∧ empty.applyAll (xs.map (addOf ticker_id)) = Q := by
  induction xs using List.reverseRecOn with
  | nil =>
    intro Q _ hperm _
    exact ⟨trivial, (eq_empty_of_orders hperm.nil_eq.symm).symm⟩
  | append_singleton ys x ih =>
    intro Q h hperm hsorted
    rw [List.pairwise_append] at hsorted
    obtain ⟨hys, -, hlast⟩ := hsorted
    have hx : x ∈ Q.orders := hperm.subset (by simp)
    have hlast' : ∀ y ∈ Q.orders, y.order_id_ ≠ x.order_id_ → y.order_id_ < x.order_id_ := by
      intro y hy hne
      rcases List.mem_append.mp (hperm.symm.subset hy) with hy | hy
      · exact hlast y hy x (List.mem_singleton_self x)
      · exact absurd (congrArg _ (List.mem_singleton.mp hy)) hne
    have happly := apply_addOf h hx hlast' ticker_id
    -- the quotes without the order of the largest id are replayed first
    set Q' := Q.map (List.filter fun y => decide (y.order_id_ ≠ x.order_id_)) with hQ'
    have hperm' : ys.Perm Q'.orders := by
      have horders : Q'.orders = Q.orders.filter fun y => decide (y.order_id_ ≠ x.order_id_) :=
        (List.filter_append _ _).symm
      have hfilter : (ys ++ [x]).filter (fun y => decide (y.order_id_ ≠ x.order_id_)) = ys := by
        rw [List.filter_append, List.filter_eq_self.mpr, List.filter_singleton]
        · simp
        · intro y hy
          exact decide_eq_true (Nat.ne_of_lt (hlast y hy x (List.mem_singleton_self x)))
      rw [horders]
      conv_lhs => rw [← hfilter]
      exact hperm.filter _
    obtain ⟨hadm, hrun⟩ := ih (h.filter _) hperm' hys
    rw [List.map_append, List.map_cons, List.map_nil, applyAll_append]
    refine ⟨admitsAll_append.mpr ⟨hadm, ?_, trivial⟩, ?_⟩
    · rw [hrun]
      obtain ⟨s, hs, hxs⟩ := mem_orders.mp hx
      have hsub : ∀ s', s'.IsTrading → ∀ y ∈ Q'.side s', y ∈ Q.side s' ∧ y.order_id_ ≠ x.order_id_ := by
        intro s' hs' y hy
        rw [hQ', side_map hs', List.mem_filter, decide_eq_true_eq] at hy
        exact hy
      refine ⟨?_, h.ids x hx, fun y hy => ?_, fun s' hs' y hy hidx => ?_, ?_⟩
      · show x.side_.IsTrading
        rw [h.side s hs x hxs]
        exact hs
      · obtain ⟨s', hs', hy⟩ := mem_orders.mp hy
        exact (hsub s' hs' y hy).2
      · obtain ⟨hy, -⟩ := hsub s' hs' y hy
        obtain ⟨hprice, hsd⟩ := h.slots y (mem_orders.mpr ⟨s', hs', hy⟩) x hx hidx
        exact ⟨hprice, (h.side s' hs' y hy).symm.trans hsd⟩
      · rw [happly]
        exact h.fits
    · rw [hrun]
      exact happly

/-- A replay may begin with a `CLEAR`. -/
theorem replay_clear (ticker_id : ℕ) {xs : List MarketOrderInfo} (h : Q.WF)
    (hperm : xs.Perm Q.orders) (hsorted : xs.Pairwise fun x y => x.order_id_ < y.order_id_) :
    empty.AdmitsAll ({ type_ := .CLEAR, ticker_id_ := ticker_id } :: xs.map (addOf ticker_id)) ∧
      empty.applyAll ({ type_ := .CLEAR, ticker_id_ := ticker_id } :: xs.map (addOf ticker_id)) =
        Q := by
  obtain ⟨hadm, hrun⟩ := replay_ids ticker_id h hperm hsorted
  exact ⟨⟨rfl, hadm⟩, hrun⟩

end Quotes

end TradingEcosystem
