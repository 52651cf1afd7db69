import TradingEcosystem.Book.Operations
import TradingEcosystem.Trading.MarketOrderBook

/-!
# CLEAR

What `case CLEAR` of `MarketOrderBook::onMarketUpdate` leaves of a well-formed book: both pools
are empty and so are the order map and the two heads, but the price map still holds the levels
that were freed.
-/

namespace TradingEcosystem

open LimitBook Lib.Ring

namespace MarketOrderBook

variable {b b' : LimitBook MarketOrderInfo ℕ} {sh : Shape}

/-- `pool'` is `pool` with blocks freed: contents and next free block are the same. -/
structure Freed {T : Type} (pool pool' : MemPool T) : Prop where
  get : ∀ p, pool'.get p = pool.get p
  size : pool'.size = pool.size
  next : pool'.next_free_index_ = pool.next_free_index_
  wf : pool'.WF

theorem Freed.trans {T : Type} {pool pool' pool'' : MemPool T} (h : Freed pool pool')
    (h' : Freed pool' pool'') : Freed pool pool'' :=
  ⟨fun p => (h'.get p).trans (h.get p), h'.size.trans h.size, h'.next.trans h.next, h'.wf⟩

/-- Freeing one block. -/
theorem freed_deallocate {T : Type} {pool : MemPool T} (h : pool.WF) {p : ℕ} (hp : p ∈ pool.used) :
    ∃ pool', pool.deallocate p = .ok pool' ∧ Freed pool pool' ∧ pool'.used = pool.used.erase p := by
  obtain ⟨hrun, hwf, hused⟩ := MemPool.deallocate_spec h hp
  exact ⟨_, hrun, ⟨fun q => MemPool.get_setFree .., rfl, rfl, hwf⟩, hused⟩

/-! ## Orders -/

/-- The loop over the order map frees each order it finds there; induction on the ids. -/
theorem deallocateOrders_spec (oids : List ℕ) (hnd : oids.Nodup) :
    ∀ {b : LimitBook MarketOrderInfo ℕ}, b.order_pool_.WF →
      (∀ oid ∈ oids, ∀ o, b.key_to_order_ oid = some o → o ∈ b.order_pool_.used) →
      (∀ oid ∈ oids, ∀ oid' ∈ oids, ∀ o, b.key_to_order_ oid = some o →
        b.key_to_order_ oid' = some o → oid = oid') →
      ∃ pool, deallocateOrders b oids = .ok { b with order_pool_ := pool } ∧
        Freed b.order_pool_ pool ∧
        ∀ o, o ∈ pool.used ↔ o ∈ b.order_pool_.used ∧ ∀ oid ∈ oids, b.key_to_order_ oid ≠ some o := by
  induction oids with
  | nil =>
    intro b hwf _ _
    exact ⟨b.order_pool_, rfl, ⟨fun _ => rfl, rfl, rfl, hwf⟩, by simp⟩
  | cons oid oids ih =>
    intro b hwf hused hinj
    have hnd' := List.nodup_cons.mp hnd
    have hstep : deallocateOrders b (oid :: oids) =
        deallocateOrder b oid >>= fun b => deallocateOrders b oids :=
      List.foldlM_cons ..
    cases hkey : b.key_to_order_ oid with
    | none =>
      obtain ⟨pool, hrun, hfreed, hmem⟩ := ih hnd'.2 hwf
        (fun k hk => hused k (List.mem_cons_of_mem _ hk))
        fun k hk k' hk' => hinj k (List.mem_cons_of_mem _ hk) k' (List.mem_cons_of_mem _ hk')
      refine ⟨pool, ?_, hfreed, fun o => ?_⟩
      · rw [hstep, deallocateOrder, hkey]
        exact hrun
      · simp [hmem, hkey]
    | some order =>
      obtain ⟨pool₁, hrun₁, hfreed₁, hused₁⟩ := freed_deallocate hwf (hused oid (by simp) order hkey)
      set b₁ : LimitBook MarketOrderInfo ℕ := { b with order_pool_ := pool₁ } with hb₁
      -- no other id leads to this order, so the loop does not free it twice
      have hother : ∀ k ∈ oids, b.key_to_order_ k ≠ some order := fun k hk heq =>
        hnd'.1 (hinj oid (by simp) k (by simp [hk]) order hkey heq ▸ hk)
      obtain ⟨pool, hrun, hfreed, hmem⟩ := @ih hnd'.2 b₁ hfreed₁.wf
        (fun k hk o ho => by
          change o ∈ pool₁.used
          rw [hused₁, Finset.mem_erase]
          refine ⟨?_, hused k (List.mem_cons_of_mem _ hk) o ho⟩
          rintro rfl
          exact hother k hk ho)
        fun k hk k' hk' => hinj k (List.mem_cons_of_mem _ hk) k' (List.mem_cons_of_mem _ hk')
      refine ⟨pool, ?_, hfreed₁.trans hfreed, fun o => ?_⟩
      · rw [hstep, deallocateOrder, hkey]
        simp only [hrun₁, ok_bind]
        exact hrun
      · rw [hmem]
        change (o ∈ pool₁.used ∧ ∀ k ∈ oids, b.key_to_order_ k ≠ some o) ↔ _
        rw [hused₁, Finset.mem_erase, List.forall_mem_cons, hkey]
        constructor
        · rintro ⟨⟨hne, ho⟩, hall⟩
          exact ⟨ho, fun he => hne (Option.some.inj he).symm, hall⟩
        · rintro ⟨ho, hne, hall⟩
          exact ⟨⟨fun he => hne (by rw [he]), ho⟩, hall⟩

/-! ## Levels -/

/-- The loop over the levels behind the best one frees each of them; induction on the levels to
come. -/
theorem deallocateLevels_spec {best : ℕ} {ls : List ℕ}
    (hnd : (best :: ls).Nodup) (suf : List ℕ) :
    ∀ {b : LimitBook MarketOrderInfo ℕ} {pre : List ℕ} {fuel l : ℕ},
      IsRing (fun l => (b.level l).next_entry_) (fun l => (b.level l).prev_entry_) (best :: ls) →
      best :: ls = pre ++ suf → pre ≠ [] → (suf ++ [best]).head? = some l → suf.length < fuel →
      b.orders_at_price_pool_.WF → (∀ k ∈ suf, k ∈ b.orders_at_price_pool_.used) →
      ∃ pool, deallocateLevels best fuel b l = .ok { b with orders_at_price_pool_ := pool } ∧
        Freed b.orders_at_price_pool_ pool ∧
        ∀ k, k ∈ pool.used ↔ k ∈ b.orders_at_price_pool_.used ∧ k ∉ suf := by
  induction suf with
  | nil =>
    intro b pre fuel l _ _ _ hl hfuel hwf _
    obtain ⟨n, rfl⟩ : ∃ n, fuel = n + 1 := ⟨fuel - 1, by omega⟩
    obtain rfl : best = l := by simpa using hl
    exact ⟨b.orders_at_price_pool_, by simp [deallocateLevels], ⟨fun _ => rfl, rfl, rfl, hwf⟩,
      by simp⟩
  | cons x suf ih =>
    intro b pre fuel l hring hsplit hpre hl hfuel hwf hused
    obtain ⟨n, rfl⟩ : ∃ n, fuel = n + 1 := ⟨fuel - 1, by omega⟩
    obtain rfl : x = l := by simpa using hl
    have hx : x ≠ best := by
      rintro rfl
      obtain ⟨p, ps, rfl⟩ := List.exists_cons_of_ne_nil hpre
      have hp : x = p := (List.cons.inj hsplit).1
      rw [hsplit, hp] at hnd
      simp at hnd
    have hxsuf : x ∉ suf := by
      rw [hsplit] at hnd
      exact (List.nodup_cons.mp (List.nodup_append.mp hnd).2.1).1
    have hnext := hring.next_of_split hsplit
    obtain ⟨y, hy⟩ : ∃ y, (suf ++ [best]).head? = some y := by
      cases suf with
      | nil => exact ⟨best, rfl⟩
      | cons y suf => exact ⟨y, rfl⟩
    rw [hy] at hnext
    obtain ⟨pool₁, hrun₁, hfreed₁, hused₁⟩ := freed_deallocate hwf (hused x (by simp))
    set b₁ : LimitBook MarketOrderInfo ℕ := { b with orders_at_price_pool_ := pool₁ } with hb₁
    -- the contents of a freed block stay, so the walk goes on along the ring
    have hlevel : ∀ k, b₁.level k = b.level k := hfreed₁.get
    have hring₁ : IsRing (fun l => (b₁.level l).next_entry_) (fun l => (b₁.level l).prev_entry_)
        (best :: ls) :=
      hring.congr (fun k _ => by rw [hlevel]) fun k _ => by rw [hlevel]
    obtain ⟨pool, hrun, hfreed, hmem⟩ := @ih b₁ (pre ++ [x]) n y hring₁ (by simp [hsplit])
      (by simp) hy (by simpa using hfuel) hfreed₁.wf (fun k hk => by
        change k ∈ pool₁.used
        rw [hused₁, Finset.mem_erase]
        refine ⟨?_, hused k (List.mem_cons_of_mem _ hk)⟩
        rintro rfl
        exact hxsuf hk)
    refine ⟨pool, ?_, hfreed₁.trans hfreed, fun k => ?_⟩
    · rw [deallocateLevels, if_neg hx]
      simp only [hrun₁, ok_bind, hnext, deref_some]
      exact hrun
    · rw [hmem]
      change (k ∈ pool₁.used ∧ k ∉ suf) ↔ _
      rw [hused₁, Finset.mem_erase, List.mem_cons]
      tauto

/-- The levels of one side are freed. -/
theorem deallocateSide_spec {s : Side} {ls : List ℕ} (hrep : LevelsRep b s ls)
    (hwf : b.orders_at_price_pool_.WF) (hused : ∀ l ∈ ls, l ∈ b.orders_at_price_pool_.used)
    (hlen : ls.length ≤ b.orders_at_price_pool_.size) :
    ∃ pool, deallocateSide b (b.best s) = .ok { b with orders_at_price_pool_ := pool } ∧
      Freed b.orders_at_price_pool_ pool ∧
      ∀ k, k ∈ pool.used ↔ k ∈ b.orders_at_price_pool_.used ∧ k ∉ ls := by
  rw [hrep.head]
  cases ls with
  | nil =>
    exact ⟨b.orders_at_price_pool_, rfl, ⟨fun _ => rfl, rfl, rfl, hwf⟩, by simp⟩
  | cons l ls =>
    have hnd := hrep.nodup
    have hsplit : l :: ls = [] ++ l :: ls := rfl
    have hnext := hrep.ring.next_of_split hsplit
    obtain ⟨y, hy⟩ : ∃ y, (ls ++ [l]).head? = some y := by
      cases ls with
      | nil => exact ⟨l, rfl⟩
      | cons y ls => exact ⟨y, rfl⟩
    rw [hy] at hnext
    have hlt : ls.length < b.orders_at_price_pool_.size + 1 := by
      rw [List.length_cons] at hlen
      omega
    have hbehind : l :: ls = [l] ++ ls := rfl
    obtain ⟨pool₁, hrun₁, hfreed₁, hmem₁⟩ := deallocateLevels_spec hnd ls hrep.ring hbehind
      (by simp) hy hlt hwf fun k hk => hused k (List.mem_cons_of_mem _ hk)
    have hl : l ∈ pool₁.used := (hmem₁ l).mpr ⟨hused l (by simp), (List.nodup_cons.mp hnd).1⟩
    obtain ⟨pool₂, hrun₂, hfreed₂, hused₂⟩ := freed_deallocate hfreed₁.wf hl
    refine ⟨pool₂, ?_, hfreed₁.trans hfreed₂, fun k => ?_⟩
    · simp only [deallocateSide, List.head?_cons, hnext, deref_some, ok_bind, hrun₁, hrun₂]
    · rw [hused₂, Finset.mem_erase, hmem₁, List.mem_cons]
      tauto

/-! ## The whole book -/

/-- What `CLEAR` leaves: nothing is in use or linked, but contents and the price map stay. -/
structure Cleared (b b' : LimitBook MarketOrderInfo ℕ) : Prop where
  bids : b'.bids_by_price_ = none
  asks : b'.asks_by_price_ = none
  keys : ∀ k, b'.key_to_order_ k = none
  slots : b'.price_orders_at_price_ = b.price_orders_at_price_
  levels : Freed b.orders_at_price_pool_ b'.orders_at_price_pool_
  orders : Freed b.order_pool_ b'.order_pool_
  level_used : b'.orders_at_price_pool_.used = ∅
  order_used : b'.order_pool_.used = ∅

/-- **`CLEAR` frees a well-formed book** and forgets the price map. -/
theorem clear_spec (h : BookRep b sh) : ∃ b', clear b = .ok b' ∧ Cleared b b' := by
  have hkey : ∀ oid o, b.key_to_order_ oid = some o → o ∈ b.order_pool_.used := fun oid o ho =>
    (h.order_used o).mpr ((h.keys oid o).mp ho).1
  obtain ⟨opool, hrun₁, hfreed₁, hmem₁⟩ := deallocateOrders_spec (List.range ME_MAX_ORDER_IDS)
    List.nodup_range h.order_wf (fun oid _ => hkey oid) fun oid _ oid' _ o ho ho' =>
      ((h.keys oid o).mp ho).2.symm.trans ((h.keys oid' o).mp ho').2
  set b₁ : LimitBook MarketOrderInfo ℕ :=
    { b with order_pool_ := opool, key_to_order_ := fun _ => none } with hb₁
  have hlen : ∀ s, s.IsTrading → (sh.levels s).length ≤ b.orders_at_price_pool_.size := by
    intro s hs
    have hcard := h.level_wf.used_card_lt
    rw [h.level_card] at hcard
    exact (Shape.length_levels_le hs).trans hcard.le
  have hmem : ∀ s, s.IsTrading → ∀ l ∈ sh.levels s, l ∈ b.orders_at_price_pool_.used :=
    fun s hs l hl => (h.level_used l).mpr (Shape.mem_all.mpr ⟨s, hs, hl⟩)
  have hbids : LevelsRep b₁ .BUY sh.bids :=
    (h.levels .BUY (.inl rfl)).congr rfl fun _ _ => rfl
  obtain ⟨lpool, hrun₂, hfreed₂, hmem₂⟩ := deallocateSide_spec hbids h.level_wf
    (hmem .BUY (.inl rfl)) (hlen .BUY (.inl rfl))
  set b₂ : LimitBook MarketOrderInfo ℕ := { b₁ with orders_at_price_pool_ := lpool } with hb₂
  -- freeing the bids has not touched the asks
  have hasks : LevelsRep b₂ .SELL sh.asks :=
    (h.levels .SELL (.inr rfl)).congr rfl fun l _ => hfreed₂.get l
  have hused₂ : ∀ l ∈ sh.asks, l ∈ lpool.used := fun l hl => by
    refine (hmem₂ l).mpr ⟨hmem .SELL (.inr rfl) l hl, fun hbid => ?_⟩
    cases h.side_unique (.inl rfl) (.inr rfl) (show l ∈ sh.levels .BUY from hbid) hl
  obtain ⟨lpool', hrun₃, hfreed₃, hmem₃⟩ := deallocateSide_spec hasks hfreed₂.wf hused₂
    (hfreed₂.size ▸ hlen .SELL (.inr rfl))
  refine ⟨{ b₂ with
    orders_at_price_pool_ := lpool'
    bids_by_price_ := none
    asks_by_price_ := none }, ?_, rfl, rfl, fun _ => rfl, rfl, hfreed₂.trans hfreed₃, hfreed₁, ?_, ?_⟩
  · have hrun₂' : deallocateSide b₁ b₁.bids_by_price_ = .ok b₂ := hrun₂
    have hrun₃' : deallocateSide b₂ b₂.asks_by_price_ =
        .ok { b₂ with orders_at_price_pool_ := lpool' } := hrun₃
    simp only [clear, hrun₁, ok_bind]
    change (deallocateSide b₁ b₁.bids_by_price_ >>= _) = _
    rw [hrun₂', ok_bind, hrun₃', ok_bind]
  · ext l
    change l ∈ lpool'.used ↔ _
    rw [hmem₃]
    change (l ∈ lpool.used ∧ l ∉ sh.asks) ↔ _
    rw [hmem₂]
    change ((l ∈ b.orders_at_price_pool_.used ∧ l ∉ sh.bids) ∧ l ∉ sh.asks) ↔ _
    rw [h.level_used, Shape.all, List.mem_append]
    simp only [Finset.notMem_empty, iff_false]
    exact fun hl => hl.1.1.elim hl.1.2 hl.2
  · ext o
    change o ∈ opool.used ↔ _
    rw [hmem₁, h.order_used]
    simp only [Finset.notMem_empty, iff_false, not_and, not_forall, not_not]
    intro ho
    have hrange := h.keys_inRange o ho
    exact ⟨_, List.mem_range.mpr (of_decide_eq_true hrange), (h.keys _ o).mpr ⟨ho, rfl⟩⟩

end MarketOrderBook

end TradingEcosystem
