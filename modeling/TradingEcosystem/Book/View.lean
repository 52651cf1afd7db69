import TradingEcosystem.Book.Operations
import Mathlib.Data.List.SplitBy

/-!
# Reading a Limit Order Book

What a reader that follows the pointers of a book finds: the levels of a side from the best
one on, and in each level the orders from the first one on.

- `levelsView` : prices and queues of a side, as the pointers lead to them
- `orderList` : the orders of a side in priority order
- `levelsView_eq_map` : the second determines the first
-/

namespace TradingEcosystem

open Lib.Ring

namespace LimitBook

variable {I K : Type} (b : LimitBook I K)

/-- The levels of side `s`, following `next_entry_` from the best level on. -/
def levelList (s : Side) : List ℕ :=
  match b.best s with
  | none => []
  | some l => walk (fun l => (b.level l).next_entry_) l b.orders_at_price_pool_.size l

/-- The orders of level `l`, following `next_order_` from the first order on. -/
def queueList (l : ℕ) : List ℕ :=
  match (b.level l).first_order_ with
  | none => []
  | some o => walk (fun o => (b.order o).next_order_) o b.order_pool_.size o

/-- The prices of side `s` with the orders queued at each. -/
def levelsView (s : Side) : List (ℤ × List I) :=
  (b.levelList s).map fun l => ((b.level l).price_, (b.queueList l).map fun o => (b.order o).info)

/-- The orders of side `s` in priority order. -/
def orderList (s : Side) : List I :=
  ((b.levelList s).flatMap b.queueList).map fun o => (b.order o).info

variable {b} [OrderInfo I K] {sh : Shape}

/-! ## Groups of one price -/

/-- A list cut into groups of one price, no two neighbours of the same. -/
structure Grouped {α : Type} (price : α → ℤ) (groups : List (ℤ × List α)) : Prop where
  ne_nil : ∀ g ∈ groups, g.2 ≠ []
  price : ∀ g ∈ groups, ∀ x ∈ g.2, price x = g.1
  pairwise : groups.Pairwise fun g g' => g.1 ≠ g'.1

/-- There is only one way to cut a list into groups of one price. -/
theorem Grouped.eq_of_flatten {α : Type} {price : α → ℤ} {groups groups' : List (ℤ × List α)}
    (h : Grouped price groups) (h' : Grouped price groups')
    (hflat : (groups.map Prod.snd).flatten = (groups'.map Prod.snd).flatten) :
    groups = groups' := by
  -- the queues are what cutting between different prices gives
  have hsplit : ∀ {gs : List (ℤ × List α)}, Grouped price gs →
      (gs.map Prod.snd).flatten.splitBy (fun x y => decide (price x = price y)) =
        gs.map Prod.snd := by
    intro gs hgs
    rw [List.splitBy_flatten]
    · intro hnil
      obtain ⟨g, hg, heq⟩ := List.mem_map.mp hnil
      exact hgs.ne_nil g hg heq
    · intro q hq
      obtain ⟨g, hg, rfl⟩ := List.mem_map.mp hq
      refine List.Pairwise.isChain (List.pairwise_of_forall_mem_list ?_)
      intro x hx y hy
      rw [decide_eq_true_eq, hgs.price g hg x hx, hgs.price g hg y hy]
    · refine List.Pairwise.isChain (List.pairwise_map.mpr ?_)
      refine hgs.pairwise.imp_of_mem ?_
      intro g g' hg hg' hne
      refine ⟨hgs.ne_nil g hg, hgs.ne_nil g' hg', ?_⟩
      rw [decide_eq_false_iff_not, hgs.price g hg _ (List.getLast_mem _),
        hgs.price g' hg' _ (List.head_mem _)]
      exact hne
  have hqueues : groups.map Prod.snd = groups'.map Prod.snd := by
    rw [← hsplit h, ← hsplit h', hflat]
  -- and a group's price is that of its first order
  have hprices : ∀ {gs : List (ℤ × List α)}, Grouped price gs →
      gs.map (fun g => some g.1) = (gs.map Prod.snd).map fun q => q.head?.map price := by
    intro gs hgs
    rw [List.map_map]
    refine List.map_congr_left fun g hg => ?_
    obtain ⟨x, xs, hx⟩ := List.exists_cons_of_ne_nil (hgs.ne_nil g hg)
    rw [Function.comp_apply, hx, List.head?_cons, Option.map_some,
      hgs.price g hg x (by simp [hx])]
  have hfst : groups.map (fun g => some g.1) = groups'.map fun g => some g.1 := by
    rw [hprices h, hprices h', hqueues]
  have hpair : ∀ gs : List (ℤ × List α), (gs.map fun g => some g.1).zip (gs.map Prod.snd) =
      gs.map fun g => (some g.1, g.2) := fun gs => by
    rw [List.zip_map']
  have hmap : (groups.map fun g => (some g.1, g.2)) = groups'.map fun g => (some g.1, g.2) := by
    rw [← hpair, ← hpair, hfst, hqueues]
  refine List.map_injective_iff.mpr ?_ hmap
  intro g g' hgg
  simp only [Prod.mk.injEq, Option.some.injEq] at hgg
  exact Prod.ext hgg.1 hgg.2

theorem Linked.levelList_eq (h : Linked b sh) {s : Side} (hs : s.IsTrading) :
    b.levelList s = sh.levels s := by
  have hrep := h.levels s hs
  rw [levelList, hrep.head]
  cases hls : sh.levels s with
  | nil => rfl
  | cons l ls =>
    have hlen : (sh.levels s).length ≤ sh.all.length := Shape.length_levels_le hs
    have hcard := h.level_wf.used_card_lt
    rw [h.level_card] at hcard
    rw [hls, List.length_cons] at hlen
    exact walk_eq (hls ▸ hrep.ring) (hls ▸ hrep.nodup) (by omega)

namespace Stored

variable {unique : Prop}

theorem queueList_eq (h : Stored unique b sh) {s : Side} (hs : s.IsTrading) {l : ℕ}
    (hl : l ∈ sh.levels s) : b.queueList l = sh.queue l := by
  have hq := h.queues s hs l hl
  rw [queueList, hq.first]
  cases hos : sh.queue l with
  | nil => exact absurd hos hq.ne_nil
  | cons o os =>
    have hsub : (sh.queue l).Sublist (sh.flat s) := by
      rw [Shape.flat, List.flatMap_def]
      exact List.sublist_flatten_of_mem (List.mem_map_of_mem hl)
    have hlen : (sh.flat s).length ≤ sh.orders.length := Shape.length_flat_le hs
    have hcard := h.order_wf.used_card_lt
    have hlen' := hsub.length_le
    rw [h.order_card] at hcard
    rw [hos, List.length_cons] at hlen'
    exact walk_eq (hos ▸ hq.ring) (hos ▸ hq.nodup) (by omega)

/-- Following the pointers reads the orders of a side. -/
theorem orderList_eq (h : Stored unique b sh) {s : Side} (hs : s.IsTrading) :
    b.orderList s = infos b sh s := by
  rw [orderList, infos, Shape.flat, h.levelList_eq hs, List.flatMap_def, List.flatMap_def]
  congr 2
  exact List.map_congr_left fun l hl => h.queueList_eq hs hl

end Stored

namespace BookRep

theorem queueList_eq (h : BookRep b sh) {s : Side} (hs : s.IsTrading) {l : ℕ}
    (hl : l ∈ sh.levels s) : b.queueList l = sh.queue l :=
  (h.stored True).queueList_eq hs hl

theorem orderList_eq (h : BookRep b sh) {s : Side} (hs : s.IsTrading) :
    b.orderList s = infos b sh s :=
  (h.stored True).orderList_eq hs

theorem levelsView_eq (h : BookRep b sh) {s : Side} (hs : s.IsTrading) :
    b.levelsView s = (sh.levels s).map fun l =>
      ((b.level l).price_, (sh.queue l).map fun o => (b.order o).info) := by
  rw [levelsView, h.levelList_eq hs]
  exact List.map_congr_left fun l hl => by rw [h.queueList_eq hs hl]

/-- The levels of a side group its orders by price. -/
theorem grouped (h : BookRep b sh) {s : Side} (hs : s.IsTrading) :
    Grouped OrderInfo.price (b.levelsView s) := by
  rw [h.levelsView_eq hs]
  refine ⟨?_, ?_, ?_⟩
  · intro g hg
    obtain ⟨l, hl, rfl⟩ := List.mem_map.mp hg
    exact fun heq => (h.queues s hs l hl).ne_nil (List.map_eq_nil_iff.mp heq)
  · intro g hg x hx
    obtain ⟨l, hl, rfl⟩ := List.mem_map.mp hg
    obtain ⟨o, ho, rfl⟩ := List.mem_map.mp hx
    exact (h.queues s hs l hl).price o ho
  · refine List.pairwise_map.mpr ((h.levels s hs).sorted.imp fun {k l} hkl heq => ?_)
    have hprice : (b.level k).price_ = (b.level l).price_ := heq
    rw [hprice, Side.better_irrefl] at hkl
    cases hkl

theorem flatten_levelsView (h : BookRep b sh) {s : Side} (hs : s.IsTrading) :
    ((b.levelsView s).map Prod.snd).flatten = b.orderList s := by
  rw [h.levelsView_eq hs, h.orderList_eq hs, infos, Shape.flat, List.map_map, List.map_flatMap,
    List.flatMap_def]
  rfl

end BookRep

/-- A side has as many levels as its orders have prices. -/
theorem Linked.length_levels (h : Linked b sh) {s : Side} (hs : s.IsTrading) :
    (sh.levels s).length = ((infos b sh s).map OrderInfo.price).toFinset.card := by
  have hnd : ((sh.levels s).map fun l => (b.level l).price_).Nodup := by
    refine List.pairwise_map.mpr ((h.levels s hs).sorted.imp fun {k l} hkl heq => ?_)
    rw [heq, Side.better_irrefl] at hkl
    cases hkl
  have heq : ((infos b sh s).map OrderInfo.price).toFinset =
      ((sh.levels s).map fun l => (b.level l).price_).toFinset := by
    ext p
    simp only [infos, List.mem_toFinset, List.mem_map, Shape.mem_flat]
    constructor
    · rintro ⟨_, ⟨o, ⟨l, hl, ho⟩, rfl⟩, rfl⟩
      exact ⟨l, hl, ((h.queues s hs l hl).price o ho).symm⟩
    · rintro ⟨l, hl, rfl⟩
      have hq := h.queues s hs l hl
      obtain ⟨o, os, ho⟩ := List.exists_cons_of_ne_nil hq.ne_nil
      have hol : o ∈ sh.queue l := by simp [ho]
      exact ⟨_, ⟨o, ⟨l, hl, hol⟩, rfl⟩, hq.price o hol⟩
  rw [heq, List.toFinset_card_of_nodup hnd, List.length_map]

/-- **The orders determine the levels**: a book that lists the orders of another, seen through
`f`, has the same levels and queues. -/
theorem levelsView_eq_map {I' K' : Type} [OrderInfo I' K'] {b' : LimitBook I' K'} {sh' : Shape}
    {f : I → I'} (hf : ∀ x, OrderInfo.price (f x) = OrderInfo.price x) (h : BookRep b sh)
    (h' : BookRep b' sh') {s : Side} (hs : s.IsTrading)
    (hlist : b'.orderList s = (b.orderList s).map f) :
    b'.levelsView s = (b.levelsView s).map fun g => (g.1, g.2.map f) := by
  have hg := h.grouped hs
  have hmap : Grouped OrderInfo.price ((b.levelsView s).map fun g => (g.1, g.2.map f)) := by
    refine ⟨?_, ?_, List.pairwise_map.mpr hg.pairwise⟩
    · intro g hmem
      obtain ⟨g, hmem', rfl⟩ := List.mem_map.mp hmem
      exact fun heq => hg.ne_nil g hmem' (List.map_eq_nil_iff.mp heq)
    · intro g hmem x hx
      obtain ⟨g, hmem', rfl⟩ := List.mem_map.mp hmem
      obtain ⟨y, hy, rfl⟩ := List.mem_map.mp hx
      rw [hf]
      exact hg.price g hmem' y hy
  refine (h'.grouped hs).eq_of_flatten hmap ?_
  rw [h'.flatten_levelsView hs, hlist, ← h.flatten_levelsView hs, List.map_flatten, List.map_map,
    List.map_map]
  rfl

end LimitBook

end TradingEcosystem
