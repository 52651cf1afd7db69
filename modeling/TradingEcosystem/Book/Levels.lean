import TradingEcosystem.Book.LimitBook
import TradingEcosystem.Lib.Ring
import TradingEcosystem.Lib.SortedInsert

/-!
# Price Levels of a Limit Order Book

What `addOrdersAtPrice` and `removeOrdersAtPrice` do to the circular list of one side.

`LevelsRep b s ls` says that the list of side `s` consists of the levels `ls`, best price
first.  Adding a level of a price not in the list gives the sorted insertion of it; removing
one gives the list without it.  `LevelFrame` collects what neither operation touches.
-/

namespace TradingEcosystem

open Lib.Ring Lib.SortedInsert

/-! ## Order of prices on one side -/

theorem Side.better_irrefl (s : Side) (p : ℤ) : s.better p p = false := by
  simp [Side.better]

theorem Side.better_trans {s : Side} {p q r : ℤ} (h : s.better p q = true)
    (h' : s.better q r = true) : s.better p r = true := by
  simp only [Side.better, Bool.or_eq_true, Bool.and_eq_true, beq_iff_eq,
    decide_eq_true_eq] at *
  grind

theorem Side.better_asymm {s : Side} {p q : ℤ} (h : s.better p q = true) :
    s.better q p = false := by
  cases hqp : s.better q p with
  | false => rfl
  | true =>
    have := Side.better_trans h hqp
    rw [Side.better_irrefl] at this
    cases this

theorem Side.worse_eq_better (s : Side) (p q : ℤ) : s.worse p q = s.better q p := by
  simp only [Side.worse, Side.better, gt_iff_lt]
  rw [Bool.or_comm]

/-- On a trading side two different prices are ordered. -/
theorem Side.better_total {s : Side} (hs : s.IsTrading) {p q : ℤ} (hne : p ≠ q) :
    s.better p q = true ∨ s.better q p = true := by
  rcases hs with rfl | rfl
  · simp [Side.better]
    omega
  · simp [Side.better]
    omega

namespace LimitBook

variable {I K : Type} {b b' b'' : LimitBook I K}

/-! ## Reading after writing -/

@[simp] theorem level_modLevel (b : LimitBook I K) (l k : ℕ) (f) :
    (b.modLevel l f).level k = if k = l then f (b.level l) else b.level k := by
  simp [modLevel, level]

@[simp] theorem order_modLevel (b : LimitBook I K) (l k : ℕ) (f) :
    (b.modLevel l f).order k = b.order k := rfl

@[simp] theorem order_modOrder (b : LimitBook I K) (o k : ℕ) (f) :
    (b.modOrder o f).order k = if k = o then f (b.order o) else b.order k := by
  simp [modOrder, order]

@[simp] theorem level_modOrder (b : LimitBook I K) (o k : ℕ) (f) :
    (b.modOrder o f).level k = b.level k := rfl

@[simp] theorem best_modLevel (b : LimitBook I K) (l : ℕ) (f) (s : Side) :
    (b.modLevel l f).best s = b.best s := rfl

@[simp] theorem best_modOrder (b : LimitBook I K) (o : ℕ) (f) (s : Side) :
    (b.modOrder o f).best s = b.best s := rfl

@[simp] theorem level_setBest (b : LimitBook I K) (s : Side) (l : Option ℕ) (k : ℕ) :
    (b.setBest s l).level k = b.level k := by
  unfold setBest
  split <;> rfl

@[simp] theorem level_setOrdersAtPrice (b : LimitBook I K) (p : ℤ) (l : Option ℕ) (k : ℕ) :
    (b.setOrdersAtPrice p l).level k = b.level k := rfl

@[simp] theorem best_setOrdersAtPrice (b : LimitBook I K) (p : ℤ) (l : Option ℕ) (s : Side) :
    (b.setOrdersAtPrice p l).best s = b.best s := rfl

theorem best_setBest_self (b : LimitBook I K) (s : Side) (l : Option ℕ) :
    (b.setBest s l).best s = l := by
  unfold setBest best
  split <;> rfl

theorem best_setBest_ne (b : LimitBook I K) {s s' : Side} (hs : s.IsTrading) (hs' : s'.IsTrading)
    (hne : s' ≠ s) (l : Option ℕ) : (b.setBest s l).best s' = b.best s' := by
  rcases hs with rfl | rfl <;> rcases hs' with rfl | rfl <;> simp_all [setBest, best]

/-! ## Frames -/

/-- `b'` differs from `b` at most in the links between levels, the best levels and the price
slots. -/
structure LevelFrame (b b' : LimitBook I K) : Prop where
  order_pool : b'.order_pool_ = b.order_pool_
  keys : b'.key_to_order_ = b.key_to_order_
  used : b'.orders_at_price_pool_.used = b.orders_at_price_pool_.used
  size : b'.orders_at_price_pool_.size = b.orders_at_price_pool_.size
  wf : b.orders_at_price_pool_.WF → b'.orders_at_price_pool_.WF
  side : ∀ l, (b'.level l).side_ = (b.level l).side_
  price : ∀ l, (b'.level l).price_ = (b.level l).price_
  first : ∀ l, (b'.level l).first_order_ = (b.level l).first_order_

namespace LevelFrame

theorem refl (b : LimitBook I K) : LevelFrame b b :=
  ⟨rfl, rfl, rfl, rfl, id, fun _ => rfl, fun _ => rfl, fun _ => rfl⟩

theorem trans (h : LevelFrame b b') (h' : LevelFrame b' b'') : LevelFrame b b'' :=
  ⟨h'.order_pool.trans h.order_pool, h'.keys.trans h.keys, h'.used.trans h.used,
   h'.size.trans h.size, fun hwf => h'.wf (h.wf hwf), fun l => (h'.side l).trans (h.side l),
   fun l => (h'.price l).trans (h.price l), fun l => (h'.first l).trans (h.first l)⟩

theorem order (h : LevelFrame b b') (o : ℕ) : b'.order o = b.order o := by
  simp only [LimitBook.order, h.order_pool]

/-- Writing the links of a level. -/
theorem modLevel (h : LevelFrame b b') {l : ℕ} {f : OrdersAtPrice → OrdersAtPrice}
    (hside : ∀ e, (f e).side_ = e.side_) (hprice : ∀ e, (f e).price_ = e.price_)
    (hfirst : ∀ e, (f e).first_order_ = e.first_order_) : LevelFrame b (b'.modLevel l f) where
  order_pool := h.order_pool
  keys := h.keys
  used := (MemPool.used_modify ..).trans h.used
  size := h.size
  wf := fun hwf => (h.wf hwf).modify l f
  side := fun k => by
    by_cases hk : k = l
    · simp [hk, hside, h.side]
    · simp [hk, h.side]
  price := fun k => by
    by_cases hk : k = l
    · simp [hk, hprice, h.price]
    · simp [hk, h.price]
  first := fun k => by
    by_cases hk : k = l
    · simp [hk, hfirst, h.first]
    · simp [hk, h.first]

theorem setBest (b : LimitBook I K) (s : Side) (l : Option ℕ) : LevelFrame b (b.setBest s l) := by
  unfold LimitBook.setBest
  split <;> exact ⟨rfl, rfl, rfl, rfl, id, fun _ => rfl, fun _ => rfl, fun _ => rfl⟩

theorem setOrdersAtPrice (b : LimitBook I K) (p : ℤ) (l : Option ℕ) :
    LevelFrame b (b.setOrdersAtPrice p l) :=
  ⟨rfl, rfl, rfl, rfl, id, fun _ => rfl, fun _ => rfl, fun _ => rfl⟩

end LevelFrame

/-- `b'` is `b` with level `new` linked between `u` and `v`. -/
structure Spliced (b b' : LimitBook I K) (u new v : ℕ) : Prop where
  frame : LevelFrame b b'
  bids : b'.bids_by_price_ = b.bids_by_price_
  asks : b'.asks_by_price_ = b.asks_by_price_
  slots : b'.price_orders_at_price_ = b.price_orders_at_price_
  next : ∀ l, (b'.level l).next_entry_ =
    if l = u then some new else if l = new then some v else (b.level l).next_entry_
  prev : ∀ l, (b'.level l).prev_entry_ =
    if l = v then some new else if l = new then some u else (b.level l).prev_entry_

theorem Spliced.best {u new v : ℕ} (h : Spliced b b' u new v) (s : Side) :
    b'.best s = b.best s := by
  unfold LimitBook.best
  rw [h.bids, h.asks]

theorem Spliced.level_other {u new v : ℕ} (h : Spliced b b' u new v) {l : ℕ} (hu : l ≠ u)
    (hnew : l ≠ new) (hv : l ≠ v) : b'.level l = b.level l :=
  OrdersAtPrice.ext (h.frame.side l) (h.frame.price l) (h.frame.first l)
    (by simp [h.prev, hv, hnew]) (by simp [h.next, hu, hnew])

theorem linkAfter_spec (b : LimitBook I K) {u new v : ℕ} (hu : u ≠ new) (hv : v ≠ new)
    (hnext : (b.level u).next_entry_ = some v) :
    ∃ b', b.linkAfter new u = .ok b' ∧ Spliced b b' u new v := by
  have hnext' : ((b.modLevel new fun e => { e with prev_entry_ := some u }).level u).next_entry_ =
      some v := by simp [hu, hnext]
  refine ⟨?_, ?run, ?spliced⟩
  case run =>
    simp only [linkAfter, hnext', deref_some, ok_bind]
    rfl
  refine ⟨?_, rfl, rfl, rfl, ?_, ?_⟩
  · iterate 4 refine LevelFrame.modLevel ?_ (fun _ => rfl) (fun _ => rfl) (fun _ => rfl)
    exact LevelFrame.refl b
  · intro l
    simp only [level_modLevel]
    grind
  · intro l
    simp only [level_modLevel]
    grind

theorem linkBefore_spec (b : LimitBook I K) {u new v : ℕ} (hu : u ≠ new) (hv : v ≠ new)
    (hprev : (b.level v).prev_entry_ = some u) :
    ∃ b', b.linkBefore new v = .ok b' ∧ Spliced b b' u new v := by
  have hprev' : (((b.modLevel new fun e => { e with prev_entry_ := (b.level v).prev_entry_
      }).modLevel new fun e => { e with next_entry_ := some v }).level v).prev_entry_ =
      some u := by simp [hv, hprev]
  refine ⟨?_, ?run, ?spliced⟩
  case run =>
    simp only [linkBefore, hprev', deref_some, ok_bind]
    rfl
  refine ⟨?_, rfl, rfl, rfl, ?_, ?_⟩
  · iterate 4 refine LevelFrame.modLevel ?_ (fun _ => rfl) (fun _ => rfl) (fun _ => rfl)
    exact LevelFrame.refl b
  · intro l
    simp only [level_modLevel]
    grind
  · intro l
    simp only [level_modLevel]
    grind

/-! ## The list of one side -/

/-- The levels of side `s`, best price first, are `ls`. -/
structure LevelsRep (b : LimitBook I K) (s : Side) (ls : List ℕ) : Prop where
  head : b.best s = ls.head?
  ring : IsRing (fun l => (b.level l).next_entry_) (fun l => (b.level l).prev_entry_) ls
  side : ∀ l ∈ ls, (b.level l).side_ = s
  sorted : ls.Pairwise fun k l => s.better (b.level k).price_ (b.level l).price_ = true

namespace LevelsRep

variable {s : Side} {ls : List ℕ}

theorem nodup (h : LevelsRep b s ls) : ls.Nodup :=
  h.sorted.imp fun {k l} hkl heq => by
    rw [heq, Side.better_irrefl] at hkl
    cases hkl

/-- The list of a side depends on its head and on the links, sides and prices of its levels. -/
theorem congr_links (h : LevelsRep b s ls) (hbest : b'.best s = b.best s)
    (hlevel : ∀ l ∈ ls, (b'.level l).side_ = (b.level l).side_ ∧
      (b'.level l).price_ = (b.level l).price_ ∧ (b'.level l).next_entry_ = (b.level l).next_entry_ ∧
      (b'.level l).prev_entry_ = (b.level l).prev_entry_) : LevelsRep b' s ls where
  head := hbest.trans h.head
  ring := h.ring.congr (fun l hl => (hlevel l hl).2.2.1) (fun l hl => (hlevel l hl).2.2.2)
  side := fun l hl => by rw [(hlevel l hl).1]; exact h.side l hl
  sorted := h.sorted.imp_of_mem fun {k l} hk hl hkl => by
    rw [(hlevel k hk).2.1, (hlevel l hl).2.1]
    exact hkl

/-- The other side's list, or any list whose levels an operation did not touch. -/
theorem congr (h : LevelsRep b s ls) (hbest : b'.best s = b.best s)
    (hlevel : ∀ l ∈ ls, b'.level l = b.level l) : LevelsRep b' s ls :=
  h.congr_links hbest fun l hl => by simp [hlevel l hl]

end LevelsRep

/-! ## Adding a level -/

/-- Listing order of two levels of a side. -/
def Listed (b : LimitBook I K) (s : Side) (k l : ℕ) : Prop :=
  s.better (b.level k).price_ (b.level l).price_ = true

instance (b : LimitBook I K) (s : Side) : DecidableRel (b.Listed s) :=
  fun _ _ => inferInstanceAs (Decidable (_ = _))

/-- The loop stops at the first level that is not better than the new one; induction on the
levels it passes. -/
theorem scanLevels_spec {new x : ℕ} {xs : List ℕ}
    (hring : IsRing (fun l => (b.level l).next_entry_) (fun l => (b.level l).prev_entry_) (x :: xs))
    (hnd : (x :: xs).Nodup) (R : List ℕ) (hR : ∀ l ∈ R.head?, b.isWorse new l = false) :
    ∀ (L pre : List ℕ) (fuel : ℕ), x :: xs = x :: pre ++ (L ++ R) → L.length < fuel →
      (∀ l ∈ L, b.isWorse new l = true) →
      ∃ target, (L ++ R ++ [x]).head? = some target ∧
        b.scanLevels new x fuel target = .ok (R.head?.getD x, R.isEmpty) := by
  intro L
  induction L with
  | nil =>
    intro pre fuel hsplit hfuel _
    obtain ⟨n, rfl⟩ : ∃ n, fuel = n + 1 := ⟨fuel - 1, by simp at hfuel; omega⟩
    cases R with
    | nil => exact ⟨x, rfl, by simp [scanLevels]⟩
    | cons r R =>
      have hrx : r ≠ x := by
        rintro rfl
        rw [hsplit] at hnd
        simp at hnd
      exact ⟨r, rfl, by simp [scanLevels, hrx, hR r rfl]⟩
  | cons l L ih =>
    intro pre fuel hsplit hfuel hL
    obtain ⟨n, rfl⟩ : ∃ n, fuel = n + 1 := ⟨fuel - 1, by omega⟩
    have hlx : l ≠ x := by
      rintro rfl
      rw [hsplit] at hnd
      simp at hnd
    obtain ⟨target, htarget, hrun⟩ := ih (pre ++ [l]) n (by simp [hsplit]) (by simp at hfuel; omega)
      fun k hk => hL k (List.mem_cons_of_mem _ hk)
    refine ⟨l, rfl, ?_⟩
    have hsplit' : x :: xs = (x :: pre) ++ l :: (L ++ R) := hsplit
    have hnext := hring.next_of_split hsplit'
    rw [htarget] at hnext
    simp [scanLevels, hlx, hL l (List.mem_cons_self ..), hnext, hrun]

/-- `findTarget` finds the first level that is not better than the new one, or comes back to
the best level with `add_after` still set. -/
theorem findTarget_spec {new x : ℕ} {xs L R : List ℕ}
    (hring : IsRing (fun l => (b.level l).next_entry_) (fun l => (b.level l).prev_entry_) (x :: xs))
    (hnd : (x :: xs).Nodup) (hfuel : (x :: xs).length ≤ b.orders_at_price_pool_.size)
    (hsplit : x :: xs = L ++ R) (hL : ∀ l ∈ L, b.isWorse new l = true)
    (hR : ∀ l ∈ R.head?, b.isWorse new l = false) :
    b.findTarget new x = .ok (R.head?.getD x, R.isEmpty) := by
  cases L with
  | nil =>
    obtain rfl : x :: xs = R := hsplit
    simp [findTarget, hR x rfl]
  | cons y L =>
    obtain ⟨rfl, rfl⟩ : x = y ∧ xs = L ++ R := by simpa using hsplit
    have hlen : L.length < b.orders_at_price_pool_.size + 1 := by simp at hfuel; omega
    obtain ⟨target, htarget, hrun⟩ := scanLevels_spec hring hnd R hR L [] _ rfl hlen
      fun l hl => hL l (List.mem_cons_of_mem _ hl)
    have hsplit' : x :: (L ++ R) = [] ++ x :: (L ++ R) := rfl
    have hnext := hring.next_of_split hsplit'
    rw [htarget] at hnext
    have hx := hL x (List.mem_cons_self ..)
    by_cases hw : b.isWorse new target = true
    · simp [findTarget, hx, hnext, hw, hrun]
    · -- the loop is not entered: the first level after the best one is the target
      have hempty : L = [] := by
        cases L with
        | nil => rfl
        | cons l L =>
          obtain rfl : l = target := by simpa using htarget
          exact absurd (hL l (by simp)) hw
      subst hempty
      cases R with
      | nil =>
        obtain rfl : x = target := by simpa using htarget
        exact absurd hx hw
      | cons r R =>
        obtain rfl : r = target := by simpa using htarget
        simp [findTarget, hx, hnext, hw]

/-- What adding level `new` did: it is in its price slot and, sorted, in the list of its
side. -/
structure AddedLevel (b b' : LimitBook I K) (s : Side) (ls : List ℕ) (new : ℕ) : Prop where
  frame : LevelFrame b b'
  rep : LevelsRep b' s (ls.orderedInsert (b.Listed s) new)
  best_other : ∀ s', s'.IsTrading → s' ≠ s → b'.best s' = b.best s'
  slots : b'.price_orders_at_price_ = fun i =>
    if i = priceToIndex (b.level new).price_ then some new else b.price_orders_at_price_ i
  level_other : ∀ l, l ≠ new → l ∉ ls → b'.level l = b.level l

/-- Splicing a level into the ring between its neighbours leaves a ring. -/
theorem Spliced.isRing {L R ws init : List ℕ} {u new v : ℕ} (h : Spliced b b' u new v)
    (hring : IsRing (fun l => (b.level l).next_entry_) (fun l => (b.level l).prev_entry_) (L ++ R))
    (hnd : (L ++ R).Nodup) (hv : R ++ L = v :: ws) (hu : R ++ L = init ++ [u])
    (hnew : new ∉ L ++ R) :
    IsRing (fun l => (b'.level l).next_entry_) (fun l => (b'.level l).prev_entry_)
      (L ++ new :: R) := by
  have hu_mem : u ∈ L ++ R := List.perm_append_comm.subset (by rw [hu]; simp)
  have hv_mem : v ∈ L ++ R := List.perm_append_comm.subset (by rw [hv]; simp)
  have hun : new ≠ u := fun he => hnew (he ▸ hu_mem)
  have hvn : new ≠ v := fun he => hnew (he ▸ hv_mem)
  refine hring.insert hnd hv hu hnew ?_ ?_ ?_ ?_ ?_ ?_
  · simp [h.next]
  · simp [h.next, hun]
  · simp [h.prev, hvn]
  · simp [h.prev]
  · intro x hxu hxn
    simp [h.next, hxu, hxn]
  · intro x hxv hxn
    simp [h.prev, hxv, hxn]

/-- The spliced list is the sorted one, once the head is moved when the new level is in front. -/
theorem Spliced.levelsRep {s : Side} {L R ws init : List ℕ} {u new v : ℕ}
    (h : Spliced b b' u new v) (hs : s.IsTrading) (hrep : LevelsRep b s (L ++ R))
    (hv : R ++ L = v :: ws) (hu : R ++ L = init ++ [u]) (hnew : new ∉ L ++ R)
    (hside : (b.level new).side_ = s) (hprice : ∀ l ∈ L ++ R, (b.level l).price_ ≠ (b.level new).price_)
    (hins : (L ++ R).orderedInsert (b.Listed s) new = L ++ new :: R)
    (hhead : b''.best s = (L ++ new :: R).head?) (hlevel : ∀ l, b''.level l = b'.level l) :
    LevelsRep b'' s (L ++ new :: R) where
  head := hhead
  ring := (h.isRing hrep.ring hrep.nodup hv hu hnew).congr (fun l _ => by rw [hlevel])
    fun l _ => by rw [hlevel]
  side := by
    intro l hl
    rw [hlevel, h.frame.side]
    have hl' : l = new ∨ l ∈ L ++ R := by
      simp only [List.mem_append, List.mem_cons] at hl ⊢
      tauto
    rcases hl' with rfl | hl'
    · exact hside
    · exact hrep.side l hl'
  sorted := by
    have hsorted : ((L ++ R).orderedInsert (b.Listed s) new).Pairwise (b.Listed s) := by
      refine pairwise_orderedInsert hrep.sorted (fun _ _ h => h) ?_ ?_
      · intro x hx hnx
        exact (Side.better_total hs (hprice x hx)).resolve_right hnx
      · intro x _ y _ hax hxy
        exact Side.better_trans hax hxy
    rw [hins] at hsorted
    refine hsorted.imp fun {k l} hkl => ?_
    rw [hlevel, hlevel, h.frame.price, h.frame.price]
    exact hkl

/-- The first level of its side becomes the head and its own neighbour. -/
theorem addOrdersAtPrice_first {s : Side} {new : ℕ} (hs : s.IsTrading) (hrep : LevelsRep b s [])
    (hside : (b.level new).side_ = s) :
    ∃ b', b.addOrdersAtPrice new = .ok b' ∧ AddedLevel b b' s [] new := by
  have hbest : b.best s = none := hrep.head
  refine ⟨?_, ?run, ?frame, ?rep, ?best, ?slots, ?level⟩
  case run =>
    simp only [addOrdersAtPrice, hside, best_setOrdersAtPrice, hbest]
    rfl
  case frame =>
    exact ((LevelFrame.setOrdersAtPrice ..).trans (LevelFrame.setBest ..)).modLevel (fun _ => rfl)
      (fun _ => rfl) fun _ => rfl
  case rep =>
    refine ⟨by simp [best_setBest_self], ?_, ?_, by simp⟩
    · rw [List.orderedInsert_nil, IsRing.singleton_iff]
      simp
    · simp [hside]
  case best =>
    intro s' hs' hne
    rw [best_modLevel, best_setBest_ne _ hs hs' hne, best_setOrdersAtPrice]
  case slots => rcases hs with rfl | rfl <;> rfl
  case level =>
    intro l hl _
    simp [hl]

/-- The search of `addOrdersAtPrice` finds the place of the sorted insertion. -/
theorem findTarget_sorted {s : Side} {L R xs : List ℕ} {new x : ℕ} (hs : s.IsTrading)
    (hrep : LevelsRep b s (L ++ R)) (hsplit : L ++ R = x :: xs) (hside : (b.level new).side_ = s)
    (hprice : ∀ l ∈ L ++ R, (b.level l).price_ ≠ (b.level new).price_)
    (hL : ∀ l ∈ L, ¬ b.Listed s new l) (hR : ∀ l ∈ R.head?, b.Listed s new l)
    (hsize : (L ++ R).length ≤ b.orders_at_price_pool_.size) :
    b.findTarget new x = .ok (R.head?.getD x, R.isEmpty) := by
  -- the test of the code is the listing order
  have hworse : ∀ l, b.isWorse new l = true ↔ b.Listed s l new := by
    intro l
    simp only [isWorse, hside, Side.worse_eq_better, Listed]
  have hLw : ∀ l ∈ L, b.isWorse new l = true := fun l hl =>
    (hworse l).mpr ((Side.better_total hs (hprice l (by simp [hl]))).resolve_right (hL l hl))
  have hRw : ∀ l ∈ R.head?, b.isWorse new l = false := fun l hl => by
    have hb := Side.better_asymm (hR l hl)
    simpa [hworse, Listed, ← Bool.not_eq_true] using hb
  exact findTarget_spec (hsplit ▸ hrep.ring) (hsplit ▸ hrep.nodup) (hsplit ▸ hsize) hsplit.symm
    hLw hRw

/-- **`addOrdersAtPrice` is sorted insertion**: into any well-formed list of a trading side, a
level of a price that is not in the list. -/
theorem addOrdersAtPrice_spec {s : Side} {ls : List ℕ} {new : ℕ} (hs : s.IsTrading)
    (hrep : LevelsRep b s ls) (hside : (b.level new).side_ = s) (hnew : new ∉ ls)
    (hprice : ∀ l ∈ ls, (b.level l).price_ ≠ (b.level new).price_)
    (hsize : ls.length ≤ b.orders_at_price_pool_.size) :
    ∃ b', b.addOrdersAtPrice new = .ok b' ∧ AddedLevel b b' s ls new := by
  by_cases hnil : ls = []
  · subst hnil
    exact addOrdersAtPrice_first hs hrep hside
  set b₀ := b.setOrdersAtPrice (b.level new).price_ (some new) with hb₀
  have hframe₀ : LevelFrame b b₀ := LevelFrame.setOrdersAtPrice ..
  have hrep₀ : LevelsRep b₀ s ls := hrep.congr rfl fun _ _ => rfl
  obtain ⟨L, R, rfl, hins, hL, hR⟩ := orderedInsert_split (r := b.Listed s) new ls
  obtain ⟨x, xs, hsplit⟩ := List.exists_cons_of_ne_nil hnil
  have hbest : b₀.best s = some x := by rw [hrep₀.head, hsplit]; rfl
  have hfind : b₀.findTarget new x = .ok (R.head?.getD x, R.isEmpty) :=
    findTarget_sorted hs hrep₀ hsplit hside hprice hL hR hsize
  -- the neighbours of the new level
  have hne : R ++ L ≠ [] := fun he => hnil (by simpa [and_comm] using he)
  obtain ⟨v, ws, init, u, hv, hu, hv_mem', hu_mem'⟩ := exists_ends hne
  have hu_mem : u ∈ L ++ R := List.perm_append_comm.subset hu_mem'
  have hv_mem : v ∈ L ++ R := List.perm_append_comm.subset hv_mem'
  have hun : u ≠ new := fun he => hnew (he ▸ hu_mem)
  have hvn : v ≠ new := fun he => hnew (he ▸ hv_mem)
  have hring₀ := IsRing.append_comm.mp hrep₀.ring
  rw [hv] at hring₀
  obtain ⟨hnext, hprev⟩ : (b₀.level u).next_entry_ = some v ∧ (b₀.level v).prev_entry_ = some u :=
    hring₀.closing (hv.symm.trans hu)
  have hother : ∀ {b₁ : LimitBook I K}, Spliced b₀ b₁ u new v → ∀ l, l ≠ new → l ∉ L ++ R →
      b₁.level l = b.level l := fun h₁ l hln hl =>
    h₁.level_other (fun he => hl (he ▸ hu_mem)) hln (fun he => hl (he ▸ hv_mem))
  cases R with
  | nil =>
    -- behind the last level
    obtain rfl : x = v := by
      rw [List.append_nil] at hsplit
      rw [List.nil_append, hsplit] at hv
      exact (List.cons.inj hv).1
    obtain ⟨b₁, hrun, h₁⟩ := linkAfter_spec b₀ hun hvn hnext
    refine ⟨b₁, ?_, hframe₀.trans h₁.frame, ?_, fun s' _ _ => h₁.best s', h₁.slots, hother h₁⟩
    · simp only [addOrdersAtPrice, hside, ← hb₀, hbest, hfind]
      simp [hprev, hrun]
    · rw [hins]
      refine h₁.levelsRep hs hrep₀ hv hu hnew hside hprice hins ?_ fun _ => rfl
      rw [h₁.best, hbest]
      rw [List.append_nil] at hsplit
      simp [hsplit]
  | cons r R =>
    -- in front of the first level that is not better
    obtain rfl : v = r := by
      rw [List.cons_append] at hv
      exact (List.cons.inj hv).1.symm
    obtain ⟨b₁, hrun, h₁⟩ := linkBefore_spec b₀ hun hvn hprev
    have hnew₁ : (b₁.level new).price_ = (b.level new).price_ := h₁.frame.price new
    have hx₁ : (b₁.level x).price_ = (b.level x).price_ := h₁.frame.price x
    cases L with
    | nil =>
      -- the new level is the best one; the code's write to `target->next_entry_` has no effect
      obtain rfl : v = x := (List.cons.inj hsplit).1
      have hbetter : s.better (b₁.level new).price_ (b₁.level v).price_ = true := by
        rw [hnew₁, hx₁]
        exact hR v rfl
      set b₂ := b₁.modLevel v fun e =>
        { e with next_entry_ := if e.next_entry_ = some v then some new else e.next_entry_ }
        with hb₂
      have hself : (b₁.level v).next_entry_ ≠ some v := by
        intro hself
        have hring₁ := h₁.isRing hrep₀.ring hrep.nodup hv hu hnew
        have halone := (IsRing.next_self_iff (L := [new]) hring₁
          (List.nodup_cons.mpr ⟨hnew, hrep.nodup⟩)).mp hself
        exact List.cons_ne_nil _ _ halone.1
      have hlevel : ∀ l, ((b₂.setBest s (some new)).level l) = b₁.level l := by
        intro l
        by_cases hl : l = v
        · subst hl
          simp [hb₂, hself]
        · simp [hb₂, hl]
      refine ⟨b₂.setBest s (some new), ?run, ?frame, ?rep, ?best_other, ?slots, ?level_other⟩
      case run =>
        simp only [addOrdersAtPrice, hside, ← hb₀, hbest, hfind]
        simp [hrun, hbetter, hb₂]
      case frame =>
        have h₂ : LevelFrame b₀ b₂ :=
          h₁.frame.modLevel (fun _ => rfl) (fun _ => rfl) fun _ => rfl
        exact (hframe₀.trans h₂).trans (LevelFrame.setBest ..)
      case rep =>
        rw [hins]
        exact h₁.levelsRep hs hrep₀ hv hu hnew hside hprice hins (best_setBest_self ..) hlevel
      case best_other =>
        intro s' hs' hne'
        rw [best_setBest_ne _ hs hs' hne', hb₂, best_modLevel, h₁.best]
        rfl
      case slots =>
        rcases hs with rfl | rfl <;> exact h₁.slots
      case level_other =>
        intro l hln hl
        rw [hlevel]
        exact hother h₁ l hln hl
    | cons y L =>
      -- some level is better, and the head stays
      obtain rfl : y = x := (List.cons.inj hsplit).1
      have hnot : s.better (b₁.level new).price_ (b₁.level y).price_ = false := by
        rw [hnew₁, hx₁, ← Bool.not_eq_true]
        exact hL y (List.mem_cons_self ..)
      refine ⟨b₁, ?_, hframe₀.trans h₁.frame, ?_, fun s' _ _ => h₁.best s', h₁.slots, hother h₁⟩
      · simp only [addOrdersAtPrice, hside, ← hb₀, hbest, hfind]
        simp [hrun, hnot]
      · rw [hins]
        refine h₁.levelsRep hs hrep₀ hv hu hnew hside hprice hins ?_ fun _ => rfl
        rw [h₁.best, hbest]
        rfl

/-! ## Removing a level -/

/-- What unlinking level `l` from its side did. -/
structure UnlinkedLevel (b b' : LimitBook I K) (s : Side) (ls : List ℕ) (l : ℕ) : Prop where
  frame : LevelFrame b b'
  rep : LevelsRep b' s (ls.erase l)
  best_other : ∀ s', s'.IsTrading → s' ≠ s → b'.best s' = b.best s'
  slots : b'.price_orders_at_price_ = b.price_orders_at_price_
  level_other : ∀ k, k ∉ ls → b'.level k = b.level k

theorem setBest_slots (b : LimitBook I K) (s : Side) (l : Option ℕ) :
    (b.setBest s l).price_orders_at_price_ = b.price_orders_at_price_ := by
  unfold setBest
  split <;> rfl

/-- The only level of its side is its own neighbour. -/
theorem unlinkLevel_only {s : Side} {l : ℕ} (hs : s.IsTrading) (hrep : LevelsRep b s [l]) :
    b.unlinkLevel s l = .ok (b.setBest s none) ∧
      UnlinkedLevel b (b.setBest s none) s [l] l := by
  have hnext : (b.level l).next_entry_ = some l := (IsRing.singleton_iff.mp hrep.ring).1
  refine ⟨by simp [unlinkLevel, hnext], LevelFrame.setBest .., ?_, ?_, setBest_slots ..,
    fun k _ => level_setBest ..⟩
  · rw [List.erase_cons_head]
    exact ⟨best_setBest_self .., IsRing.nil, by simp, List.Pairwise.nil⟩
  · intro s' hs' hne'
    exact best_setBest_ne b hs hs' hne' none

theorem unlinkLevel_spec {s : Side} {ls : List ℕ} {l : ℕ} (hs : s.IsTrading)
    (hrep : LevelsRep b s ls) (hl : l ∈ ls) :
    ∃ b', b.unlinkLevel s l = .ok b' ∧ UnlinkedLevel b b' s ls l := by
  have hnd := hrep.nodup
  by_cases hne : ls.erase l = []
  · obtain rfl : ls = [l] := by
      have hlen := List.length_erase_of_mem hl
      rw [hne, List.length_nil] at hlen
      obtain ⟨x, rfl⟩ := List.length_eq_one_iff.mp
        (show ls.length = 1 by have := List.length_pos_of_mem hl; omega)
      rw [List.mem_singleton.mp hl]
    exact ⟨_, unlinkLevel_only hs hrep⟩
  obtain ⟨u, v, h⟩ := hrep.ring.exists_unlinking hnd hl hne
  have hnext : (b.level l).next_entry_ = some v := h.next_eq
  have hprev : (b.level l).prev_entry_ = some u := h.prev_eq
  have hl_not : l ∉ ls.erase l := hnd.not_mem_erase
  have hlu : l ≠ u := fun he => hl_not (he ▸ h.prev_mem)
  have hlv : l ≠ v := fun he => hl_not (he ▸ h.next_mem)
  have hnot_self : (b.level l).next_entry_ ≠ some l := by
    rw [hnext]
    exact fun he => hlv (Option.some.inj he).symm
  -- the four writes of the code, the third only when the best level is unlinked
  set b₁ := b.modLevel u fun e => { e with next_entry_ := (b.level l).next_entry_ } with hb₁
  set b₂ := b₁.modLevel v fun e => { e with prev_entry_ := (b₁.level l).prev_entry_ } with hb₂
  set b₃ := if b.best s = some l then b₂.setBest s (b₂.level l).next_entry_ else b₂ with hb₃
  set b₄ := b₃.modLevel l fun e => { e with prev_entry_ := none, next_entry_ := none } with hb₄
  have hnext₁ : (b₁.level l).next_entry_ = some v := by simp [hb₁, hlu, hnext]
  have hnext₂ : (b₂.level l).next_entry_ = some v := by simp [hb₂, hlv, hnext₁]
  have hlevel₃ : ∀ k, b₃.level k = b₂.level k := by
    intro k
    rw [hb₃]
    split
    · simp
    · rfl
  have hframe₂ : LevelFrame b b₂ := by
    iterate 2 refine LevelFrame.modLevel ?_ (fun _ => rfl) (fun _ => rfl) (fun _ => rfl)
    exact LevelFrame.refl b
  have hframe₃ : LevelFrame b b₃ := by
    rw [hb₃]
    split
    · exact hframe₂.trans (LevelFrame.setBest ..)
    · exact hframe₂
  have hframe : LevelFrame b b₄ := hframe₃.modLevel (fun _ => rfl) (fun _ => rfl) fun _ => rfl
  have hnext₄ : ∀ k, k ≠ l → (b₄.level k).next_entry_ =
      if k = u then some v else (b.level k).next_entry_ := by
    intro k hk
    simp only [hb₄, level_modLevel, hk, if_false, hlevel₃, hb₂, hb₁, hnext]
    grind
  have hprev₄ : ∀ k, k ≠ l → (b₄.level k).prev_entry_ =
      if k = v then some u else (b.level k).prev_entry_ := by
    intro k hk
    simp only [hb₄, level_modLevel, hk, if_false, hlevel₃, hb₂, hb₁]
    grind
  refine ⟨b₄, ?run, hframe, ⟨?head, ?ring, ?side, ?sorted⟩, ?best_other, ?slots, ?level_other⟩
  case run =>
    simp only [unlinkLevel, hnot_self, if_false, hprev, deref_some, ok_bind, ← hb₁, hnext₁]
    rfl
  case head =>
    -- the head follows the list, whether or not it was unlinked
    rw [hb₄, best_modLevel, hb₃]
    by_cases hbest : b.best s = some l
    · rw [if_pos hbest, best_setBest_self, hnext₂, h.head (hrep.head ▸ hbest)]
    · rw [if_neg hbest, h.head_other (hrep.head ▸ hbest), ← hrep.head]
      rfl
  case ring =>
    refine h.ring ?_ ?_ ?_ ?_
    · simp [hnext₄ u hlu.symm]
    · simp [hprev₄ v hlv.symm]
    · intro k hkl hku
      simp [hnext₄ k hkl, hku]
    · intro k hkl hkv
      simp [hprev₄ k hkl, hkv]
  case side =>
    intro k hk
    rw [hframe.side]
    exact hrep.side k (List.mem_of_mem_erase hk)
  case sorted =>
    refine (hrep.sorted.sublist List.erase_sublist).imp fun {j k} hjk => ?_
    rw [hframe.price, hframe.price]
    exact hjk
  case best_other =>
    intro s' hs' hne'
    rw [hb₄, best_modLevel, hb₃]
    split
    · rw [best_setBest_ne _ hs hs' hne']
      rfl
    · rfl
  case slots =>
    rw [hb₄]
    change b₃.price_orders_at_price_ = _
    rw [hb₃]
    split
    · rw [setBest_slots]
      rfl
    · rfl
  case level_other =>
    intro k hk
    have hkl : k ≠ l := fun he => hk (he ▸ hl)
    have hku : k ≠ u := fun he => hk (he ▸ List.mem_of_mem_erase h.prev_mem)
    have hkv : k ≠ v := fun he => hk (he ▸ List.mem_of_mem_erase h.next_mem)
    exact OrdersAtPrice.ext (hframe.side k) (hframe.price k) (hframe.first k)
      (by simp [hprev₄ k hkl, hkv]) (by simp [hnext₄ k hkl, hku])

/-- What removing level `l` did: out of the list, out of its price slot, back in the pool. -/
structure RemovedLevel (b b' : LimitBook I K) (s : Side) (ls : List ℕ) (l : ℕ) : Prop where
  order_pool : b'.order_pool_ = b.order_pool_
  keys : b'.key_to_order_ = b.key_to_order_
  used : b'.orders_at_price_pool_.used = b.orders_at_price_pool_.used.erase l
  size : b'.orders_at_price_pool_.size = b.orders_at_price_pool_.size
  wf : b'.orders_at_price_pool_.WF
  price : ∀ k, (b'.level k).price_ = (b.level k).price_
  first : ∀ k, (b'.level k).first_order_ = (b.level k).first_order_
  rep : LevelsRep b' s (ls.erase l)
  best_other : ∀ s', s'.IsTrading → s' ≠ s → b'.best s' = b.best s'
  slots : b'.price_orders_at_price_ = fun i =>
    if i = priceToIndex (b.level l).price_ then none else b.price_orders_at_price_ i
  level_other : ∀ k, k ∉ ls → b'.level k = b.level k

/-- A call unlinks the level its price slot leads to, clears the slot and frees the block. -/
theorem removeOrdersAtPrice_eq {s : Side} {ls : List ℕ} {l : ℕ} {price : ℤ} (hs : s.IsTrading)
    (hrep : LevelsRep b s ls) (hl : l ∈ ls) (hslot : b.getOrdersAtPrice price = some l)
    (hused : l ∈ b.orders_at_price_pool_.used) :
    ∃ b₁, UnlinkedLevel b b₁ s ls l ∧ b.removeOrdersAtPrice s price =
      .ok { b₁.setOrdersAtPrice price none with
        orders_at_price_pool_ := b₁.orders_at_price_pool_.setFree l true } := by
  obtain ⟨b₁, hrun, h₁⟩ := unlinkLevel_spec hs hrep hl
  have hfree : (b₁.setOrdersAtPrice price none).orders_at_price_pool_.deallocate l =
      .ok (b₁.orders_at_price_pool_.setFree l true) :=
    MemPool.deallocate_used (h₁.frame.used ▸ hused)
  refine ⟨b₁, h₁, ?_⟩
  simp [removeOrdersAtPrice, hslot, hrun, hfree]

/-- **`removeOrdersAtPrice` is removal from the list**: of any level of a well-formed side that
its price slot leads to. -/
theorem removeOrdersAtPrice_spec {s : Side} {ls : List ℕ} {l : ℕ} {price : ℤ} (hs : s.IsTrading)
    (hrep : LevelsRep b s ls) (hl : l ∈ ls) (hprice : (b.level l).price_ = price)
    (hslot : b.getOrdersAtPrice price = some l) (hwf : b.orders_at_price_pool_.WF)
    (hused : l ∈ b.orders_at_price_pool_.used) :
    ∃ b', b.removeOrdersAtPrice s price = .ok b' ∧ RemovedLevel b b' s ls l := by
  obtain ⟨b₁, h₁, hrun⟩ := removeOrdersAtPrice_eq hs hrep hl hslot hused
  obtain ⟨_, hwf₂, hused₂⟩ :=
    MemPool.deallocate_spec (h₁.frame.wf hwf) (h₁.frame.used ▸ hused)
  set b₂ : LimitBook I K := { b₁.setOrdersAtPrice price none with
    orders_at_price_pool_ := b₁.orders_at_price_pool_.setFree l true }
  have hlevel : ∀ k, b₂.level k = b₁.level k := fun k => MemPool.get_setFree ..
  refine ⟨b₂, hrun, h₁.frame.order_pool, h₁.frame.keys, ?_, h₁.frame.size, hwf₂, ?_, ?_,
    h₁.rep.congr rfl fun k _ => hlevel k, h₁.best_other, ?_, ?_⟩
  · rw [← h₁.frame.used]
    exact hused₂
  · intro k
    rw [hlevel, h₁.frame.price]
  · intro k
    rw [hlevel, h₁.frame.first]
  · rw [hprice, ← h₁.slots]
    rfl
  · intro k hk
    rw [hlevel, h₁.level_other k hk]

end LimitBook

end TradingEcosystem
