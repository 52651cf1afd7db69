import TradingEcosystem.Book.View

/-!
# Printing a Limit Order Book

`toString` of `exchange/matcher/me_order_book.cpp` and of `trading/strategy/market_order_book.cpp`,
which the two destructors call with the validity check on.  The check stops the process when the
levels of a side are not sorted.  The two functions differ in the id they print of an order.

- `toString` : the loops of the source
- `dump` : the text, from the levels a reader finds
- `toString_spec` : a book prints its levels, and what the check makes of it
-/

namespace TradingEcosystem

open Lib.Ring

/-! ## Numbers -/

/-- A number, or the word for the one that marks a missing value. -/
def textOf {α : Type} [DecidableEq α] [ToString α] (invalid x : α) : String :=
  if x = invalid then "INVALID" else ToString.toString x

def orderIdToString (order_id : ℕ) : String := textOf OrderId_INVALID order_id
def tickerIdToString (ticker_id : ℕ) : String := textOf TickerId_INVALID ticker_id
def priceToString (price : ℤ) : String := textOf Price_INVALID price
def qtyToString (qty : ℕ) : String := textOf Qty_INVALID qty

/-- `%3s`: filled up with spaces in front. -/
def padLeft (width : ℕ) (s : String) : String := "".pushn ' ' (width - s.length) ++ s

/-- `%-3s`: filled up with spaces behind. -/
def padRight (width : ℕ) (s : String) : String := s.pushn ' ' (width - s.length)

/-! ## Rows -/

/-- What is printed of an order's data. -/
class OrderText (I : Type) where
  order_id : I → ℕ
  qty : I → ℕ

section rows

variable {I : Type} [OrderText I]

/-- `"[oid:%s q:%s p:%s n:%s] "`; the neighbours may be missing. -/
def orderRow (order : I) (prev next : Option I) : String :=
  let id (order : Option I) := orderIdToString ((order.map OrderText.order_id).getD OrderId_INVALID)
  "[oid:" ++ orderIdToString (OrderText.order_id order) ++ " q:" ++
    qtyToString (OrderText.qty order) ++ " p:" ++ id prev ++ " n:" ++ id next ++ "] "

/-- `" <px:%3s p:%3s n:%3s> %-3s @ %-5s(%-4s)"`. -/
def levelHead (price prev_price next_price : ℤ) (qty num_orders : ℕ) : String :=
  " <px:" ++ padLeft 3 (priceToString price) ++ " p:" ++ padLeft 3 (priceToString prev_price) ++
    " n:" ++ padLeft 3 (priceToString next_price) ++ "> " ++ padRight 3 (priceToString price) ++
    " @ " ++ padRight 5 (qtyToString qty) ++ "(" ++
    padRight 4 (ToString.toString num_orders) ++ ")"

/-- What the first loop of `printer` adds up, order by order. -/
def countOrder (sum : ℕ × ℕ) (order : I) : ℕ × ℕ :=
  ((sum.1 + OrderText.qty order) % 2 ^ 32, sum.2 + 1)

/-- The line of a level: its orders, and the prices of the levels before and after it. -/
def levelRow (detailed : Bool) (g : ℤ × List I) (prev_price next_price : ℤ) : String :=
  let sum := g.2.foldl countOrder (0, 0)
  let rows := (around g.2).map fun x => orderRow x.1 (some x.2.1) (some x.2.2)
  levelHead g.1 prev_price next_price sum.1 sum.2 ++
    (if detailed then String.join rows else "") ++ "\n"

/-- The lines of a side, numbered from 0 on. -/
def sideRows (detailed : Bool) (label : String) (levels : List (ℤ × List I)) : String :=
  String.join ((around levels).zipIdx.map fun x => label ++ ToString.toString x.2 ++ " => " ++
    levelRow detailed x.1.1 x.1.2.1.1 x.1.2.2.1)

/-- What a book with these levels prints. -/
def dump (ticker_id : ℕ) (detailed : Bool) (asks bids : List (ℤ × List I)) : String :=
  "Ticker:" ++ tickerIdToString ticker_id ++ "\n" ++ sideRows detailed "ASKS L:" asks ++
    ("\n" ++ "                          X" ++ "\n" ++ "\n") ++ sideRows detailed "BIDS L:" bids

end rows

/-! ## The loops -/

namespace LimitBook

variable {I K : Type} (b : LimitBook I K)

/-- A loop of `printer` over the orders of a level, from `o_itr` to the order before `first`. -/
def forOrders {σ : Type} (first : ℕ) (body : σ → ℕ → σ) : ℕ → ℕ → σ → Except Fault σ
  | 0, _, _ => .error .diverges
  | fuel + 1, o_itr, acc =>
    if (b.order o_itr).next_order_ = some first then
      .ok (body acc o_itr)
    else do
      let next ← deref (b.order o_itr).next_order_
      forOrders first body fuel next (body acc o_itr)

section forOrders

variable {b}

/-- The loop over the orders is a fold; induction on the orders still to come. -/
theorem forOrders_suffix {σ : Type} {body : σ → ℕ → σ} {first : ℕ} {os : List ℕ}
    (hring : IsRing b.nextOrder b.prevOrder (first :: os)) (hnd : (first :: os).Nodup)
    {suf : List ℕ} : ∀ {pre : List ℕ} {o : ℕ} {acc : σ} {fuel : ℕ},
      first :: os = pre ++ o :: suf → suf.length < fuel →
      b.forOrders first body fuel o acc = .ok ((o :: suf).foldl body acc) := by
  induction suf with
  | nil =>
    intro pre o acc fuel hsplit hfuel
    obtain ⟨n, rfl⟩ : ∃ n, fuel = n + 1 := ⟨fuel - 1, by omega⟩
    have hnext : (b.order o).next_order_ = some first := hring.next_of_split hsplit
    rw [forOrders, if_pos hnext]
    rfl
  | cons y suf ih =>
    intro pre o acc fuel hsplit hfuel
    obtain ⟨n, rfl⟩ : ∃ n, fuel = n + 1 := ⟨fuel - 1, by omega⟩
    have hnext : (b.order o).next_order_ = some y := hring.next_of_split hsplit
    -- the next order is not the first one again
    have hy : y ≠ first := ne_head_of_split hnd hsplit
    have hsplit' : first :: os = (pre ++ [o]) ++ y :: suf := by simpa using hsplit
    have hne : ¬ (b.order o).next_order_ = some first := by
      rw [hnext]
      exact fun heq => hy (Option.some.inj heq)
    rw [forOrders, if_neg hne, hnext]
    exact ih hsplit' (by simpa using hfuel)

variable [OrderInfo I K] {sh : Shape} {unique : Prop}

/-- A queue is no longer than its pool. -/
theorem Stored.length_queue_le (h : Stored unique b sh) {s : Side} (hs : s.IsTrading) {l : ℕ}
    (hl : l ∈ sh.levels s) : (sh.queue l).length ≤ b.order_pool_.size := by
  have hsub : (sh.queue l).Sublist (sh.flat s) := by
    rw [Shape.flat, List.flatMap_def]
    exact List.sublist_flatten_of_mem (List.mem_map_of_mem hl)
  have hlen : (sh.flat s).length ≤ sh.orders.length := Shape.length_flat_le hs
  have hcard := h.order_wf.used_card_lt
  rw [h.order_card] at hcard
  exact hsub.length_le.trans (hlen.trans (by omega))

/-- The loop over the orders of a level visits its queue. -/
theorem Stored.forOrders_eq {σ : Type} {body : σ → ℕ → σ} (h : Stored unique b sh) {s : Side}
    (hs : s.IsTrading) {l first : ℕ} (hl : l ∈ sh.levels s)
    (hfirst : (b.level l).first_order_ = some first) (acc : σ) :
    b.forOrders first body (b.order_pool_.size + 1) first acc =
      .ok ((sh.queue l).foldl body acc) := by
  have hq := h.queues s hs l hl
  have hlen := h.length_queue_le hs hl
  have hhead := hq.first
  cases hos : sh.queue l with
  | nil => exact absurd hos hq.ne_nil
  | cons o os =>
    rw [hos, hfirst] at hhead
    obtain rfl : first = o := Option.some.inj hhead
    rw [hos, List.length_cons] at hlen
    exact forOrders_suffix (hos ▸ hq.ring) (hos ▸ hq.nodup) (List.nil_append _).symm (by omega)

/-- The data of the orders of a level. -/
def queueInfos (b : LimitBook I K) (sh : Shape) (l : ℕ) : List I :=
  (sh.queue l).map fun o => (b.order o).info

theorem Stored.levelsView_eq (h : Stored unique b sh) {s : Side} (hs : s.IsTrading) :
    b.levelsView s = (sh.levels s).map fun l => ((b.level l).price_, queueInfos b sh l) := by
  rw [levelsView, h.levelList_eq hs]
  exact List.map_congr_left fun l hl => by rw [h.queueList_eq hs hl, queueInfos]

end forOrders

variable [OrderText I]

/-- What `detailed` prints of an order. -/
def orderRowAt (o_itr : ℕ) : String :=
  orderRow (b.order o_itr).info ((b.order o_itr).prev_order_.map fun o => (b.order o).info)
    ((b.order o_itr).next_order_.map fun o => (b.order o).info)

/-- The levels are not in order at a level of this price. -/
def Unsorted (side : Side) (last_price price : ℤ) : Prop :=
  (side = .SELL ∧ last_price ≥ price) ∨ (side = .BUY ∧ last_price ≤ price)

instance (side : Side) (last_price price : ℤ) : Decidable (Unsorted side last_price price) :=
  inferInstanceAs (Decidable (_ ∨ _))

/-- The `printer` of a level; returns `ss` and `last_price`. -/
def printer (detailed sanity_check : Bool) (ss : String) (itr : ℕ) (side : Side)
    (last_price : ℤ) : Except Fault (String × ℤ) := do
  let first ← deref (b.level itr).first_order_
  let fuel := b.order_pool_.size + 1
  let sum ← b.forOrders first (fun sum o => countOrder sum (b.order o).info) fuel first (0, 0)
  let prev ← deref (b.level itr).prev_entry_
  let next ← deref (b.level itr).next_entry_
  let head := levelHead (b.level itr).price_ (b.level prev).price_ (b.level next).price_ sum.1 sum.2
  let ss ← b.forOrders first (fun ss o => if detailed then ss ++ b.orderRowAt o else ss) fuel first
    (ss ++ head)
  if sanity_check then
    if Unsorted side last_price (b.level itr).price_ then .error .assert
    else .ok (ss ++ "\n", (b.level itr).price_)
  else
    .ok (ss ++ "\n", last_price)

/-- The loop over the levels of a side. -/
def printLevels (detailed validity_check : Bool) (side : Side) (label : String) :
    ℕ → ℕ → Option ℕ → ℤ → String → Except Fault String
  | _, _, none, _, ss => .ok ss
  | 0, _, some _, _, _ => .error .diverges
  | fuel + 1, count, some itr, last_price, ss => do
    let ss := ss ++ (label ++ ToString.toString count ++ " => ")
    let next := if (b.level itr).next_entry_ = b.best side then none else (b.level itr).next_entry_
    let (ss, last_price) ← b.printer detailed validity_check ss itr side last_price
    printLevels detailed validity_check side label fuel (count + 1) next last_price ss

/-- `std::numeric_limits<Price>::min()`. -/
def minPrice : ℤ := -2 ^ 63

/-- `std::numeric_limits<Price>::max()`, which is the invalid price. -/
def maxPrice : ℤ := 2 ^ 63 - 1

/-- `toString`. -/
def toString (ticker_id : ℕ) (detailed validity_check : Bool) : Except Fault String := do
  let fuel := b.orders_at_price_pool_.size
  let ss := "Ticker:" ++ tickerIdToString ticker_id ++ "\n"
  let ss ← b.printLevels detailed validity_check .SELL "ASKS L:" fuel 0 (b.best .SELL) minPrice ss
  let ss := ss ++ ("\n" ++ "                          X" ++ "\n" ++ "\n")
  b.printLevels detailed validity_check .BUY "BIDS L:" fuel 0 (b.best .BUY) maxPrice ss

/-! ## What the loops print -/

section spec

variable {b}

theorem foldl_append_eq {α : Type} (f : α → String) (xs : List α) (ss : String) :
    xs.foldl (fun ss x => ss ++ f x) ss = ss ++ String.join (xs.map f) := by
  induction xs generalizing ss with
  | nil => simp
  | cons x xs ih => rw [List.foldl_cons, ih, List.map_cons, String.join_cons, String.append_assoc]

theorem foldl_countOrder (xs : List ℕ) (sum : ℕ × ℕ) :
    xs.foldl (fun sum o => countOrder sum (b.order o).info) sum =
      (xs.map fun o => (b.order o).info).foldl countOrder sum := by
  rw [List.foldl_map]

variable [OrderInfo I K] {sh : Shape} {unique : Prop}

/-- What is printed of the orders of a level. -/
theorem Stored.orderRows_eq (h : Stored unique b sh) {s : Side} (hs : s.IsTrading) {l : ℕ}
    (hl : l ∈ sh.levels s) : (sh.queue l).map b.orderRowAt =
      (around (queueInfos b sh l)).map fun x => orderRow x.1 (some x.2.1) (some x.2.2) := by
  have hq := h.queues s hs l hl
  rw [queueInfos, around_map, List.map_map]
  conv_lhs => rw [← map_fst_around (sh.queue l), List.map_map]
  apply List.map_congr_left
  intro x hx
  obtain ⟨hnext, hprev⟩ := hq.ring.of_mem_around hx
  have hnext' : (b.order x.1).next_order_ = some x.2.2 := hnext
  have hprev' : (b.order x.1).prev_order_ = some x.2.1 := hprev
  simp only [Function.comp_apply, orderRowAt, hnext', hprev', Option.map_some]

/-- **The line of a level**, and the validity check of its price. -/
theorem Stored.printer_eq (h : Stored unique b sh) {s : Side} (hs : s.IsTrading)
    {x : ℕ × ℕ × ℕ} (hx : x ∈ around (sh.levels s)) (detailed check : Bool) (ss : String)
    (last_price : ℤ) :
    b.printer detailed check ss x.1 s last_price =
      if check = true ∧ Unsorted s last_price (b.level x.1).price_ then .error .assert
      else .ok (ss ++ levelRow detailed ((b.level x.1).price_, queueInfos b sh x.1)
          (b.level x.2.1).price_ (b.level x.2.2).price_,
        if check then (b.level x.1).price_ else last_price) := by
  have hl : x.1 ∈ sh.levels s := by
    rw [← map_fst_around (sh.levels s)]
    exact List.mem_map_of_mem hx
  obtain ⟨hnext, hprev⟩ := (h.levels s hs).ring.of_mem_around hx
  have hq := h.queues s hs x.1 hl
  obtain ⟨first, os, hos⟩ := List.exists_cons_of_ne_nil hq.ne_nil
  have hfirst : (b.level x.1).first_order_ = some first := by rw [hq.first, hos]; rfl
  have hrows : ∀ ss : String, (sh.queue x.1).foldl
      (fun ss o => if detailed then ss ++ b.orderRowAt o else ss) ss =
      ss ++ (if detailed then String.join ((sh.queue x.1).map b.orderRowAt) else "") := by
    intro ss
    cases detailed with
    | true => exact foldl_append_eq b.orderRowAt _ ss
    | false => simp
  simp only [printer, hfirst, hnext, hprev, deref, ok_bind, h.forOrders_eq hs hl hfirst, hrows,
    foldl_countOrder, h.orderRows_eq hs hl]
  cases check with
  | false => simp [levelRow, queueInfos, String.append_assoc]
  | true =>
    by_cases hunsorted : Unsorted s last_price (b.level x.1).price_
    · simp [hunsorted]
    · simp [hunsorted, levelRow, queueInfos, String.append_assoc]

/-- The line of a level in the numbered list of its side. -/
def numberedRow (b : LimitBook I K) (sh : Shape) (detailed : Bool) (label : String)
    (x : (ℕ × ℕ × ℕ) × ℕ) : String :=
  label ++ ToString.toString x.2 ++ " => " ++
    levelRow detailed ((b.level x.1.1).price_, queueInfos b sh x.1.1) (b.level x.1.2.1).price_
      (b.level x.1.2.2).price_

/-- A level that comes later is in order too. -/
theorem unsorted_of_better {s : Side} (hs : s.IsTrading) {last_price price price' : ℤ}
    (hbetter : s.better price price' = true) (h : Unsorted s last_price price') :
    Unsorted s last_price price := by
  rcases hs with rfl | rfl <;> simp [Side.better, Unsorted] at hbetter h ⊢ <;> omega

theorem not_unsorted_of_better {s : Side} {price price' : ℤ}
    (hbetter : s.better price price' = true) : ¬ Unsorted s price price' := by
  rintro (⟨rfl, hle⟩ | ⟨rfl, hle⟩) <;> simp [Side.better] at hbetter <;> omega

/-- **The lines of a side**; induction on the levels still to come. -/
theorem Stored.printLevels_suffix (h : Stored unique b sh) {s : Side} (hs : s.IsTrading)
    (detailed check : Bool) (label : String) {suf : List (ℕ × ℕ × ℕ)} :
    ∀ {pre : List (ℕ × ℕ × ℕ)} {fuel count : ℕ} {last_price : ℤ} {ss : String},
      around (sh.levels s) = pre ++ suf → suf.length ≤ fuel →
      b.printLevels detailed check s label fuel count (suf.map Prod.fst).head? last_price ss =
        if check = true ∧ ∃ x ∈ suf, Unsorted s last_price (b.level x.1).price_ then
          .error .assert
        else
          .ok (ss ++ String.join ((suf.zipIdx count).map (numberedRow b sh detailed label))) := by
  induction suf with
  | nil =>
    intro pre fuel count last_price ss _ _
    simp [printLevels]
  | cons x suf ih =>
    intro pre fuel count last_price ss hsplit hfuel
    obtain ⟨n, rfl⟩ : ∃ n, fuel = n + 1 := ⟨fuel - 1, by simp at hfuel; omega⟩
    have hx : x ∈ around (sh.levels s) := by
      rw [hsplit]
      exact List.mem_append_right _ (List.mem_cons_self ..)
    have hlevels : sh.levels s = pre.map Prod.fst ++ x.1 :: suf.map Prod.fst := by
      rw [← map_fst_around (sh.levels s), hsplit, List.map_append, List.map_cons]
    have hnext : (if (b.level x.1).next_entry_ = b.best s then none
        else (b.level x.1).next_entry_) = (suf.map Prod.fst).head? := by
      have hrep := h.levels s hs
      obtain ⟨v, ws, hvs⟩ := List.exists_cons_of_ne_nil (l := sh.levels s) (by simp [hlevels])
      have hbest : b.best s = some v := by rw [hrep.head, hvs]; rfl
      have hsplit' := hvs.symm.trans hlevels
      have hnextx : (b.level x.1).next_entry_ = (suf.map Prod.fst ++ [v]).head? :=
        IsRing.next_of_split (hvs ▸ hrep.ring) hsplit'
      cases hsuf : suf.map Prod.fst with
      | nil => simp [hnextx, hsuf, hbest]
      | cons y ys =>
        rw [hsuf] at hsplit'
        have hy : y ≠ v := ne_head_of_split (hvs ▸ hrep.nodup) hsplit'
        simp [hnextx, hsuf, hbest, hy]
    have hsplit' : around (sh.levels s) = (pre ++ [x]) ++ suf := by
      rw [hsplit, List.append_assoc, List.singleton_append]
    have hsorted := (h.levels s hs).sorted
    rw [hlevels, List.pairwise_append, List.pairwise_cons] at hsorted
    have hbetter : ∀ y ∈ suf, s.better (b.level x.1).price_ (b.level y.1).price_ = true :=
      fun y hy => hsorted.2.1.1 _ (List.mem_map_of_mem hy)
    simp only [List.map_cons, List.head?_cons, printLevels, hnext,
      h.printer_eq hs hx detailed check]
    by_cases hfail : check = true ∧ Unsorted s last_price (b.level x.1).price_
    · rw [if_pos hfail, if_pos ⟨hfail.1, x, List.mem_cons_self .., hfail.2⟩]
      rfl
    · -- the levels behind are in order when this one is
      have hrest : ¬ (check = true ∧ ∃ y ∈ suf, Unsorted s
          (if check = true then (b.level x.1).price_ else last_price) (b.level y.1).price_) := by
        rintro ⟨hcheck, y, hy, hunsorted⟩
        rw [if_pos hcheck] at hunsorted
        exact not_unsorted_of_better (hbetter y hy) hunsorted
      have hall : ¬ (check = true ∧ ∃ y ∈ x :: suf, Unsorted s last_price
          (b.level y.1).price_) := by
        rintro ⟨hcheck, y, hy, hunsorted⟩
        rcases List.mem_cons.mp hy with rfl | hy
        · exact hfail ⟨hcheck, hunsorted⟩
        · exact hfail ⟨hcheck, unsorted_of_better hs (hbetter y hy) hunsorted⟩
      rw [if_neg hfail, if_neg hall]
      simp only [ok_bind]
      rw [ih hsplit' (by simpa using hfuel), if_neg hrest]
      simp only [List.zipIdx_cons, List.map_cons, String.join_cons, numberedRow,
        String.append_assoc]

/-- The lines of a side are those of its levels. -/
theorem Stored.sideRows_eq (h : Stored unique b sh) {s : Side} (hs : s.IsTrading)
    (detailed : Bool) (label : String) :
    String.join ((around (sh.levels s)).zipIdx.map (numberedRow b sh detailed label)) =
      sideRows detailed label (b.levelsView s) := by
  rw [sideRows, h.levelsView_eq hs, around_map, List.zipIdx_map, List.map_map]
  rfl

/-- The loop over a side, with what the validity check makes of it. -/
theorem Stored.printLevels_eq (h : Stored unique b sh) {s : Side} (hs : s.IsTrading)
    (detailed check : Bool) (label : String) (last_price : ℤ) (ss : String) :
    b.printLevels detailed check s label b.orders_at_price_pool_.size 0 (b.best s) last_price ss =
      if check = true ∧ ∃ g ∈ b.levelsView s, Unsorted s last_price g.1 then .error .assert
      else .ok (ss ++ sideRows detailed label (b.levelsView s)) := by
  have hlen : (around (sh.levels s)).length ≤ b.orders_at_price_pool_.size := by
    have hle : (sh.levels s).length ≤ sh.all.length := Shape.length_levels_le hs
    have hcard := h.level_wf.used_card_lt
    rw [h.level_card] at hcard
    rw [← List.length_map (f := Prod.fst), map_fst_around]
    omega
  have hsame : (∃ x ∈ around (sh.levels s), Unsorted s last_price (b.level x.1).price_) ↔
      ∃ g ∈ b.levelsView s, Unsorted s last_price g.1 := by
    rw [h.levelsView_eq hs]
    constructor
    · rintro ⟨x, hx, hunsorted⟩
      have hl : x.1 ∈ sh.levels s := by
        rw [← map_fst_around (sh.levels s)]
        exact List.mem_map_of_mem hx
      exact ⟨_, List.mem_map_of_mem hl, hunsorted⟩
    · rintro ⟨g, hg, hunsorted⟩
      obtain ⟨l, hl, rfl⟩ := List.mem_map.mp hg
      rw [← map_fst_around (sh.levels s)] at hl
      obtain ⟨x, hx, rfl⟩ := List.mem_map.mp hl
      exact ⟨x, hx, hunsorted⟩
  have hhead : b.best s = ((around (sh.levels s)).map Prod.fst).head? := by
    rw [map_fst_around, (h.levels s hs).head]
  rw [hhead, h.printLevels_suffix hs detailed check label (List.nil_append _).symm hlen]
  simp only [hsame, h.sideRows_eq hs]

/-- A price at which the validity check stops the process, sorted or not. -/
def Extreme (b : LimitBook I K) : Prop :=
  (∃ g ∈ b.levelsView .SELL, g.1 ≤ minPrice) ∨ ∃ g ∈ b.levelsView .BUY, maxPrice ≤ g.1

instance (b : LimitBook I K) : Decidable b.Extreme := inferInstanceAs (Decidable (_ ∨ _))

/-- **What a book prints**: its levels, whatever the memory they are kept in; and the validity check
stops the process for nothing but a price at the end of the type's range. -/
theorem Stored.toString_eq (h : Stored unique b sh) (ticker_id : ℕ) (detailed check : Bool) :
    b.toString ticker_id detailed check =
      if check = true ∧ b.Extreme then .error .assert
      else .ok (dump ticker_id detailed (b.levelsView .SELL) (b.levelsView .BUY)) := by
  have hsell : ∀ price, Unsorted .SELL minPrice price ↔ price ≤ minPrice := by
    simp [Unsorted]
  have hbuy : ∀ price, Unsorted .BUY maxPrice price ↔ maxPrice ≤ price := by
    simp [Unsorted]
  simp only [toString, h.printLevels_eq (s := .SELL) (.inr rfl),
    h.printLevels_eq (s := .BUY) (.inl rfl), hsell, hbuy]
  by_cases hask : check = true ∧ ∃ g ∈ b.levelsView .SELL, g.1 ≤ minPrice
  · rw [if_pos hask, if_pos ⟨hask.1, .inl hask.2⟩]
    rfl
  · rw [if_neg hask, ok_bind]
    by_cases hbid : check = true ∧ ∃ g ∈ b.levelsView .BUY, maxPrice ≤ g.1
    · rw [if_pos hbid, if_pos ⟨hbid.1, .inr hbid.2⟩]
    · have hneither : ¬ (check = true ∧ b.Extreme) := by
        rintro ⟨hcheck, hextreme | hextreme⟩
        · exact hask ⟨hcheck, hextreme⟩
        · exact hbid ⟨hcheck, hextreme⟩
      rw [if_neg hbid, if_neg hneither]
      rfl

end spec

end LimitBook

end TradingEcosystem
