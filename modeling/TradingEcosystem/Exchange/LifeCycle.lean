import TradingEcosystem.Exchange.Runs

/-!
# The Life of an Order

What the clients are told about each order over a whole run, and how it relates to the book.

- `OrderStatus.next` : the responses an order may get, one after the other
- `openQty` : the quantity an id has in the book
- `sweep_history` : what a sweep tells about the orders it meets
- `Accounts` : the responses so far account for the book, kept by every admitted call
- `lifeCycle_run` : the law for every order of a run, and the sums of the traded quantities
-/

namespace TradingEcosystem

open LimitBook
open MEOrderBook (Call)

/-! ## Histories -/

/-- How far an order has got, as its client is told. -/
inductive OrderStatus where
  | requested (qty : ℕ)
  | working (leaves : ℕ)
  | canceled
  deriving DecidableEq, Repr

namespace OrderStatus

/-- The next response about an order: first `ACCEPTED` with the requested quantity, then `FILLED`
with a part of what is left, then at most one `CANCELED` with what is left.  A fill is never
larger than what is left, so the subtraction does not wrap. -/
def next : OrderStatus → MEClientResponse → Option OrderStatus
  | requested qty, r =>
    if r.type_ = .ACCEPTED ∧ r.exec_qty_ = 0 ∧ r.leaves_qty_ = qty then some (working qty) else none
  | working leaves, r =>
    -- an order filled in full stays in this state, with nothing left
    if r.type_ = .FILLED ∧ 0 < r.exec_qty_ ∧ r.exec_qty_ ≤ leaves ∧
        r.leaves_qty_ = leaves - r.exec_qty_ then
      some (working r.leaves_qty_)
    else if r.type_ = .CANCELED ∧ 0 < leaves ∧ r.leaves_qty_ = leaves then
      some canceled
    else
      none
  | canceled, _ => none

/-- The status after a sequence of responses, if each of them may come where it does. -/
def history (st : OrderStatus) (rs : List MEClientResponse) : Option OrderStatus :=
  rs.foldlM next st

theorem history_append (st : OrderStatus) (rs rs' : List MEClientResponse) :
    st.history (rs ++ rs') = (st.history rs).bind fun st => st.history rs' :=
  List.foldlM_append

@[simp] theorem history_nil (st : OrderStatus) : st.history [] = some st := rfl

theorem history_cons (st : OrderStatus) (r : MEClientResponse) (rs : List MEClientResponse) :
    st.history (r :: rs) = (st.next r).bind fun st => st.history rs :=
  List.foldlM_cons ..

/-- Nothing follows once nothing is left. -/
theorem history_working_zero {rs : List MEClientResponse} {st : OrderStatus}
    (h : (working 0).history rs = some st) : rs = [] ∧ st = working 0 := by
  cases rs with
  | nil => exact ⟨rfl, (Option.some.inj h).symm⟩
  | cons r rs =>
    have hnone : (working 0).next r = none := by
      rw [next, if_neg (by omega), if_neg (by omega)]
    rw [history_cons, hnone] at h
    cases h

/-- The last response tells the status. -/
theorem history_last {qty : ℕ} {rs : List MEClientResponse} {st : OrderStatus}
    (h : (requested qty).history rs = some st) (hst : st ≠ requested qty) :
    ∃ r, rs.getLast? = some r ∧
      (st = working r.leaves_qty_ ∧ r.type_ ≠ .CANCELED ∨ st = canceled ∧ r.type_ = .CANCELED) := by
  rcases List.eq_nil_or_concat rs with rfl | ⟨init, r, rfl⟩
  · exact absurd (Option.some.inj h).symm hst
  · rw [List.concat_eq_append] at h ⊢
    rw [history_append] at h
    obtain ⟨st', -, hlast⟩ := Option.bind_eq_some_iff.mp h
    rw [history_cons] at hlast
    obtain ⟨st'', hnext, heq⟩ := Option.bind_eq_some_iff.mp hlast
    obtain rfl : st'' = st := Option.some.inj heq
    refine ⟨r, by simp, ?_⟩
    cases st' with
    | requested qty' =>
      rw [next] at hnext
      split at hnext
      · next hr =>
        obtain ⟨htype, -, hqty⟩ := hr
        rw [← hqty] at hnext
        exact .inl ⟨(Option.some.inj hnext).symm, by simp [htype]⟩
      · cases hnext
    | working leaves =>
      rw [next] at hnext
      split at hnext
      · next hr => exact .inl ⟨(Option.some.inj hnext).symm, by simp [hr.1]⟩
      · split at hnext
        · next hr => exact .inr ⟨(Option.some.inj hnext).symm, hr.1⟩
        · cases hnext
    | canceled => cases hnext

/-- A fill of a part of what is left. -/
theorem next_filled {leaves fill : ℕ} {r : MEClientResponse} (htype : r.type_ = .FILLED)
    (hexec : r.exec_qty_ = fill) (hleaves : r.leaves_qty_ = leaves - fill) (hpos : 0 < fill)
    (hle : fill ≤ leaves) : (working leaves).next r = some (working (leaves - fill)) := by
  rw [next, if_pos ⟨htype, hexec ▸ hpos, hexec ▸ hle, hexec ▸ hleaves⟩, hleaves]

end OrderStatus

/-- The responses about the order of an id, in order. -/
def responsesOf (id : ℕ) (events : List MEEvent) : List MEClientResponse :=
  (clientResponses events).filter fun r => decide (r.market_order_id_ = id)

theorem responsesOf_append (id : ℕ) (events events' : List MEEvent) :
    responsesOf id (events ++ events') = responsesOf id events ++ responsesOf id events' := by
  unfold responsesOf
  rw [clientResponses_append, List.filter_append]

theorem responsesOf_response (id : ℕ) (r : MEClientResponse) (events : List MEEvent) :
    responsesOf id (.response r :: events) =
      (if r.market_order_id_ = id then [r] else []) ++ responsesOf id events := by
  show ((r :: clientResponses events).filter _) = _
  rw [List.filter_cons]
  simp only [decide_eq_true_eq]
  split <;> rfl

theorem responsesOf_update (id : ℕ) (u : MEMarketUpdate) (events : List MEEvent) :
    responsesOf id (.update u :: events) = responsesOf id events := rfl

/-! ## Open quantities -/

/-- The open quantity of the order of an id, zero when no order of `xs` has the id. -/
def openQty (xs : List MEOrderInfo) (id : ℕ) : ℕ :=
  ((xs.filter fun x => decide (x.market_order_id_ = id)).map MEOrderInfo.qty_).sum

section openQty

variable {xs ys : List MEOrderInfo} {x : MEOrderInfo} {id : ℕ}

theorem openQty_cons (x : MEOrderInfo) (xs : List MEOrderInfo) (id : ℕ) :
    openQty (x :: xs) id = (if x.market_order_id_ = id then x.qty_ else 0) + openQty xs id := by
  unfold openQty
  rw [List.filter_cons]
  split <;> simp_all

theorem openQty_append (xs ys : List MEOrderInfo) (id : ℕ) :
    openQty (xs ++ ys) id = openQty xs id + openQty ys id := by
  unfold openQty
  rw [List.filter_append, List.map_append, List.sum_append]

theorem openQty_perm (h : xs.Perm ys) (id : ℕ) : openQty xs id = openQty ys id :=
  ((h.filter _).map _).sum_eq

/-- An id no order has is of quantity zero. -/
theorem openQty_eq_zero (h : ∀ x ∈ xs, x.market_order_id_ ≠ id) : openQty xs id = 0 := by
  induction xs with
  | nil => rfl
  | cons x xs ih =>
    rw [openQty_cons, if_neg (h x (List.mem_cons_self ..)),
      ih fun y hy => h y (List.mem_cons_of_mem _ hy)]

/-- The quantity of an order whose id no other order has. -/
theorem openQty_of_mem (hnd : (xs.map MEOrderInfo.market_order_id_).Nodup) (hx : x ∈ xs) :
    openQty xs x.market_order_id_ = x.qty_ := by
  induction xs with
  | nil => cases hx
  | cons y ys ih =>
    rw [List.map_cons, List.nodup_cons] at hnd
    rw [openQty_cons]
    rcases List.mem_cons.mp hx with rfl | hx
    · rw [if_pos rfl, openQty_eq_zero, Nat.add_zero]
      intro z hz heq
      exact hnd.1 (heq ▸ List.mem_map_of_mem hz)
    · have hne : y.market_order_id_ ≠ x.market_order_id_ := fun heq =>
        hnd.1 (heq ▸ List.mem_map_of_mem hx)
      rw [if_neg hne, ih hnd.2 hx, Nat.zero_add]

theorem exists_of_openQty_ne_zero (h : openQty xs id ≠ 0) :
    ∃ x ∈ xs, x.market_order_id_ = id := by
  by_contra hnone
  exact h (openQty_eq_zero fun x hx heq => hnone ⟨x, hx, heq⟩)

end openQty

/-- The quantity a call asks for. -/
def MEOrderBook.Call.qty? : Call → Option ℕ
  | .add _ _ _ _ qty => some qty
  | .cancel _ _ => none

namespace PriorityBook

/-! ## What a sweep tells -/

theorem responsesOf_fillEvents (ticker_id : ℕ) {taker maker : MEOrderInfo} (fill leaves : ℕ)
    (hne : taker.market_order_id_ ≠ maker.market_order_id_) :
    (∃ r, responsesOf taker.market_order_id_ (fillEvents ticker_id taker maker fill leaves) = [r] ∧
      r.type_ = .FILLED ∧ r.exec_qty_ = fill ∧ r.leaves_qty_ = leaves) ∧
    (∃ r, responsesOf maker.market_order_id_ (fillEvents ticker_id taker maker fill leaves) = [r] ∧
      r.type_ = .FILLED ∧ r.exec_qty_ = fill ∧ r.leaves_qty_ = maker.qty_ - fill) ∧
    ∀ id, id ≠ taker.market_order_id_ → id ≠ maker.market_order_id_ →
      responsesOf id (fillEvents ticker_id taker maker fill leaves) = [] := by
  unfold fillEvents
  simp only [responsesOf_response, responsesOf_update]
  refine ⟨?_, ?_, fun id htaker hmaker => ?_⟩
  · rw [if_true, if_neg hne.symm]
    exact ⟨_, rfl, rfl, rfl, rfl⟩
  · rw [if_neg hne, if_true]
    exact ⟨_, rfl, rfl, rfl, rfl⟩
  · rw [if_neg htaker.symm, if_neg hmaker.symm]
    rfl

/-- **What a sweep tells** about the taker, and about any other order; induction on the resting
orders. -/
theorem sweep_history {ticker_id : ℕ} {taker : MEOrderInfo} (makers : List MEOrderInfo) :
    ∀ {leaves : ℕ}, ((taker :: makers).map MEOrderInfo.market_order_id_).Nodup →
      (∀ x ∈ makers, 0 < x.qty_) →
      (OrderStatus.working leaves).history
          (responsesOf taker.market_order_id_ (sweep ticker_id taker makers leaves).2.2) =
        some (.working (sweep ticker_id taker makers leaves).2.1) ∧
      ∀ id, id ≠ taker.market_order_id_ →
        (OrderStatus.working (openQty makers id)).history
            (responsesOf id (sweep ticker_id taker makers leaves).2.2) =
          some (.working (openQty (sweep ticker_id taker makers leaves).1 id)) := by
  induction makers with
  | nil =>
    intro leaves _ _
    exact ⟨rfl, fun id _ => rfl⟩
  | cons maker makers ih =>
    intro leaves hnd hqty
    rw [sweep]
    split
    · exact ⟨rfl, fun id _ => rfl⟩
    · next hgo =>
      -- the first order trades, and the others are met with what the taker has left
      have hleaves : leaves ≠ 0 := fun h0 => hgo (.inl h0)
      have hmaker : 0 < maker.qty_ := hqty maker (List.mem_cons_self ..)
      have hne : taker.market_order_id_ ≠ maker.market_order_id_ := by
        rw [List.map_cons, List.nodup_cons] at hnd
        intro heq
        exact hnd.1 (heq ▸ List.mem_map_of_mem (List.mem_cons_self ..))
      have hnd' : ((taker :: makers).map MEOrderInfo.market_order_id_).Nodup :=
        hnd.sublist (((List.sublist_cons_self maker makers).cons_cons taker).map _)
      have hqty' : ∀ x ∈ makers, 0 < x.qty_ := fun x hx => hqty x (List.mem_cons_of_mem _ hx)
      have hfresh : openQty makers maker.market_order_id_ = 0 := by
        rw [List.map_cons, List.map_cons, List.nodup_cons, List.nodup_cons] at hnd
        apply openQty_eq_zero
        intro x hx heq
        exact hnd.2.1 (heq ▸ List.mem_map_of_mem hx)
      set fill := min leaves maker.qty_ with hfill
      have hpos : 0 < fill := by omega
      obtain ⟨⟨rt, hrt, httype, htexec, htleaves⟩, ⟨rm, hrm, hmtype, hmexec, hmleaves⟩, hother⟩ :=
        responsesOf_fillEvents ticker_id fill (leaves - fill) hne
      have hnext_t : (OrderStatus.working leaves).next rt = some (.working (leaves - fill)) :=
        OrderStatus.next_filled httype htexec htleaves hpos (Nat.min_le_left ..)
      have hnext_m : (OrderStatus.working maker.qty_).next rm =
          some (.working (maker.qty_ - fill)) :=
        OrderStatus.next_filled hmtype hmexec hmleaves hpos (Nat.min_le_right ..)
      simp only
      split
      · next hfull =>
        obtain ⟨ihtaker, ihother⟩ := @ih (leaves - fill) hnd' hqty'
        refine ⟨?_, fun id hid => ?_⟩
        · rw [responsesOf_append, hrt, OrderStatus.history_append, OrderStatus.history_cons,
            hnext_t]
          exact ihtaker
        · rw [responsesOf_append, OrderStatus.history_append, openQty_cons]
          by_cases hm : maker.market_order_id_ = id
          · subst hm
            have hrest := ihother _ hid
            rw [hfresh] at hrest
            rw [if_pos rfl, hfresh, Nat.add_zero, hrm, OrderStatus.history_cons, hnext_m, hfull,
              Nat.sub_self]
            exact hrest
          · rw [if_neg hm, Nat.zero_add, hother id hid (Ne.symm hm)]
            exact ihother id hid
      · refine ⟨?_, fun id hid => ?_⟩
        · rw [hrt, OrderStatus.history_cons, hnext_t]
          rfl
        · rw [openQty_cons, openQty_cons]
          by_cases hm : maker.market_order_id_ = id
          · subst hm
            rw [if_pos rfl, if_pos rfl, hfresh, Nat.add_zero, Nat.add_zero, hrm,
              OrderStatus.history_cons, hnext_m]
            rfl
          · rw [if_neg hm, if_neg hm, hother id hid (Ne.symm hm)]
            rfl

/-! ## Accounts -/

/-- The responses `events` account for the book: the order of the `n`-th accepted request has the
id `n`, its history is legal, and what is left of it is what it has in the book. -/
structure Accounts (P : PriorityBook) (qtys : List ℕ) (events : List MEEvent) : Prop where
  next_id : P.next_id = qtys.length + 1
  bound : P.next_id ≤ 2 ^ 32
  status : ∀ n qty, qtys[n]? = some qty →
    ∃ st, (OrderStatus.requested qty).history (responsesOf (n + 1) events) = some st ∧
      (st = .working (openQty P.orders (n + 1)) ∨
        st = .canceled ∧ openQty P.orders (n + 1) = 0)
  fresh : ∀ id, P.next_id ≤ id → id ≠ OrderId_INVALID → responsesOf id events = []

section step

variable {P : PriorityBook} {ticker_id client_id client_order_id qty : ℕ} {s : Side} {price : ℤ}
  {qtys : List ℕ} {events : List MEEvent}

/-- A taker that is used up or comes to rest is told of its acceptance, then of its fills. -/
theorem responsesOf_add (P : PriorityBook) (ticker_id client_id client_order_id : ℕ) (s : Side)
    (price : ℤ) (qty id : ℕ) :
    ∃ r : MEClientResponse, r.type_ = .ACCEPTED ∧ r.exec_qty_ = 0 ∧ r.leaves_qty_ = qty ∧
      responsesOf id (P.add ticker_id client_id client_order_id s price qty).2 =
        (if P.next_id = id then [r] else []) ++
          responsesOf id (sweep ticker_id (P.taker ticker_id client_id client_order_id s price qty)
            (P.side s.opposite) qty).2.2 := by
  refine ⟨
    { type_ := .ACCEPTED, client_id_ := client_id, ticker_id_ := ticker_id,
      client_order_id_ := client_order_id, market_order_id_ := P.next_id, side_ := s,
      price_ := price, exec_qty_ := 0, leaves_qty_ := qty }, rfl, rfl, rfl, ?_⟩
  simp only [add]
  split
  · exact responsesOf_response ..
  · rw [responsesOf_append, addEvent, responsesOf_update]
    show _ ++ [] = _
    rw [List.append_nil]
    exact responsesOf_response ..

/-- The ids of the two sides, one of which is `s`, are different. -/
theorem WF.sides_nodup (hwf : P.WF) (hs : s.IsTrading) :
    ((P.side s ++ P.side s.opposite).map MEOrderInfo.market_order_id_).Nodup :=
  ((orders_perm P hs).map MEOrderInfo.market_order_id_).nodup_iff.mp hwf.ids_nodup

/-- An id rests on one side at most. -/
theorem WF.openQty_sides (hwf : P.WF) (hs : s.IsTrading) (id : ℕ) :
    openQty (P.side s) id = 0 ∨ openQty (P.side s.opposite) id = 0 := by
  by_contra hboth
  obtain ⟨hown, hopp⟩ := not_or.mp hboth
  obtain ⟨x, hx, hxid⟩ := exists_of_openQty_ne_zero hown
  obtain ⟨y, hy, hyid⟩ := exists_of_openQty_ne_zero hopp
  have hnd := hwf.sides_nodup hs
  rw [List.map_append, List.nodup_append] at hnd
  exact hnd.2.2 _ (List.mem_map_of_mem hx) _ (List.mem_map_of_mem hy) (hxid.trans hyid.symm)

/-- What the match of a new order tells, of the order itself and of those on the other side. -/
theorem WF.match_history (hwf : P.WF) (hs : s.IsTrading) (ticker_id client_id client_order_id : ℕ)
    (price : ℤ) (qty : ℕ) {swept : List MEOrderInfo × ℕ × List MEEvent}
    (hswept : sweep ticker_id (P.taker ticker_id client_id client_order_id s price qty)
      (P.side s.opposite) qty = swept) :
    (OrderStatus.working qty).history (responsesOf P.next_id swept.2.2) =
        some (.working swept.2.1) ∧
      ∀ id, id ≠ P.next_id →
        (OrderStatus.working (openQty (P.side s.opposite) id)).history
          (responsesOf id swept.2.2) = some (.working (openQty swept.1 id)) := by
  subst hswept
  set t := P.taker ticker_id client_id client_order_id s price qty
  have htid : t.market_order_id_ = P.next_id := rfl
  have hopps : ∀ x ∈ P.side s.opposite, x ∈ P.orders := fun x hx =>
    mem_orders.mpr ⟨_, hs.opposite, hx⟩
  rw [← htid]
  apply sweep_history
  · rw [List.map_cons, List.nodup_cons]
    refine ⟨fun hmem => ?_, ?_⟩
    · obtain ⟨x, hx, hxid⟩ := List.mem_map.mp hmem
      exact absurd (hxid.trans htid) (Nat.ne_of_lt (hwf.ids x (hopps x hx)))
    · exact (hwf.sides_nodup hs).sublist ((List.sublist_append_right _ _).map _)
  · exact fun x hx => (hwf.qty x (hopps x hx)).1

/-- Where the open quantities are after an `add`: the new order has what the match left of it. -/
theorem openQty_add (P : PriorityBook) (ticker_id client_id client_order_id : ℕ) (price : ℤ)
    (qty : ℕ) (hs : s.IsTrading) {swept : List MEOrderInfo × ℕ × List MEEvent}
    (hswept : sweep ticker_id (P.taker ticker_id client_id client_order_id s price qty)
      (P.side s.opposite) qty = swept) (id : ℕ) :
    openQty (P.add ticker_id client_id client_order_id s price qty).1.orders id =
      openQty (P.side s) id + (if P.next_id = id then swept.2.1 else 0) + openQty swept.1 id := by
  obtain ⟨hopp, -, hown⟩ := P.side_add ticker_id client_id client_order_id price qty hs
  subst hswept
  rw [openQty_perm (orders_perm _ hs), openQty_append, hopp, hown]
  split
  · next h0 => simp [h0]
  · rw [openQty_perm (List.perm_orderedInsert _ _ _), openQty_cons, Nat.add_comm (ite _ _ _)]
    rfl

/-- **`add` keeps the accounts**, with the requested quantity of the new order. -/
theorem Accounts.add (h : Accounts P qtys events) (hwf : P.WF)
    (hadm : P.Admits (.add client_id client_order_id s price qty)) :
    Accounts (P.add ticker_id client_id client_order_id s price qty).1 (qtys ++ [qty])
      (events ++ (P.add ticker_id client_id client_order_id s price qty).2) := by
  obtain ⟨hs, -, -, -, hid, -, -⟩ := hadm
  have hnext := (P.side_add ticker_id client_id client_order_id price qty hs).2.1
  have hresp := P.responsesOf_add ticker_id client_id client_order_id s price qty
  have hopps : ∀ x ∈ P.side s.opposite, x ∈ P.orders := fun x hx =>
    mem_orders.mpr ⟨_, hs.opposite, hx⟩
  set swept := sweep ticker_id (P.taker ticker_id client_id client_order_id s price qty)
    (P.side s.opposite) qty with hswept
  obtain ⟨htaker, hothers⟩ := hwf.match_history hs ticker_id client_id client_order_id price qty
    hswept.symm
  -- where the open quantities were, and where they went
  have hsplit : ∀ id, openQty P.orders id =
      openQty (P.side s) id + openQty (P.side s.opposite) id := fun id => by
    rw [openQty_perm (orders_perm P hs), openQty_append]
  have hsplit' := P.openQty_add ticker_id client_id client_order_id price qty hs hswept.symm
  -- an id of which nothing rests on the other side is not told of
  have hquiet : ∀ id, id ≠ P.next_id → openQty (P.side s.opposite) id = 0 →
      responsesOf id swept.2.2 = [] ∧ openQty swept.1 id = 0 := by
    intro id hne h0
    have hid := hothers id hne
    rw [h0] at hid
    obtain ⟨hnil, heq⟩ := OrderStatus.history_working_zero hid
    exact ⟨hnil, OrderStatus.working.inj heq⟩
  have hsweptids : ∀ x ∈ swept.1, x.market_order_id_ < P.next_id :=
    forall_sweep (p := fun x => x.market_order_id_ < P.next_id) (fun _ => Iff.rfl)
      fun x hx => hwf.ids x (hopps x hx)
  have hbound := h.bound
  have hlen := h.next_id
  refine ⟨?next_id, ?bound, fun n q hq => ?status, fun id hle hinv => ?fresh⟩
  case next_id =>
    rw [hnext, hlen, List.length_append, List.length_singleton]
  case bound =>
    rw [hnext]
    exact hid
  case status =>
    obtain ⟨r, htype, hexec, hleaves, hr⟩ := hresp (n + 1)
    rw [responsesOf_append, hr, OrderStatus.history_append, hsplit']
    by_cases hn : n < qtys.length
    · -- an order from before
      rw [List.getElem?_append_left hn] at hq
      have hne : P.next_id ≠ n + 1 := by omega
      obtain ⟨st, hst, hopen⟩ := h.status n q hq
      rw [hst, if_neg hne, if_neg hne, List.nil_append, Nat.add_zero, Option.bind_some]
      rw [hsplit] at hopen
      rcases Nat.eq_zero_or_pos (openQty (P.side s.opposite) (n + 1)) with h0 | hpos
      · obtain ⟨hnil, hzero⟩ := hquiet _ hne.symm h0
        rw [h0] at hopen
        rw [hnil, hzero]
        exact ⟨st, rfl, hopen⟩
      · have hown0 := (hwf.openQty_sides hs (n + 1)).resolve_right (Nat.ne_of_gt hpos)
        rw [hown0, Nat.zero_add] at hopen
        rcases hopen with rfl | ⟨-, h0⟩
        · rw [hown0, Nat.zero_add]
          exact ⟨_, hothers _ hne.symm, .inl rfl⟩
        · exact absurd h0 (Nat.ne_of_gt hpos)
    · -- the new order
      have hlt : n < (qtys ++ [qty]).length := (List.getElem?_eq_some_iff.mp hq).1
      rw [List.length_append, List.length_singleton] at hlt
      obtain rfl : n = qtys.length := by omega
      obtain rfl : qty = q := by simpa using hq
      have hbefore : responsesOf P.next_id events = [] := by
        apply h.fresh _ (Nat.le_refl _)
        unfold OrderId_INVALID
        omega
      have hown0 : openQty (P.side s) P.next_id = 0 :=
        openQty_eq_zero fun x hx => Nat.ne_of_lt (hwf.ids x (mem_orders.mpr ⟨s, hs, hx⟩))
      have hswept0 : openQty swept.1 P.next_id = 0 :=
        openQty_eq_zero fun x hx => Nat.ne_of_lt (hsweptids x hx)
      have haccepted : (OrderStatus.requested qty).next r = some (.working qty) := by
        rw [OrderStatus.next, if_pos ⟨htype, hexec, hleaves⟩]
      rw [← hlen, hbefore, if_pos rfl, if_pos rfl, hown0, hswept0, OrderStatus.history_nil,
        Option.bind_some, List.singleton_append, OrderStatus.history_cons, haccepted,
        Option.bind_some, Nat.zero_add, Nat.add_zero]
      exact ⟨_, htaker, .inl rfl⟩
  case fresh =>
    obtain ⟨r, -, -, -, hr⟩ := hresp id
    rw [hnext] at hle
    have hne : id ≠ P.next_id := by omega
    have h0 : openQty (P.side s.opposite) id = 0 := openQty_eq_zero fun x hx => by
      have := hwf.ids x (hopps x hx)
      omega
    rw [responsesOf_append, hr, if_neg hne.symm, (hquiet id hne h0).1,
      h.fresh id (by omega) hinv]
    rfl

theorem openQty_erase (hwf : P.WF) {k : ℕ × ℕ} {o : MEOrderInfo} (ho : o ∈ P.orders)
    (hkey : key o = k) (id : ℕ) :
    openQty (P.erase k).orders id = if id = o.market_order_id_ then 0 else openQty P.orders id := by
  have herase : (P.erase k).orders = P.orders.filter fun x => decide (key x ≠ k) :=
    (List.filter_append _ _).symm
  rw [herase]
  split
  · next hid =>
    apply openQty_eq_zero
    intro x hx heq
    obtain ⟨hx, hne⟩ := List.mem_filter.mp hx
    rw [List.inj_on_of_nodup_map hwf.ids_nodup hx ho (heq.trans hid)] at hne
    exact of_decide_eq_true hne hkey
  · next hid =>
    unfold openQty
    rw [List.filter_filter]
    refine congrArg _ (congrArg _ (List.filter_congr fun x hx => ?_))
    by_cases hx' : x.market_order_id_ = id
    · -- an order of another id has another key
      have hne : key x ≠ k := fun heq => by
        apply hid
        rw [← hx', List.inj_on_of_nodup_map hwf.keys hx ho (heq.trans hkey.symm)]
      simp [hx', hne]
    · simp [hx']

/-- **`cancel` keeps the accounts.** -/
theorem Accounts.cancel {order_id : ℕ} (h : Accounts P qtys events) (hwf : P.WF) :
    Accounts (P.cancel ticker_id client_id order_id).1 qtys
      (events ++ (P.cancel ticker_id client_id order_id).2) := by
  have hbound := h.bound
  have hlen := h.next_id
  unfold PriorityBook.cancel
  cases hfind : P.find (client_id, order_id) with
  | none =>
    -- the rejection names no order
    have hnone : ∀ id, id ≠ OrderId_INVALID → responsesOf id (events ++ [.response
        { type_ := .CANCEL_REJECTED, client_id_ := client_id, ticker_id_ := ticker_id,
          client_order_id_ := order_id }]) = responsesOf id events := by
      intro id hid
      rw [responsesOf_append, responsesOf_response, if_neg hid.symm]
      exact List.append_nil _
    refine ⟨h.next_id, h.bound, fun n q hq => ?_, fun id hle hinv => ?_⟩
    · have hn : n < qtys.length := (List.getElem?_eq_some_iff.mp hq).1
      rw [hnone _ (by unfold OrderId_INVALID; omega)]
      exact h.status n q hq
    · rw [hnone id hinv]
      exact h.fresh id hle hinv
  | some o =>
    have ho : o ∈ P.orders := List.mem_of_find?_eq_some hfind
    have hkey : key o = (client_id, order_id) := by
      simpa using List.find?_some hfind
    have hopen : openQty P.orders o.market_order_id_ = o.qty_ := openQty_of_mem hwf.ids_nodup ho
    have hpos := (hwf.qty o ho).1
    have hoid := hwf.ids o ho
    have herase := openQty_erase hwf ho hkey
    simp only
    refine ⟨h.next_id, h.bound, fun n q hq => ?_, fun id hle hinv => ?_⟩
    · obtain ⟨st, hst, hopen_st⟩ := h.status n q hq
      rw [responsesOf_append, responsesOf_update, responsesOf_response,
        OrderStatus.history_append, hst, Option.bind_some, herase]
      by_cases hn : n + 1 = o.market_order_id_
      · rw [hn, hopen] at hopen_st
        rcases hopen_st with rfl | ⟨-, h0⟩
        · refine ⟨.canceled, ?_, .inr ⟨rfl, if_pos hn⟩⟩
          rw [if_pos hn.symm, List.singleton_append, OrderStatus.history_cons, OrderStatus.next,
            if_neg (by simp), if_pos ⟨rfl, hpos, rfl⟩]
          rfl
        · exact absurd h0 (Nat.ne_of_gt hpos)
      · rw [if_neg (Ne.symm hn), if_neg hn]
        exact ⟨st, rfl, hopen_st⟩
    · have hle' : P.next_id ≤ id := hle
      rw [responsesOf_append, responsesOf_update, responsesOf_response,
        if_neg (Nat.ne_of_lt (hoid.trans_le hle')), h.fresh id hle' hinv]
      rfl

theorem Accounts.step {c : Call} (h : Accounts P qtys events) (hwf : P.WF) (hadm : P.Admits c) :
    Accounts (P.step ticker_id c).1 (qtys ++ [c].filterMap Call.qty?)
      (events ++ (P.step ticker_id c).2) := by
  cases c with
  | add client_id client_order_id s price qty => exact h.add hwf hadm
  | cancel client_id order_id =>
    show Accounts _ (qtys ++ []) _
    rw [List.append_nil]
    exact h.cancel hwf

end step

theorem Accounts.empty : Accounts .empty [] [] where
  next_id := rfl
  bound := by decide
  status := fun n qty hn => by cases hn
  fresh := fun _ _ _ => rfl

/-- **The responses of a run account for the book it ends in**; induction on the calls. -/
theorem Accounts.run {ticker_id : ℕ} {calls : List Call} :
    ∀ {P : PriorityBook} {qtys : List ℕ} {events : List MEEvent}, Accounts P qtys events → P.WF →
      P.Admitted ticker_id calls →
      Accounts (P.run ticker_id calls).1 (qtys ++ calls.filterMap Call.qty?)
        (events ++ (P.run ticker_id calls).2) := by
  induction calls with
  | nil =>
    intro P qtys events h _ _
    simpa [PriorityBook.run] using h
  | cons c calls ih =>
    intro P qtys events h hwf hadm
    have hrest := ih (h.step hwf hadm.1) (hwf.step hadm.1) hadm.2
    have hqtys : (c :: calls).filterMap Call.qty? =
        [c].filterMap Call.qty? ++ calls.filterMap Call.qty? := by
      rw [← List.filterMap_append, List.singleton_append]
    rw [hqtys, ← List.append_assoc]
    rw [List.append_assoc events] at hrest
    exact hrest

/-! ## Sums of the traded quantities -/

/-- The quantity of the fills reported on one side. -/
def execSum (s : Side) (events : List MEEvent) : ℕ :=
  (((clientResponses events).filter fun r => decide (r.type_ = .FILLED ∧ r.side_ = s)).map
    MEClientResponse.exec_qty_).sum

/-- The quantity of the trades published. -/
def tradeSum (events : List MEEvent) : ℕ :=
  (((marketUpdates events).filter fun u => decide (u.type_ = .TRADE)).map
    MEMarketUpdate.qty_).sum

theorem execSum_append (s : Side) (events events' : List MEEvent) :
    execSum s (events ++ events') = execSum s events + execSum s events' := by
  unfold execSum
  rw [clientResponses_append, List.filter_append, List.map_append, List.sum_append]

theorem tradeSum_append (events events' : List MEEvent) :
    tradeSum (events ++ events') = tradeSum events + tradeSum events' := by
  unfold tradeSum
  rw [marketUpdates_append, List.filter_append, List.map_append, List.sum_append]

theorem execSum_response (s : Side) (r : MEClientResponse) (events : List MEEvent) :
    execSum s (.response r :: events) =
      (if r.type_ = .FILLED ∧ r.side_ = s then r.exec_qty_ else 0) + execSum s events := by
  show (((r :: clientResponses events).filter _).map _).sum = _
  rw [List.filter_cons]
  simp only [decide_eq_true_eq]
  split
  · rw [List.map_cons, List.sum_cons]
    rfl
  · rw [Nat.zero_add]
    rfl

theorem execSum_update (s : Side) (u : MEMarketUpdate) (events : List MEEvent) :
    execSum s (.update u :: events) = execSum s events := rfl

/-- Both sides' fills and the trades add up to the same quantity. -/
def Balanced (events : List MEEvent) : Prop :=
  ∀ s, s.IsTrading → execSum s events = tradeSum events

theorem Balanced.append {events events' : List MEEvent} (h : Balanced events)
    (h' : Balanced events') : Balanced (events ++ events') := by
  intro s hs
  rw [execSum_append, tradeSum_append, h s hs, h' s hs]

/-- A trade is one fill on each side. -/
theorem balanced_fillEvents (ticker_id : ℕ) {taker maker : MEOrderInfo} (fill leaves : ℕ)
    (ht : taker.side_.IsTrading) (hm : maker.side_ = taker.side_.opposite) :
    Balanced (fillEvents ticker_id taker maker fill leaves) := by
  intro s hs
  have htrade : tradeSum (fillEvents ticker_id taker maker fill leaves) = fill := by
    unfold fillEvents tradeSum
    split
    · rfl
    · rfl
  rw [htrade]
  have hexec : execSum s (fillEvents ticker_id taker maker fill leaves) =
      (if taker.side_ = s then fill else 0) + if maker.side_ = s then fill else 0 := by
    unfold fillEvents
    simp only [execSum_response, execSum_update, true_and]
    rfl
  rw [hexec, hm]
  rcases ht.eq_or_eq_opposite hs with rfl | rfl
  · rw [if_pos rfl, if_neg ht.opposite_ne, Nat.add_zero]
  · rw [if_neg ht.opposite_ne.symm, if_pos rfl, Nat.zero_add]

theorem balanced_sweep {ticker_id : ℕ} {taker : MEOrderInfo} (ht : taker.side_.IsTrading)
    (makers : List MEOrderInfo) : ∀ {leaves : ℕ},
      (∀ x ∈ makers, x.side_ = taker.side_.opposite) →
      Balanced (sweep ticker_id taker makers leaves).2.2 := by
  induction makers with
  | nil =>
    intro leaves _ s _
    rfl
  | cons maker makers ih =>
    intro leaves hside
    have hm := hside maker (List.mem_cons_self ..)
    rw [sweep]
    split
    · intro s _
      rfl
    · have hfill := fun fill leaves => balanced_fillEvents ticker_id fill leaves ht hm
      simp only
      split
      · apply (hfill _ _).append
        exact ih fun x hx => hside x (List.mem_cons_of_mem _ hx)
      · exact hfill _ _

theorem balanced_step {P : PriorityBook} {ticker_id : ℕ} {c : Call} (hwf : P.WF)
    (hadm : P.Admits c) : Balanced (P.step ticker_id c).2 := by
  cases c with
  | add client_id client_order_id s price qty =>
    have hs := hadm.1
    have hsweep : Balanced (sweep ticker_id (P.taker ticker_id client_id client_order_id s price qty)
        (P.side s.opposite) qty).2.2 :=
      balanced_sweep hs _ fun x hx => hwf.side _ hs.opposite x hx
    have haccepted : Balanced
        [acceptedEvent (P.taker ticker_id client_id client_order_id s price qty)] :=
      fun _ _ => rfl
    simp only [PriorityBook.step, add]
    split
    · exact haccepted.append hsweep
    · apply (haccepted.append hsweep).append
      exact fun _ _ => rfl
  | cancel client_id order_id =>
    simp only [PriorityBook.step, cancel]
    split
    · exact fun _ _ => rfl
    · exact fun _ _ => rfl

theorem balanced_run {ticker_id : ℕ} {calls : List Call} :
    ∀ {P : PriorityBook}, P.WF → P.Admitted ticker_id calls →
      Balanced (P.run ticker_id calls).2 := by
  induction calls with
  | nil =>
    intro P _ _ s _
    rfl
  | cons c calls ih =>
    intro P hwf hadm
    exact (balanced_step hwf hadm.1).append (ih (hwf.step hadm.1) hadm.2)

end PriorityBook

/-! ## The orders of a run -/

open PriorityBook (execSum tradeSum)

/-- **The life of every order**: after any valid calls, each order that was accepted has a legal
history of responses from the quantity its request asked for, and it rests in the book exactly
when the last response left something open and was no cancellation, with what that response left.
Both sides' fills and the trades add up to the same quantity. -/
theorem MEOrderBook.lifeCycle_run {base : ℤ} {ticker_id : ℕ} {calls : List Call}
    (hvalid : ValidCalls base calls)
    (hspace : (MEOrderBook.new ticker_id).run calls ≠ .error .outOfSpace) :
    ∃ b, (MEOrderBook.new ticker_id).run calls = .ok b ∧
      (∀ id, 1 ≤ id → id < b.next_market_order_id_ →
        ∃ qty r, (calls.filterMap Call.qty?)[id - 1]? = some qty ∧
          ((OrderStatus.requested qty).history (responsesOf id b.sent)).isSome ∧
          (responsesOf id b.sent).getLast? = some r ∧
          ∀ q, (∃ s, s.IsTrading ∧ ∃ x ∈ b.book.orderList s, x.market_order_id_ = id ∧ x.qty_ = q) ↔
            r.type_ ≠ .CANCELED ∧ 0 < r.leaves_qty_ ∧ q = r.leaves_qty_) ∧
      ∀ s, s.IsTrading → execSum s b.sent = tradeSum b.sent := by
  have hadm := PriorityBook.ValidCalls.admitted ticker_id hvalid
  have hwf := PriorityBook.WF.empty.run hadm
  obtain ⟨b, sh, hrun, href, hsent, -⟩ := run_new hadm hspace
  have hacc := PriorityBook.Accounts.empty.run PriorityBook.WF.empty hadm
  have hbal := PriorityBook.balanced_run PriorityBook.WF.empty hadm
  rw [List.nil_append, List.nil_append, ← hsent] at hacc
  rw [← hsent] at hbal
  refine ⟨b, hrun, fun id hpos hlt => ?_, hbal⟩
  set P := (PriorityBook.run ticker_id .empty calls).1
  rw [href.next_id, hacc.next_id] at hlt
  obtain ⟨n, rfl⟩ : ∃ n, id = n + 1 := ⟨id - 1, by omega⟩
  have hn : n < (calls.filterMap Call.qty?).length := by omega
  have hqty := List.getElem?_eq_getElem hn
  obtain ⟨st, hst, hopen⟩ := hacc.status n _ hqty
  have hne : st ≠ .requested (calls.filterMap Call.qty?)[n] := by
    rintro rfl
    rcases hopen with h | ⟨h, -⟩ <;> cases h
  obtain ⟨r, hlast, hstatus⟩ := OrderStatus.history_last hst hne
  refine ⟨_, r, hqty, by rw [hst]; rfl, hlast, fun q => ?_⟩
  -- an order rests with the quantity that the accounts have for its id
  have hrests : (∃ s, s.IsTrading ∧
      ∃ x ∈ b.book.orderList s, x.market_order_id_ = n + 1 ∧ x.qty_ = q) ↔
      0 < openQty P.orders (n + 1) ∧ q = openQty P.orders (n + 1) := by
    constructor
    · intro h
      obtain ⟨s, hs, x, hx, hid, rfl⟩ := h
      rw [href.rep.orderList_eq hs, href.infos s hs] at hx
      have hmem := PriorityBook.mem_orders.mpr ⟨s, hs, hx⟩
      rw [← hid, openQty_of_mem hwf.ids_nodup hmem]
      exact ⟨(hwf.qty x hmem).1, rfl⟩
    · intro h
      obtain ⟨hopen_pos, rfl⟩ := h
      obtain ⟨x, hx, hid⟩ := exists_of_openQty_ne_zero (Nat.ne_of_gt hopen_pos)
      obtain ⟨s, hs, hxs⟩ := PriorityBook.mem_orders.mp hx
      rw [← href.infos s hs, ← href.rep.orderList_eq hs] at hxs
      exact ⟨s, hs, x, hxs, hid, by rw [← hid, openQty_of_mem hwf.ids_nodup hx]⟩
  rw [hrests]
  rcases hopen with rfl | ⟨rfl, h0⟩
  · rcases hstatus with ⟨hworking, htype⟩ | ⟨hcanceled, -⟩
    · rw [OrderStatus.working.inj hworking]
      exact ⟨fun h => ⟨htype, h⟩, fun h => h.2⟩
    · cases hcanceled
  · rcases hstatus with ⟨hworking, -⟩ | ⟨-, htype⟩
    · cases hworking
    · rw [h0]
      exact ⟨fun h => absurd h.1 (Nat.lt_irrefl 0), fun h => absurd htype h.1⟩

/-- An order that trades with itself, then is cancelled. -/
theorem MEOrderBook.lifeCycle_run_cancel :
    ∃ b, (MEOrderBook.new 0).run
        [.add 1 1 .BUY 10 5, .add 1 2 .SELL 10 3, .cancel 1 1] = .ok b ∧
      (∀ id, 1 ≤ id → id < b.next_market_order_id_ →
        ∃ qty r, [5, 3][id - 1]? = some qty ∧
          ((OrderStatus.requested qty).history (responsesOf id b.sent)).isSome ∧
          (responsesOf id b.sent).getLast? = some r ∧
          ∀ q, (∃ s, s.IsTrading ∧ ∃ x ∈ b.book.orderList s, x.market_order_id_ = id ∧ x.qty_ = q) ↔
            r.type_ ≠ .CANCELED ∧ 0 < r.leaves_qty_ ∧ q = r.leaves_qty_) ∧
      ∀ s, s.IsTrading → execSum s b.sent = tradeSum b.sent := by
  have hvalid : ValidCalls 0 [.add 1 1 .BUY 10 5, .add 1 2 .SELL 10 3, .cancel 1 1] :=
    ⟨by simp [Call.Valid, Side.IsTrading, ME_MAX_NUM_CLIENTS, ME_MAX_ORDER_IDS,
      ME_MAX_PRICE_LEVELS], by decide⟩
  have hspace : (MEOrderBook.new 0).run
      [.add 1 1 .BUY 10 5, .add 1 2 .SELL 10 3, .cancel 1 1] ≠ .error .outOfSpace :=
    ne_outOfSpace_of_isOk (by decide +kernel)
  exact lifeCycle_run hvalid hspace

end TradingEcosystem
