import TradingEcosystem.System.Slots
import TradingEcosystem.Exchange.MatchingEngine
import Mathlib.Logic.Relation

/-!
# The Line to the Exchange

A client's two channels with the matching engine between them.  Other clients use the same engine.
What its books do, seen from the client, are answers as `Link.Answer` has them.

- `Line.process` : the engine takes a request of this client or of another
- `Works` : what is worked for the client are its orders of a list
- `Said` : answers that take no request from the channel
- `Line.Refines.process` : one request is a number of answers
-/

namespace TradingEcosystem

open Link Relation
open MEOrderBook (Call)
open PriorityBook (key sweep fillEvents)

/-- The responses to a client. -/
def responsesTo (client_id : ℕ) (events : List MEEvent) : List MEClientResponse :=
  (clientResponses events).filter fun r => decide (r.client_id_ = client_id)

theorem responsesTo_append (client_id : ℕ) (events events' : List MEEvent) :
    responsesTo client_id (events ++ events') =
      responsesTo client_id events ++ responsesTo client_id events' := by
  unfold responsesTo
  rw [clientResponses_append, List.filter_append]

theorem responsesTo_self {client_id : ℕ} {r : MEClientResponse} (h : r.client_id_ = client_id) :
    responsesTo client_id [.response r] = [r] :=
  List.filter_cons_of_pos (decide_eq_true h)

theorem responsesTo_of_ne {client_id : ℕ} {r : MEClientResponse} (h : r.client_id_ ≠ client_id) :
    responsesTo client_id [.response r] = [] :=
  List.filter_cons_of_neg (by rwa [decide_eq_true_eq])

/-- The channels of a client, and the engine. -/
structure Line where
  requests : List MEClientRequest
  matching_engine : MatchingEngine
  responses : List MEClientResponse

namespace Line

def new : Line := ⟨[], MatchingEngine.new, []⟩

/-- The client sends requests. -/
def ask (l : Line) (requests : List MEClientRequest) : Line :=
  { l with requests := l.requests ++ requests }

/-- The engine processes a request; what it sends to the client goes into the channel. -/
def process (l : Line) (client_id : ℕ) (q : MEClientRequest) : Except Fault Line := do
  let e ← l.matching_engine.processClientRequest q
  .ok { l with
    matching_engine := e
    responses := l.responses ++
      responsesTo client_id (e.sent.drop l.matching_engine.sent.length) }

/-- The engine processes the next request of the client, if there is one. -/
def processNext (l : Line) (client_id : ℕ) : Except Fault Line :=
  match l.requests with
  | [] => .ok l
  | q :: rest => { l with requests := rest }.process client_id q

variable {l l' : Line} {client_id : ℕ} {q : MEClientRequest} {rest : List MEClientRequest}

theorem requests_process (h : l.process client_id q = .ok l') : l'.requests = l.requests := by
  obtain ⟨e, _, hl⟩ := bind_eq_ok.mp h
  rw [← Except.ok.inj hl]

theorem requests_processNext (hrequests : l.requests = q :: rest)
    (h : l.processNext client_id = .ok l') : l'.requests = rest := by
  unfold processNext at h
  rw [hrequests] at h
  exact requests_process h

end Line

/-! ## The client's orders in a list -/

/-- What is worked for a client are its orders of a list. -/
def Works (client_id : ℕ) (orders : List MEOrderInfo) (working : ℕ → Option WorkingOrder) : Prop :=
  ∀ id w, working id = some w ↔
    ∃ o ∈ orders, key o = (client_id, id) ∧ (⟨o.side_, o.qty_⟩ : WorkingOrder) = w

/-- What an order is while `leaves` is left of it. -/
def leftOf (o : MEOrderInfo) (leaves : ℕ) : List MEOrderInfo :=
  if leaves = 0 then [] else [{ o with qty_ := leaves }]

theorem leftOf_of_ne {o : MEOrderInfo} {leaves : ℕ} (h : leaves ≠ 0) :
    leftOf o leaves = [{ o with qty_ := leaves }] :=
  if_neg h

theorem key_of_mem_leftOf {o x : MEOrderInfo} {leaves : ℕ} (h : x ∈ leftOf o leaves) :
    key x = key o := by
  unfold leftOf at h
  split at h
  · cases h
  · rw [List.mem_singleton.mp h]
    rfl

/-- An order's rest has the order's key. -/
theorem nodup_leftOf {o : MEOrderInfo} {leaves : ℕ} {orders : List MEOrderInfo}
    (h : ((o :: orders).map key).Nodup) : ((leftOf o leaves ++ orders).map key).Nodup := by
  unfold leftOf
  split
  · exact (List.nodup_cons.mp h).2
  · exact h

namespace Works

variable {c id leaves : ℕ} {orders orders' before after : List MEOrderInfo}
  {working : ℕ → Option WorkingOrder} {o : MEOrderInfo}

theorem congr (h : Works c orders working) (hmem : ∀ x, x ∈ orders ↔ x ∈ orders') :
    Works c orders' working := by
  intro id w
  rw [h id w]
  constructor
  · intro ⟨x, hx, hkey⟩
    exact ⟨x, (hmem x).mp hx, hkey⟩
  · intro ⟨x, hx, hkey⟩
    exact ⟨x, (hmem x).mpr hx, hkey⟩

/-- Only the keys, sides and quantities matter. -/
theorem of_map (h : Works c orders working)
    (hmap : orders.map (fun o => (key o, (⟨o.side_, o.qty_⟩ : WorkingOrder))) =
      orders'.map fun o => (key o, ⟨o.side_, o.qty_⟩)) : Works c orders' working := by
  have hmem : ∀ (orders : List MEOrderInfo) (k : ℕ × ℕ) (w : WorkingOrder),
      (∃ o ∈ orders, key o = k ∧ (⟨o.side_, o.qty_⟩ : WorkingOrder) = w) ↔
        (k, w) ∈ orders.map fun o => (key o, (⟨o.side_, o.qty_⟩ : WorkingOrder)) := by
    intro orders k w
    simp only [List.mem_map, Prod.mk.injEq]
  intro id w
  rw [h id w, hmem, hmem, hmap]

/-- Nothing is worked under an id that none of the orders has. -/
theorem eq_none (h : Works c orders working) (hnone : ∀ x ∈ orders, key x ≠ (c, id)) :
    working id = none := by
  cases hw : working id with
  | none => rfl
  | some w =>
    obtain ⟨x, hx, hkey, _⟩ := (h id w).mp hw
    exact absurd hkey (hnone x hx)

/-- The orders of other clients do not matter. -/
theorem of_others (h : Works c orders working)
    (hmem : ∀ x, x.client_id_ = c → (x ∈ orders ↔ x ∈ orders')) : Works c orders' working := by
  intro id w
  rw [h id w]
  constructor
  · intro ⟨x, hx, hkey, hw⟩
    exact ⟨x, (hmem x (congrArg Prod.fst hkey)).mp hx, hkey, hw⟩
  · intro ⟨x, hx, hkey, hw⟩
    exact ⟨x, (hmem x (congrArg Prod.fst hkey)).mpr hx, hkey, hw⟩

/-- An order of the client comes, and `leaves` is left of it. -/
theorem insert (h : Works c orders working) (hclient : o.client_id_ = c)
    (hfree : ∀ x ∈ orders, key x ≠ key o) (leaves : ℕ) :
    Works c (leftOf o leaves ++ orders) (Function.update working o.client_order_id_
      (if leaves = 0 then none else some ⟨o.side_, leaves⟩)) := by
  subst hclient
  intro id w
  by_cases hid : id = o.client_order_id_
  · subst hid
    rw [Function.update_self]
    constructor
    · intro hw
      split at hw
      · cases hw
      · next hopen =>
        refine ⟨{ o with qty_ := leaves }, ?_, rfl, Option.some.inj hw⟩
        rw [leftOf_of_ne hopen]
        exact List.mem_append_left _ (List.mem_cons_self ..)
    · intro ⟨x, hx, hkey, hw⟩
      have hx' : x ∈ leftOf o leaves :=
        (List.mem_append.mp hx).resolve_right fun hx => hfree x hx hkey
      unfold leftOf at hx'
      split at hx'
      · cases hx'
      · next hopen =>
        rw [List.mem_singleton.mp hx'] at hw
        rw [if_neg hopen, ← hw]
  · rw [Function.update_of_ne hid, h id w]
    have hkey_o : key o ≠ (o.client_id_, id) := fun heq => hid (congrArg Prod.snd heq).symm
    constructor
    · intro ⟨x, hx, hkey, hw⟩
      exact ⟨x, List.mem_append_right _ hx, hkey, hw⟩
    · intro ⟨x, hx, hkey, hw⟩
      refine ⟨x, (List.mem_append.mp hx).resolve_left fun hx => ?_, hkey, hw⟩
      exact hkey_o ((key_of_mem_leftOf hx).symm.trans hkey)

/-- An order of the client is taken out. -/
theorem erase (h : Works c orders working) (id : ℕ) :
    Works c (orders.filter fun x => decide (key x ≠ (c, id))) (Function.update working id none) := by
  intro id' w
  by_cases hid : id' = id
  · subst hid
    rw [Function.update_self]
    constructor
    · intro hw
      cases hw
    · intro ⟨x, hx, hkey, _⟩
      exact absurd hkey (of_decide_eq_true (List.mem_filter.mp hx).2)
  · rw [Function.update_of_ne hid, h id' w]
    constructor
    · intro ⟨x, hx, hkey, hw⟩
      refine ⟨x, List.mem_filter.mpr ⟨hx, decide_eq_true fun heq => ?_⟩, hkey, hw⟩
      exact hid (congrArg Prod.snd (hkey.symm.trans heq))
    · intro ⟨x, hx, hkey, hw⟩
      exact ⟨x, (List.mem_filter.mp hx).1, hkey, hw⟩

/-- Of one of the client's orders `leaves` is left. -/
theorem replace (h : Works c (before ++ o :: after) working)
    (hkeys : ((before ++ o :: after).map key).Nodup) (hclient : o.client_id_ = c) (leaves : ℕ) :
    Works c (before ++ (leftOf o leaves ++ after)) (Function.update working o.client_order_id_
      (if leaves = 0 then none else some ⟨o.side_, leaves⟩)) := by
  -- without the order first, then with what is left of it
  have hothers : ∀ x ∈ before ++ after, key x ≠ key o := by
    rw [List.map_append, List.map_cons, List.nodup_middle, List.nodup_cons,
      ← List.map_append] at hkeys
    intro x hx heq
    exact hkeys.1 (heq ▸ List.mem_map_of_mem hx)
  have hkey : key o = (c, o.client_order_id_) := by
    rw [← hclient]
    rfl
  have hrest := h.erase o.client_order_id_
  have hfilter : (before ++ o :: after).filter
      (fun x => decide (key x ≠ (c, o.client_order_id_))) = before ++ after := by
    rw [← hkey, List.filter_append, List.filter_cons_of_neg (by simp), ← List.filter_append]
    exact List.filter_eq_self.mpr fun x hx => decide_eq_true (hothers x hx)
  rw [hfilter] at hrest
  have hafter := hrest.insert hclient hothers leaves
  rw [Function.update_idem] at hafter
  apply hafter.congr
  intro x
  simp only [List.mem_append]
  exact or_left_comm

/-- Of another client's order `leaves` is left. -/
theorem replace_other (h : Works c (before ++ o :: after) working) (hclient : o.client_id_ ≠ c)
    (leaves : ℕ) : Works c (before ++ (leftOf o leaves ++ after)) working := by
  apply h.of_others
  intro x hx
  have hne : x ≠ o := fun heq => hclient (heq ▸ hx)
  have hleft : x ∉ leftOf o leaves := fun hmem =>
    hclient ((congrArg Prod.fst (key_of_mem_leftOf hmem)).symm.trans hx)
  simp only [List.mem_append, List.mem_cons, hne, hleft, false_or]

end Works

/-! ## Answers -/

/-- Answers about the orders of one ticker: the responses go into the channel. -/
structure Said (k k' : Link) (ticker_id : ℕ) (responses : List MEClientResponse) : Prop where
  answers : ReflTransGen Answer k k'
  requests : k'.requests = k.requests
  responses_eq : k'.responses = k.responses ++ responses
  others : ∀ t, t ≠ ticker_id → k'.working t = k.working t

namespace Said

variable {k k' k'' : Link} {t : ℕ} {responses more : List MEClientResponse}

theorem refl (k : Link) (t : ℕ) : Said k k t [] :=
  ⟨.refl, rfl, (List.append_nil _).symm, fun _ _ => rfl⟩

theorem trans (h : Said k k' t responses) (h' : Said k' k'' t more) :
    Said k k'' t (responses ++ more) where
  answers := h.answers.trans h'.answers
  requests := h'.requests.trans h.requests
  responses_eq := by rw [h'.responses_eq, h.responses_eq, List.append_assoc]
  others := fun t ht => (h'.others t ht).trans (h.others t ht)

end Said

section answers

variable {c t leaves : ℕ} {k : Link} {o taker maker : MEOrderInfo} {after own : List MEOrderInfo}
  {r : MEClientResponse}

theorem working_setWorking_self (k : Link) (t id : ℕ) (w : Option WorkingOrder) :
    (k.setWorking t id w).working t = Function.update (k.working t) id w := by
  funext id'
  by_cases hid : id' = id
  · subst hid
    simp [setWorking]
  · simp [setWorking, hid]

theorem working_setWorking_of_ne {t' : ℕ} (ht : t' ≠ t) (id : ℕ) (w : Option WorkingOrder) :
    (k.setWorking t id w).working t' = k.working t' := by
  funext id'
  simp [setWorking, ht]

/-- The responses of a fill: one to each of the two clients. -/
theorem responsesTo_fill (c : ℕ) (r r' : MEClientResponse) (u u' : MEMarketUpdate) :
    responsesTo c [.response r, .response r', .update u, .update u'] =
      responsesTo c [.response r] ++ responsesTo c [.response r'] :=
  responsesTo_append c [.response r] [.response r', .update u, .update u']

/-- A FILLED about an order of the list. -/
theorem said_fill (before : List MEOrderInfo) (h : Works c (before ++ o :: after) (k.working t))
    (hkeys : ((before ++ o :: after).map key).Nodup) (htype : r.type_ = .FILLED)
    (hclient : r.client_id_ = o.client_id_) (hticker : r.ticker_id_ = t)
    (hid : r.client_order_id_ = o.client_order_id_) (hside : r.side_ = o.side_)
    (hexec : 0 < r.exec_qty_) (hleaves : r.exec_qty_ + r.leaves_qty_ = o.qty_) :
    ∃ k', Said k k' t (responsesTo c [.response r]) ∧
      Works c (before ++ (leftOf o r.leaves_qty_ ++ after)) (k'.working t) := by
  subst hticker
  by_cases hmine : o.client_id_ = c
  · have hw : k.working r.ticker_id_ r.client_order_id_ = some ⟨o.side_, o.qty_⟩ := by
      rw [hid]
      refine (h _ _).mpr ⟨o, List.mem_append_right _ (List.mem_cons_self ..), ?_, rfl⟩
      rw [← hmine]
      rfl
    rw [responsesTo_self (hclient.trans hmine)]
    refine ⟨_, ⟨.single (.fill hw htype hside hexec hleaves), rfl, rfl, ?_⟩, ?_⟩
    · intro t' ht'
      exact working_setWorking_of_ne ht' _ _
    · show Works c _ ((k.setWorking _ _ _).working r.ticker_id_)
      rw [working_setWorking_self, hid]
      exact h.replace hkeys hmine _
  · rw [responsesTo_of_ne (hclient ▸ hmine)]
    exact ⟨k, Said.refl k _, h.replace_other hmine _⟩

/-- The two FILLEDs of one trade: the taker's, then the maker's. -/
theorem said_fillEvents {fill : ℕ}
    (h : Works c ({ taker with qty_ := leaves } :: maker :: after) (k.working t))
    (hkeys : ((taker :: maker :: after).map key).Nodup) (hpos : 0 < fill) (hleaves : fill ≤ leaves)
    (hmaker : fill ≤ maker.qty_) :
    ∃ k', Said k k' t (responsesTo c (fillEvents t taker maker fill (leaves - fill))) ∧
      Works c (leftOf taker (leaves - fill) ++ (leftOf maker (maker.qty_ - fill) ++ after))
        (k'.working t) := by
  obtain ⟨k₁, hsaid₁, h₁⟩ := said_fill [] (o := { taker with qty_ := leaves })
    (r := { type_ := .FILLED, client_id_ := taker.client_id_, ticker_id_ := t,
            client_order_id_ := taker.client_order_id_,
            market_order_id_ := taker.market_order_id_, side_ := taker.side_,
            price_ := maker.price_, exec_qty_ := fill, leaves_qty_ := leaves - fill })
    h hkeys rfl rfl rfl rfl rfl hpos (Nat.add_sub_cancel' hleaves)
  obtain ⟨k₂, hsaid₂, h₂⟩ := said_fill (leftOf taker (leaves - fill)) (o := maker)
    (r := { type_ := .FILLED, client_id_ := maker.client_id_, ticker_id_ := t,
            client_order_id_ := maker.client_order_id_,
            market_order_id_ := maker.market_order_id_, side_ := maker.side_,
            price_ := maker.price_, exec_qty_ := fill, leaves_qty_ := maker.qty_ - fill })
    h₁ (nodup_leftOf hkeys) rfl rfl rfl rfl rfl hpos (Nat.add_sub_cancel' hmaker)
  refine ⟨k₂, ?_, h₂⟩
  unfold fillEvents
  rw [responsesTo_fill]
  exact hsaid₁.trans hsaid₂

/-- **A sweep is a number of FILLEDs**; induction on the orders swept. -/
theorem said_sweep {makers : List MEOrderInfo} :
    ∀ {k : Link} {leaves : ℕ}, Works c (leftOf taker leaves ++ (makers ++ own)) (k.working t) →
      ((taker :: (makers ++ own)).map key).Nodup → (∀ x ∈ makers, 0 < x.qty_) →
      ∃ k', Said k k' t (responsesTo c (sweep t taker makers leaves).2.2) ∧
        Works c (leftOf taker (sweep t taker makers leaves).2.1 ++
          ((sweep t taker makers leaves).1 ++ own)) (k'.working t) := by
  induction makers with
  | nil =>
    intro k leaves h _ _
    exact ⟨k, Said.refl k t, h⟩
  | cons maker makers ih =>
    intro k leaves h hkeys hqty
    obtain ⟨hmaker, hmakers⟩ := List.forall_mem_cons.mp hqty
    rw [sweep]
    split
    · exact ⟨k, Said.refl k t, h⟩
    · next hgo =>
      have hleaves : leaves ≠ 0 := fun hzero => hgo (.inl hzero)
      simp only
      set fill := min leaves maker.qty_ with hfill
      have hpos : 0 < fill := lt_min (Nat.pos_of_ne_zero hleaves) hmaker
      rw [leftOf_of_ne hleaves] at h
      obtain ⟨k₁, hsaid₁, h₁⟩ := said_fillEvents h hkeys hpos (min_le_left ..) (min_le_right ..)
      split
      · next hgone =>
        -- the maker is gone, the rest of the taker goes on
        have hkeys' : ((taker :: (makers ++ own)).map key).Nodup :=
          hkeys.sublist (((List.sublist_cons_self ..).cons_cons _).map _)
        rw [hgone, Nat.sub_self] at h₁
        obtain ⟨k₂, hsaid₂, h₂⟩ := ih h₁ hkeys' hmakers
        refine ⟨k₂, ?_, h₂⟩
        rw [responsesTo_append]
        exact hsaid₁.trans hsaid₂
      · next hrest =>
        rw [leftOf_of_ne (o := maker) (by omega)] at h₁
        exact ⟨k₁, hsaid₁, h₁⟩

/-! ## The calls of a book -/

variable {P : PriorityBook} {client_id client_order_id qty : ℕ} {s : Side} {price : ℤ}

/-- The orders after an order was added: what is left of it, and of the side it traded with. -/
theorem add_orders_perm (P : PriorityBook) (t client_id client_order_id : ℕ) (price : ℤ) (qty : ℕ)
    (hs : s.IsTrading) :
    let taker := P.taker t client_id client_order_id s price qty
    let swept := sweep t taker (P.side s.opposite) qty
    (P.add t client_id client_order_id s price qty).1.orders.Perm
      (leftOf taker swept.2.1 ++ (swept.1 ++ P.side s)) := by
  intro taker swept
  obtain ⟨hopp, -, hown⟩ := P.side_add t client_id client_order_id price qty hs
  apply (PriorityBook.orders_perm _ hs).trans
  rw [hopp, hown]
  unfold leftOf
  split
  · exact List.perm_append_comm
  · refine ((List.perm_orderedInsert _ _ _).append_right _).trans ?_
    rw [List.cons_append, List.singleton_append]
    exact List.perm_append_comm.cons _

/-- A new order is answered with the FILLEDs of its sweep, once it is accepted. -/
theorem said_add (hwf : P.WF) (hs : s.IsTrading)
    (hkey : P.KeyFree (.add client_id client_order_id s price qty))
    (h : Works c (leftOf (P.taker t client_id client_order_id s price qty) qty ++ P.orders)
      (k.working t)) :
    ∃ k' responses,
      responsesTo c (P.published t (.add client_id client_order_id s price qty)) =
        responsesTo c [PriorityBook.acceptedEvent
          (P.taker t client_id client_order_id s price qty)] ++ responses ∧
      Said k k' t responses ∧
      Works c (P.step t (.add client_id client_order_id s price qty)).1.orders (k'.working t) := by
  have hperm := add_orders_perm P t client_id client_order_id price qty hs
  simp only at hperm
  set x := P.taker t client_id client_order_id s price qty with hx
  -- the fills carry the last bits of the market order id
  set taker := { x with market_order_id_ := x.market_order_id_ % 2 ^ 32 } with htaker
  obtain ⟨hrest, hleaves⟩ : (sweep t taker (P.side s.opposite) qty).1 =
      (sweep t x (P.side s.opposite) qty).1 ∧ (sweep t taker (P.side s.opposite) qty).2.1 =
      (sweep t x (P.side s.opposite) qty).2.1 := 
    PriorityBook.sweep_congr (show taker.side_ = x.side_ from rfl)
      (show taker.price_ = x.price_ from rfl) _ _
  have hmap : ∀ (leaves : ℕ) (orders : List MEOrderInfo),
      (leftOf taker leaves ++ orders).map (fun o => (key o, (⟨o.side_, o.qty_⟩ : WorkingOrder))) =
        (leftOf x leaves ++ orders).map fun o => (key o, ⟨o.side_, o.qty_⟩) := by
    intro leaves orders
    unfold leftOf
    split
    · rfl
    · rfl
  have hsides := (PriorityBook.orders_perm P hs).trans List.perm_append_comm
  have hbefore : Works c (leftOf taker qty ++ (P.side s.opposite ++ P.side s)) (k.working t) := by
    apply Works.of_map _ (hmap ..).symm
    apply h.congr
    intro y
    simp only [List.mem_append, hsides.mem_iff]
  have hkeys : ((taker :: (P.side s.opposite ++ P.side s)).map key).Nodup := by
    rw [List.map_cons, List.nodup_cons, ← (hsides.map key).nodup_iff]
    refine ⟨?_, hwf.keys⟩
    intro hmem
    obtain ⟨y, hy, heq⟩ := List.mem_map.mp hmem
    exact hkey y (hsides.mem_iff.mpr hy) heq
  have hqty : ∀ y ∈ P.side s.opposite, 0 < y.qty_ := fun y hy =>
    (hwf.qty y (PriorityBook.mem_orders.mpr ⟨_, hs.opposite, hy⟩)).1
  obtain ⟨k', hsaid, hafter⟩ := said_sweep hbefore hkeys hqty
  refine ⟨k', _, ?_, hsaid, ?_⟩
  · show responsesTo c (PriorityBook.acceptedEvent x :: _ ++ _) = _
    have hlast : responsesTo c (if (sweep t taker (P.side s.opposite) qty).2.1 = 0 then [] else
        [PriorityBook.addEvent { x with
          qty_ := (sweep t taker (P.side s.opposite) qty).2.1 }]) = [] := by
      split
      · rfl
      · rfl
    rw [responsesTo_append, hlast, List.append_nil]
    exact responsesTo_append c [_] _
  · rw [hrest, hleaves] at hafter
    apply (hafter.of_map (hmap ..)).congr
    intro y
    exact hperm.mem_iff.symm

/-- The answer to a cancel of another client says nothing to this one. -/
theorem said_cancel_other {order_id : ℕ} (hclient : client_id ≠ c)
    (h : Works c P.orders (k.working t)) :
    responsesTo c (P.published t (.cancel client_id order_id)) = [] ∧
      Works c (P.step t (.cancel client_id order_id)).1.orders (k.working t) := by
  simp only [PriorityBook.published, PriorityBook.step, PriorityBook.cancel]
  split
  · exact ⟨responsesTo_of_ne hclient, h⟩
  · refine ⟨responsesTo_of_ne hclient, ?_⟩
    apply h.of_others
    intro x hx
    rw [PriorityBook.erase_orders, List.mem_filter, decide_eq_true_eq]
    have hne : key x ≠ (client_id, order_id) := fun heq =>
      hclient ((congrArg Prod.fst heq).symm.trans hx)
    exact (and_iff_left hne).symm

/-- **The client's new order is accepted**, then filled as far as it goes. -/
theorem answers_add {q : MEClientRequest} {rest : List MEClientRequest}
    (hrequests : k.requests = q :: rest) (hnew : q.type_ = .NEW) (hwf : P.WF)
    (hfits : P.Fits (.add q.client_id_ q.order_id_ q.side_ q.price_ q.qty_))
    (h : Works q.client_id_ P.orders (k.working q.ticker_id_)) :
    ∃ k', ReflTransGen Answer k k' ∧ k'.requests = rest ∧
      k'.responses = k.responses ++ responsesTo q.client_id_ (P.published q.ticker_id_
        (.add q.client_id_ q.order_id_ q.side_ q.price_ q.qty_)) ∧
      Works q.client_id_ (P.step q.ticker_id_
        (.add q.client_id_ q.order_id_ q.side_ q.price_ q.qty_)).1.orders
        (k'.working q.ticker_id_) ∧
      ∀ t, t ≠ q.ticker_id_ → k'.working t = k.working t := by
  obtain ⟨⟨hs, -⟩, hkey, -⟩ := hfits
  set taker := P.taker q.ticker_id_ q.client_id_ q.order_id_ q.side_ q.price_ q.qty_ with htaker
  -- ACCEPTED; an order without a quantity is dropped at once
  set k₁ := ({ k with requests := rest }.setWorking q.ticker_id_ q.order_id_
    (some ⟨q.side_, q.qty_⟩)).send (responsesTo q.client_id_ [PriorityBook.acceptedEvent taker])
    with hk₁
  have haccept : Answer k k₁ := by
    rw [hk₁, show responsesTo q.client_id_ [PriorityBook.acceptedEvent taker] = [_] from
      responsesTo_self rfl]
    exact .accept hrequests hnew rfl rfl rfl rfl
  have hothers₁ : ∀ t, t ≠ q.ticker_id_ → k₁.working t = k.working t := fun t ht =>
    working_setWorking_of_ne (k := { k with requests := rest }) ht _ _
  have hworking₁ : k₁.working q.ticker_id_ =
      Function.update (k.working q.ticker_id_) q.order_id_ (some ⟨q.side_, q.qty_⟩) :=
    working_setWorking_self { k with requests := rest } _ _ _
  have hinsert := h.insert (o := taker) rfl hkey q.qty_
  obtain ⟨k₂, hanswers, hrequests₂, hresponses₂, hothers₂, hworks⟩ :
      ∃ k₂, ReflTransGen Answer k k₂ ∧ k₂.requests = k₁.requests ∧
        k₂.responses = k₁.responses ∧ (∀ t, t ≠ q.ticker_id_ → k₂.working t = k.working t) ∧
        Works q.client_id_ (leftOf taker q.qty_ ++ P.orders) (k₂.working q.ticker_id_) := by
    by_cases hqty : q.qty_ = 0
    · have hw : k₁.working q.ticker_id_ q.order_id_ = some ⟨q.side_, q.qty_⟩ := by
        rw [hworking₁, Function.update_self]
      refine ⟨_, (ReflTransGen.single haccept).tail (.drop hw hqty), rfl, rfl, ?_, ?_⟩
      · intro t ht
        rw [working_setWorking_of_ne ht]
        exact hothers₁ t ht
      · rw [working_setWorking_self, hworking₁, Function.update_idem]
        rw [if_pos hqty] at hinsert
        exact hinsert
    · refine ⟨k₁, .single haccept, rfl, rfl, hothers₁, ?_⟩
      rw [hworking₁]
      rw [if_neg hqty] at hinsert
      exact hinsert
  obtain ⟨k', responses, hresponses, hsaid, hafter⟩ := said_add hwf hs hkey hworks
  refine ⟨k', hanswers.trans hsaid.answers, hsaid.requests.trans hrequests₂, ?_, hafter, ?_⟩
  · rw [hsaid.responses_eq, hresponses₂, hresponses, ← List.append_assoc]
    rfl
  · intro t ht
    rw [hsaid.others t ht]
    exact hothers₂ t ht

/-- **The client's cancel is answered** with CANCELED or CANCEL_REJECTED. -/
theorem answers_cancel {q : MEClientRequest} {rest : List MEClientRequest}
    (hrequests : k.requests = q :: rest) (hcancel : q.type_ = .CANCEL)
    (h : Works q.client_id_ P.orders (k.working q.ticker_id_)) :
    ∃ k', Answer k k' ∧ k'.requests = rest ∧
      k'.responses = k.responses ++ responsesTo q.client_id_ (P.published q.ticker_id_
        (.cancel q.client_id_ q.order_id_)) ∧
      Works q.client_id_ (P.step q.ticker_id_ (.cancel q.client_id_ q.order_id_)).1.orders
        (k'.working q.ticker_id_) ∧
      ∀ t, t ≠ q.ticker_id_ → k'.working t = k.working t := by
  simp only [PriorityBook.published, PriorityBook.step, PriorityBook.cancel]
  cases hfind : P.find (q.client_id_, q.order_id_) with
  | none =>
    have hnone : ∀ x ∈ P.orders, key x ≠ (q.client_id_, q.order_id_) := by
      intro x hx heq
      exact List.find?_eq_none.mp hfind x hx (decide_eq_true heq)
    have hreject := Answer.reject hrequests hcancel (h.eq_none hnone)
      (r := { type_ := .CANCEL_REJECTED, client_id_ := q.client_id_, ticker_id_ := q.ticker_id_,
              client_order_id_ := q.order_id_ }) rfl
    exact ⟨_, hreject, rfl, congrArg (k.responses ++ ·) (responsesTo_self rfl).symm, h,
      fun _ _ => rfl⟩
  | some o =>
    have hmem := List.mem_of_find?_eq_some hfind
    have hkey : key o = (q.client_id_, q.order_id_) :=
      of_decide_eq_true (List.find?_some (p := fun o => decide (key o = _)) hfind)
    have hw := (h q.order_id_ ⟨o.side_, o.qty_⟩).mpr ⟨o, hmem, hkey, rfl⟩
    have hcanceled := Answer.cancel hrequests hcancel hw
      (r := { type_ := .CANCELED, client_id_ := q.client_id_, ticker_id_ := q.ticker_id_,
              client_order_id_ := q.order_id_, market_order_id_ := o.market_order_id_,
              side_ := o.side_, price_ := o.price_, leaves_qty_ := o.qty_ }) rfl rfl rfl rfl
    refine ⟨_, hcanceled, rfl, congrArg (k.responses ++ ·) (responsesTo_self rfl).symm, ?_, ?_⟩
    · show Works _ _ (({ k with requests := rest }.setWorking _ _ _).working q.ticker_id_)
      rw [working_setWorking_self, PriorityBook.erase_orders]
      exact h.erase q.order_id_
    · intro t ht
      exact working_setWorking_of_ne (k := { k with requests := rest }) ht _ _

end answers

/-! ## The line -/

theorem MEClientRequest.call_cases {q : MEClientRequest} {call : Call} (h : q.call? = some call) :
    q.type_ = .NEW ∧ call = .add q.client_id_ q.order_id_ q.side_ q.price_ q.qty_ ∨
      q.type_ = .CANCEL ∧ call = .cancel q.client_id_ q.order_id_ := by
  unfold MEClientRequest.call? at h
  split at h
  · next htype => exact .inl ⟨htype, (Option.some.inj h).symm⟩
  · next htype => exact .inr ⟨htype, (Option.some.inj h).symm⟩
  · cases h
  · cases h

namespace MatchingEngine

/-- A request fits the book it comes to. -/
def Fits (e : MatchingEngine) (q : MEClientRequest) : Prop :=
  ∀ c ∈ q.call?, (e.ticker_order_book_ q.ticker_id_).toPriorityBook.Fits c

instance (e : MatchingEngine) (q : MEClientRequest) : Decidable (e.Fits q) :=
  inferInstanceAs (Decidable (∀ c ∈ q.call?, _))

/-- A request that was processed was for an existing ticker, and a call. -/
theorem call_of_process {e e' : MatchingEngine} {q : MEClientRequest}
    (h : e.processClientRequest q = .ok e') :
    q.ticker_id_ < ME_MAX_TICKERS ∧ ∃ c, q.call? = some c := by
  unfold processClientRequest at h
  split at h
  · next hticker =>
    obtain ⟨book, hbook, _⟩ := bind_eq_ok.mp h
    refine ⟨hticker, ?_⟩
    unfold dispatch at hbook
    unfold MEClientRequest.call?
    split at hbook
    · exact ⟨_, rfl⟩
    · exact ⟨_, rfl⟩
    · cases hbook
    · cases hbook
  · cases h

end MatchingEngine

/-- The books after a request. -/
def booksAfter (P : ℕ → PriorityBook) (q : MEClientRequest) : ℕ → PriorityBook :=
  match q.call? with
  | none => P
  | some c => Function.update P q.ticker_id_ ((P q.ticker_id_).step q.ticker_id_ c).1

theorem booksAfter_eq {P : ℕ → PriorityBook} {q : MEClientRequest} {c : Call}
    (h : q.call? = some c) : booksAfter P q =
      Function.update P q.ticker_id_ ((P q.ticker_id_).step q.ticker_id_ c).1 := by
  unfold booksAfter
  rw [h]

namespace Line

/-- The books hold the orders of `P`, and `k` is what the client can tell of it. -/
structure Refines (client_id : ℕ) (l : Line) (P : ℕ → PriorityBook) (k : Link) : Prop where
  engine : l.matching_engine.Refines P
  requests : k.requests = l.requests
  responses : k.responses = l.responses
  works : ∀ t, Works client_id (P t).orders (k.working t)

variable {c : ℕ} {l l' : Line} {P : ℕ → PriorityBook} {k : Link} {q : MEClientRequest}

theorem refines_new (c : ℕ) : Refines c new (fun _ => PriorityBook.empty) Link.empty where
  engine := MatchingEngine.refines_new
  requests := rfl
  responses := rfl
  works := by
    intro t id w
    constructor
    · intro hw
      cases hw
    · intro ⟨x, hx, _⟩
      cases hx

theorem Refines.ask (h : Refines c l P k) (requests : List MEClientRequest) :
    Refines c (l.ask requests) P (k.ask requests) where
  engine := h.engine
  requests := congrArg (· ++ requests) h.requests
  responses := h.responses
  works := h.works

/-- The engine's part of processing a request. -/
theorem Refines.engine_process (h : Refines c l P k) (hfits : l.matching_engine.Fits q)
    (hl : l.process c q = .ok l') :
    ∃ call, q.call? = some call ∧ (P q.ticker_id_).Fits call ∧
      l'.matching_engine.Refines (booksAfter P q) ∧
      l'.requests = l.requests ∧
      l'.responses = l.responses ++ responsesTo c ((P q.ticker_id_).published q.ticker_id_ call) := by
  obtain ⟨e, he, hl⟩ := bind_eq_ok.mp hl
  obtain rfl := Except.ok.inj hl
  obtain ⟨hticker, call, hcall⟩ := MatchingEngine.call_of_process he
  obtain ⟨sh, hbook⟩ := h.engine.books q.ticker_id_
  have hfits' := hfits call hcall
  rw [hbook.toPriorityBook_eq] at hfits'
  refine ⟨call, hcall, hfits', ?_⟩
  rcases MatchingEngine.processClientRequest_spec_of_fits h.engine hticker hcall hfits' with
    ⟨book, _, hprocess, hrefines⟩ | ⟨herr, _⟩
  · obtain rfl := Except.ok.inj (he.symm.trans hprocess)
    rw [← booksAfter_eq hcall] at hrefines
    refine ⟨hrefines, rfl, ?_⟩
    simp only [MatchingEngine.store_sent, List.drop_left]
  · cases he.symm.trans herr

/-- What is worked after the book of the request's ticker changed. -/
theorem works_after {k' : Link} {call : Call} (h : ∀ t, Works c (P t).orders (k.working t))
    (hcall : q.call? = some call)
    (hself : Works c ((P q.ticker_id_).step q.ticker_id_ call).1.orders (k'.working q.ticker_id_))
    (hothers : ∀ t, t ≠ q.ticker_id_ → k'.working t = k.working t) (t : ℕ) :
    Works c (booksAfter P q t).orders (k'.working t) := by
  rw [booksAfter_eq hcall]
  by_cases ht : t = q.ticker_id_
  · subst ht
    rw [Function.update_self]
    exact hself
  · rw [Function.update_of_ne ht, hothers t ht]
    exact h t

/-- **A request of the client is a number of answers.** -/
theorem Refines.processNext {rest : List MEClientRequest} (h : Refines c l P k)
    (hrequests : l.requests = q :: rest) (hclient : q.client_id_ = c)
    (hfits : l.matching_engine.Fits q) (hl : l.processNext c = .ok l') :
    ∃ k', ReflTransGen Answer k k' ∧ Refines c l' (booksAfter P q) k' := by
  subst hclient
  have hlink : Refines q.client_id_ { l with requests := rest } P { k with requests := rest } :=
    ⟨h.engine, rfl, h.responses, h.works⟩
  unfold Line.processNext at hl
  rw [hrequests] at hl
  obtain ⟨call, hcall, hfits', hengine, hrequests', hresponses'⟩ := hlink.engine_process hfits hl
  have hrequests_k : k.requests = q :: rest := h.requests.trans hrequests
  have hwf := h.engine.wf q.ticker_id_
  rcases MEClientRequest.call_cases hcall with ⟨hnew, rfl⟩ | ⟨hcancel, rfl⟩
  · obtain ⟨k', hanswers, hk'_requests, hk'_responses, hworks, hothers⟩ :=
      answers_add hrequests_k hnew hwf hfits' (h.works q.ticker_id_)
    refine ⟨k', hanswers, hengine, hk'_requests.trans hrequests'.symm, ?_,
      works_after h.works hcall hworks hothers⟩
    rw [hk'_responses, hresponses', h.responses]
  · obtain ⟨k', hanswer, hk'_requests, hk'_responses, hworks, hothers⟩ :=
      answers_cancel hrequests_k hcancel (h.works q.ticker_id_)
    refine ⟨k', .single hanswer, hengine, hk'_requests.trans hrequests'.symm, ?_,
      works_after h.works hcall hworks hothers⟩
    rw [hk'_responses, hresponses', h.responses]

/-- **A request of another client is a number of answers**: the fills of orders that rest. -/
theorem Refines.process_other (h : Refines c l P k) (hclient : q.client_id_ ≠ c)
    (hfits : l.matching_engine.Fits q) (hl : l.process c q = .ok l') :
    ∃ k', ReflTransGen Answer k k' ∧ Refines c l' (booksAfter P q) k' := by
  obtain ⟨call, hcall, hfits', hengine, hrequests', hresponses'⟩ := h.engine_process hfits hl
  have hwf := h.engine.wf q.ticker_id_
  rcases MEClientRequest.call_cases hcall with ⟨_, rfl⟩ | ⟨_, rfl⟩
  · obtain ⟨⟨hs, -⟩, hkey, -⟩ := hfits'
    have hworks : Works c (leftOf ((P q.ticker_id_).taker q.ticker_id_ q.client_id_ q.order_id_
        q.side_ q.price_ q.qty_) q.qty_ ++ (P q.ticker_id_).orders) (k.working q.ticker_id_) := by
      apply (h.works q.ticker_id_).of_others
      intro x hx
      rw [List.mem_append, or_iff_right]
      intro hleft
      exact hclient ((congrArg Prod.fst (key_of_mem_leftOf hleft)).symm.trans hx)
    obtain ⟨k', responses, hresponses, hsaid, hafter⟩ := said_add hwf hs hkey hworks
    refine ⟨k', hsaid.answers, hengine,
      (hsaid.requests.trans h.requests).trans hrequests'.symm, ?_,
      works_after h.works hcall hafter hsaid.others⟩
    have haccepted : responsesTo c [PriorityBook.acceptedEvent ((P q.ticker_id_).taker q.ticker_id_
        q.client_id_ q.order_id_ q.side_ q.price_ q.qty_)] = [] := responsesTo_of_ne hclient
    rw [hsaid.responses_eq, hresponses', hresponses, haccepted, h.responses]
    rfl
  · obtain ⟨hresponses, hafter⟩ := said_cancel_other hclient (h.works q.ticker_id_)
    refine ⟨k, .refl, hengine, h.requests.trans hrequests'.symm, ?_,
      works_after h.works hcall hafter fun _ _ => rfl⟩
    rw [hresponses', hresponses, List.append_nil]
    exact h.responses

end Line

end TradingEcosystem
