import TradingEcosystem.System.Member

/-!
# At Most One Working Order

What the client has on one side of a ticker, wherever it is: asked for, resting, or finished with
the last response on its way.

- `workingOrders` : the order ids of these
- `Agrees.atMostOne` : at most one, and none when the order manager believes there is none
- `atMostOne_run` : every run of an order manager against the engine
-/

namespace TradingEcosystem

open Link
open MEOrderBook (Call)
open PriorityBook (key)

variable {F σ ι : Type}

/-- The last response about an order. -/
def MEClientResponse.IsFinal (r : MEClientResponse) : Prop :=
  r.type_ = .CANCELED ∨ r.type_ = .FILLED ∧ r.leaves_qty_ = 0

instance : DecidablePred MEClientResponse.IsFinal := fun _ => inferInstanceAs (Decidable (_ ∨ _))

/-- The number of last responses. -/
def finals (responses : List MEClientResponse) : ℕ :=
  responses.countP fun r => decide r.IsFinal

theorem finals_cons_of_not {r : MEClientResponse} (h : ¬ r.IsFinal)
    (responses : List MEClientResponse) : finals (r :: responses) = finals responses :=
  List.countP_cons_of_neg (by rwa [decide_eq_true_eq])

/-- An order is open, or its last response is to come; induction on what is to be told. -/
theorem Told.finals_le {rs : List MEClientResponse} {left : Option ℕ} :
    ∀ {qty : ℕ}, Told qty rs left → finals rs + (if left.isSome then 1 else 0) ≤ 1 := by
  induction rs with
  | nil =>
    intro qty _
    show 0 + _ ≤ 1
    split
    · exact Nat.le_refl _
    · exact Nat.zero_le _
  | cons r rs ih =>
    intro qty h
    have hlast : rs = [] → left = none → finals (r :: rs) + (if left.isSome then 1 else 0) ≤ 1 := by
      intro hrs hleft
      subst hrs hleft
      exact List.countP_le_length
    rcases h with ⟨_, hrs, hleft⟩ | ⟨hfilled, _, _, h⟩
    · exact hlast hrs hleft
    · split at h
      · exact hlast h.1 h.2
      · next hopen =>
        have hnot : ¬ r.IsFinal := by
          intro hfinal
          rcases hfinal with hcanceled | hzero
          · cases hfilled.symm.trans hcanceled
          · exact hopen hzero.2
        rw [finals_cons_of_not hnot]
        exact ih h

namespace Phase

variable {c : ℕ} {o : OMOrder} {news : List MEClientRequest} {answers : List MEClientResponse}
  {left : ℕ → Option ℕ}

/-- **At most one order is asked for, open or about to be heard of for the last time.** -/
theorem length_le (h : Phase c o news answers left) :
    news.length + finals answers + (if (left o.order_id_).isSome then 1 else 0) ≤ 1 := by
  rcases state_cases o with hstate | hstate | hstate
  · obtain ⟨hnews, hanswers, hleft⟩ := (idle_iff hstate).mp h
    rw [hnews, hanswers, hleft]
    exact Nat.zero_le _
  · rcases (asked_iff hstate).mp h with
      ⟨hnews, hanswers, hleft⟩ | ⟨hnews, ⟨r, rs, rfl, hr, hrs⟩, _⟩
    · rw [hnews, hanswers, hleft]
      exact Nat.le_refl 1
    · -- an ACCEPTED is not the last that is heard
      have hnot : ¬ r.IsFinal := by
        intro hfinal
        rcases hfinal with hcanceled | ⟨hfilled, _⟩
        · cases hr.symm.trans hcanceled
        · cases hr.symm.trans hfilled
      rw [hnews, List.length_nil, Nat.zero_add, finals_cons_of_not hnot]
      exact hrs.finals_le
  · obtain ⟨hnews, htold, _⟩ := (working_iff hstate).mp h
    rw [hnews, List.length_nil, Nat.zero_add]
    exact htold.finals_le

end Phase

namespace Member

/-- The ids of the client's orders on a side of a ticker: asked for, resting, or with the last
response in flight. -/
def workingOrders (A : Party F σ ι) (x : Member σ) (t : ℕ) (s : Side) : List ℕ :=
  (x.line.requests.filter fun q =>
      decide (q.type_ = .NEW ∧ q.ticker_id_ = t ∧ q.side_ = s)).map MEClientRequest.order_id_ ++
    (((x.line.matching_engine.ticker_order_book_ t).toPriorityBook.side s).filter fun o =>
      decide (o.client_id_ = A.client_id)).map MEOrderInfo.client_order_id_ ++
    (x.line.responses.filter fun r =>
      decide (r.IsFinal ∧ r.ticker_id_ = t ∧ r.side_ = s)).map MEClientResponse.client_order_id_

/-- At most one order of the client is working on a side of a ticker, and none when the order
manager has none. -/
structure AtMostOne (A : Party F σ ι) (x : Member σ) (t : ℕ) (s : Side) : Prop where
  length_le : (workingOrders A x t s).length ≤ 1
  eq_nil : ((A.orders x.party).ticker_side_order_ t s).order_state_ = .INVALID ∨
    ((A.orders x.party).ticker_side_order_ t s).order_state_ = .DEAD → workingOrders A x t s = []

variable {A : Party F σ ι} {x : Member σ} {P : ℕ → PriorityBook} {k : Link} {t : ℕ} {s : Side}

/-- A resting order of the client is open. -/
theorem Agrees.open_of_resting (h : Agrees A x P k) (hs : s.IsTrading) {o : MEOrderInfo}
    (ho : o ∈ (P t).side s) (hclient : o.client_id_ = A.client_id) :
    k.openFor t s o.client_order_id_ = some o.qty_ := by
  have hside : o.side_ = s := (h.line.engine.wf t).side s hs o ho
  have hkey : key o = (A.client_id, o.client_order_id_) := by
    rw [← hclient]
    rfl
  have hw : k.working t o.client_order_id_ = some ⟨o.side_, o.qty_⟩ :=
    (h.line.works t _ _).mpr ⟨o, PriorityBook.mem_orders.mpr ⟨s, hs, ho⟩, hkey, rfl⟩
  rw [hside] at hw
  exact Slots.openFor_of_working hw

/-- The client's resting orders: the one the order manager keeps, if any. -/
theorem Agrees.length_resting_le (h : Agrees A x P k) (hs : s.IsTrading) :
    (((P t).side s).filter fun o => decide (o.client_id_ = A.client_id)).length ≤
      if (k.openFor t s ((A.orders x.party).ticker_side_order_ t s).order_id_).isSome
        then 1 else 0 := by
  set resting := ((P t).side s).filter fun o => decide (o.client_id_ = A.client_id) with hresting
  set id := ((A.orders x.party).ticker_side_order_ t s).order_id_
  have hphase := h.slots.phase t s hs
  have hmem : ∀ o ∈ resting, key o = (A.client_id, id) ∧ (k.openFor t s id).isSome := by
    intro o ho
    obtain ⟨ho, hclient⟩ := List.mem_filter.mp ho
    have hopen := h.open_of_resting hs ho (of_decide_eq_true hclient)
    have hid : o.client_order_id_ = id := hphase.id_of_open hopen
    rw [← hid, hopen, ← of_decide_eq_true hclient]
    exact ⟨rfl, rfl⟩
  -- keys are distinct, and all of these are the same
  have hnodup : (resting.map key).Nodup := by
    have hsub : resting.Sublist ((P t).side s ++ (P t).side s.opposite) :=
      List.filter_sublist.trans (List.sublist_append_left ..)
    have hkeys := (h.line.engine.wf t).keys
    rw [((PriorityBook.orders_perm (P t) hs).map key).nodup_iff] at hkeys
    exact hkeys.sublist (hsub.map key)
  have hall : resting.map key ⊆ [(A.client_id, id)] := by
    intro y hy
    obtain ⟨o, ho, rfl⟩ := List.mem_map.mp hy
    rw [(hmem o ho).1]
    exact List.mem_singleton_self _
  have hlength := (hnodup.subperm hall).length_le
  rw [List.length_map, List.length_singleton] at hlength
  split
  · exact hlength
  · next hnone =>
    apply Nat.le_of_eq
    rw [List.length_eq_zero_iff, List.eq_nil_iff_forall_not_mem]
    intro o ho
    exact hnone (hmem o ho).2

/-- The last responses in flight. -/
theorem Agrees.length_final_eq (h : Agrees A x P k) :
    (x.line.responses.filter fun r =>
      decide (r.IsFinal ∧ r.ticker_id_ = t ∧ r.side_ = s)).length = finals (k.answersFor t s) := by
  unfold finals answersFor
  rw [List.countP_filter, ← List.countP_eq_length_filter, h.line.responses]
  apply List.countP_congr
  intro r _
  simp only [Bool.and_eq_true, decide_eq_true_eq]
  constructor
  · intro ⟨hfinal, hlabel⟩
    refine ⟨hfinal, ?_, hlabel⟩
    rcases hfinal with hcanceled | ⟨hfilled, _⟩
    · exact .inr (.inr hcanceled)
    · exact .inr (.inl hfilled)
  · intro ⟨hfinal, _, hlabel⟩
    exact ⟨hfinal, hlabel⟩

/-- **At most one order is working** where the client and the exchange agree. -/
theorem Agrees.atMostOne (h : Agrees A x P k) (hs : s.IsTrading) : AtMostOne A x t s := by
  have hphase := h.slots.phase t s hs
  have hlength : (workingOrders A x t s).length = (k.newsFor t s).length +
      (((P t).side s).filter fun o => decide (o.client_id_ = A.client_id)).length +
      finals (k.answersFor t s) := by
    obtain ⟨sh, hbook⟩ := h.line.engine.books t
    unfold workingOrders
    rw [hbook.toPriorityBook_eq, List.length_append, List.length_append, List.length_map,
      List.length_map, List.length_map, h.length_final_eq, newsFor, h.line.requests]
  have hresting := h.length_resting_le (t := t) hs
  constructor
  · have hle := hphase.length_le
    omega
  · intro hstate
    obtain ⟨hnews, hanswers, hnone⟩ := (Phase.idle_iff hstate).mp hphase
    apply List.eq_nil_of_length_eq_zero
    rw [hlength, hnews, hanswers]
    rw [hnone] at hresting
    exact Nat.add_eq_zero_iff.mpr ⟨(Nat.zero_add _).trans (Nat.le_zero.mp hresting), rfl⟩

/-! ## Valid runs -/

/-- The requests of other clients that the engine took. -/
def othersOf (events : List (Event ι)) : List MEClientRequest := events.filterMap Event.other?

theorem othersOf_append (events events' : List (Event ι)) :
    othersOf (events ++ events') = othersOf events ++ othersOf events' :=
  List.filterMap_append

theorem callsOf_append (t : ℕ) (requests requests' : List MEClientRequest) :
    callsOf t (requests ++ requests') = callsOf t requests ++ callsOf t requests' :=
  List.filterMap_append

/-- Each ticker has a window of prices, from `base` on; all requests are valid, no client uses an
order id twice, and the client sends fewer than `ME_MAX_ORDER_IDS` orders. -/
structure Valid (A : Party F σ ι) (base : ℕ → ℤ) (events : List (Event ι)) (x : Member σ) :
    Prop where
  client_id : A.client_id < ME_MAX_NUM_CLIENTS
  others : ∀ q ∈ othersOf events, q.client_id_ ≠ A.client_id
  calls : ∀ t, ValidCalls (base t) (callsOf t (othersOf events))
  sent : ∀ q ∈ (A.orders x.party).sent, q.type_ = .NEW →
    (base q.ticker_id_ ≤ q.price_ ∧ q.price_ < base q.ticker_id_ + ME_MAX_PRICE_LEVELS) ∧
      q.qty_ < 2 ^ 32
  count : newCount (A.orders x.party).sent < ME_MAX_ORDER_IDS

/-- What is known of the books: prices lie in the windows, and the ids of the other clients' orders
are those of their requests. -/
structure Tracks (A : Party F σ ι) (base : ℕ → ℤ) (events : List (Event ι))
    (P : ℕ → PriorityBook) : Prop where
  price : ∀ t, ∀ o ∈ (P t).orders, base t ≤ o.price_ ∧ o.price_ < base t + ME_MAX_PRICE_LEVELS
  key : ∀ t, ∀ o ∈ (P t).orders, o.client_id_ ≠ A.client_id →
    key o ∈ (callsOf t (othersOf events)).filterMap Call.newKey

variable {base : ℕ → ℤ} {events : List (Event ι)} {event : Event ι} {x' : Member σ}

/-- What the client has sent is an initial part of what it will have sent. -/
theorem sent_step (hstep : step A x event = .ok x') :
    (A.orders x.party).sent <+: (A.orders x'.party).sent := by
  rcases step_cases hstep with ⟨rfl, _⟩ | ⟨i, party, hi, _, rfl⟩ | ⟨_, _, _, _, _, _, rfl⟩ |
    ⟨_, _, _, _, _, rfl⟩ | ⟨r, rest, party, _, hr, _, rfl⟩
  · exact List.prefix_rfl
  · rcases A.moves hi with heq | ⟨_, _, _, _, _, hmoves⟩
    · rw [show A.orders _ = _ from heq]
    · obtain ⟨requests, hsends⟩ := OrderManager.sends_moveOrders hmoves
      exact ⟨requests, hsends.sent.symm⟩
  · exact List.prefix_rfl
  · exact List.prefix_rfl
  · exact ⟨[], (OrderManager.sends_onOrderUpdate (A.updates hr)).sent.symm⟩

/-- A run that is valid was valid before its last step. -/
theorem Valid.before (h : Valid A base (events ++ [event]) x') (hstep : step A x event = .ok x') :
    Valid A base events x where
  client_id := h.client_id
  others := by
    intro q hq
    apply h.others q
    rw [othersOf_append]
    exact List.mem_append_left _ hq
  calls := by
    intro t
    have hcalls := h.calls t
    rw [othersOf_append, callsOf_append] at hcalls
    exact ⟨fun c hc => hcalls.valid c (List.mem_append_left _ hc),
      hcalls.keys_nodup.sublist ((List.sublist_append_left ..).filterMap _)⟩
  sent := fun q hq => h.sent q ((sent_step hstep).subset hq)
  count := ((sent_step hstep).sublist.countP_le).trans_lt h.count

/-- **A request of the client fits.** -/
theorem Agrees.fits_own {q : MEClientRequest} (h : Agrees A x P k)
    (hvalid : Valid A base events x) (htracks : Tracks A base events P)
    (hq : q ∈ x.line.requests) : x.line.matching_engine.Fits q := by
  intro call hcall
  obtain ⟨sh, hbook⟩ := h.line.engine.books q.ticker_id_
  rw [hbook.toPriorityBook_eq]
  obtain ⟨hclient, hsent⟩ := h.mine q hq
  obtain ⟨hlt, hnew⟩ := h.slots.asked q (h.line.requests.symm ▸ hq)
  have hid : q.order_id_ < ME_MAX_ORDER_IDS := by
    rw [h.next_order_id] at hlt
    exact (Nat.le_of_lt_succ hlt).trans_lt hvalid.count
  rcases MEClientRequest.call_cases hcall with ⟨htype, rfl⟩ | ⟨_, rfl⟩
  · obtain ⟨hside, hfree⟩ := hnew htype
    obtain ⟨hprice, hqty⟩ := hvalid.sent q hsent htype
    refine ⟨⟨hside, hclient ▸ hvalid.client_id, hid, hqty⟩, ?_, ?_⟩
    · -- an order with this id would be worked
      intro o ho heq
      rw [hclient] at heq
      have hw := (h.line.works q.ticker_id_ q.order_id_ ⟨o.side_, o.qty_⟩).mpr ⟨o, ho, heq, rfl⟩
      cases hfree.symm.trans hw
    · intro o ho hindex
      exact priceToIndex_inj (htracks.price q.ticker_id_ o ho) hprice hindex
  · exact ⟨fun _ => hid, trivial, trivial⟩

/-- **A request of another client fits.** -/
theorem Agrees.fits_other {q : MEClientRequest} (h : Agrees A x P k)
    (hvalid : Valid A base (events ++ [.other q]) x') (htracks : Tracks A base events P) :
    x.line.matching_engine.Fits q := by
  intro call hcall
  obtain ⟨sh, hbook⟩ := h.line.engine.books q.ticker_id_
  rw [hbook.toPriorityBook_eq]
  have hcalls := hvalid.calls q.ticker_id_
  have hone : callsOf q.ticker_id_ (othersOf [(.other q : Event ι)]) = [call] :=
    callsOf_cons_self hcall
  rw [othersOf_append, callsOf_append, hone] at hcalls
  have hother : q.client_id_ ≠ A.client_id := by
    apply hvalid.others q
    rw [othersOf_append]
    exact List.mem_append_right _ (List.mem_singleton_self q)
  have hc := hcalls.valid call (List.mem_append_right _ (List.mem_singleton_self call))
  rcases MEClientRequest.call_cases hcall with ⟨_, rfl⟩ | ⟨_, rfl⟩
  · obtain ⟨hside, hclient, hid, hprice, hqty⟩ := hc
    refine ⟨⟨hside, hclient, hid, hqty⟩, ?_, ?_⟩
    · -- the id would have been used before
      intro o ho heq
      have hmem := htracks.key q.ticker_id_ o ho fun hmine =>
        hother ((congrArg Prod.fst heq).symm.trans hmine)
      have hnodup := hcalls.keys_nodup
      rw [List.filterMap_append] at hnodup
      exact (List.nodup_append.mp hnodup).2.2 _ hmem _ (List.mem_singleton_self _) heq
    · intro o ho hindex
      exact priceToIndex_inj (htracks.price q.ticker_id_ o ho) hprice hindex
  · exact ⟨fun _ => hc, trivial, trivial⟩

/-- The books stay within the windows, and their ids among those requested. -/
theorem Tracks.step (h : Tracks A base events P)
    (hown : ∀ q ∈ x.taken event, event = .other q ∨ q.client_id_ = A.client_id)
    (hrange : ∀ q ∈ x.taken event, ∀ call ∈ q.call?, call.InRange)
    (hprice : ∀ q ∈ x.taken event, q.type_ = .NEW →
      base q.ticker_id_ ≤ q.price_ ∧ q.price_ < base q.ticker_id_ + ME_MAX_PRICE_LEVELS) :
    Tracks A base (events ++ [event]) (x.booksAfterEvent P event) := by
  have hkeys : ∀ t, (callsOf t (othersOf events)).filterMap Call.newKey ⊆
      (callsOf t (othersOf (events ++ [event]))).filterMap Call.newKey := by
    intro t
    rw [othersOf_append, callsOf_append, List.filterMap_append]
    exact List.subset_append_left ..
  have hkept : Tracks A base (events ++ [event]) P :=
    ⟨h.price, fun t o ho hne => hkeys t (h.key t o ho hne)⟩
  unfold booksAfterEvent
  cases htaken : x.taken event with
  | none => exact hkept
  | some q =>
    cases hcall : q.call? with
    | none =>
      rw [Option.elim_some, booksAfter, hcall]
      exact hkept
    | some call =>
      have hin := hrange q htaken call hcall
      rw [Option.elim_some, booksAfter_eq hcall]
      -- the order a call brings is the requested one
      have hnew : ∀ client_id client_order_id s price qty,
          call = .add client_id client_order_id s price qty →
            q.type_ = .NEW ∧ client_id = q.client_id_ ∧ price = q.price_ := by
        intro client_id client_order_id s price qty hadd
        subst hadd
        rcases MEClientRequest.call_cases hcall with ⟨htype, heq⟩ | ⟨_, heq⟩
        · cases heq
          exact ⟨htype, rfl, rfl⟩
        · cases heq
      constructor
      · intro t
        by_cases ht : t = q.ticker_id_
        · subst ht
          rw [Function.update_self]
          apply PriorityBook.forall_step (fun _ => Iff.rfl) hin (h.price q.ticker_id_)
          intro client_id client_order_id s price qty hadd
          obtain ⟨htype, _, rfl⟩ := hnew _ _ _ _ _ hadd
          exact hprice q htaken htype
        · rw [Function.update_of_ne ht]
          exact h.price t
      · intro t
        by_cases ht : t = q.ticker_id_
        · subst ht
          rw [Function.update_self]
          apply PriorityBook.forall_step (fun _ => Iff.rfl) hin (hkept.key q.ticker_id_)
          intro client_id client_order_id s price qty hadd hother
          obtain ⟨_, rfl, _⟩ := hnew _ _ _ _ _ hadd
          subst hadd
          have hevent := (hown q htaken).resolve_right hother
          have hone : callsOf q.ticker_id_ (othersOf [(.other q : Event ι)]) = [_] :=
            callsOf_cons_self hcall
          rw [hevent, othersOf_append, callsOf_append, hone, List.filterMap_append]
          exact List.mem_append_right _ (List.mem_singleton_self _)
        · rw [Function.update_of_ne ht]
          exact hkept.key t

/-- **In a valid run the client and the exchange agree**; induction on the events. -/
theorem agrees_of_valid : ∀ {x : Member σ}, run A (new A) events = .ok x →
    Valid A base events x → ∃ P k, Agrees A x P k ∧ Tracks A base events P := by
  induction events using List.reverseRecOn with
  | nil =>
    intro x hrun _
    obtain rfl := Except.ok.inj hrun
    exact ⟨_, _, agrees_new A, nofun, nofun⟩
  | append_singleton events event ih =>
    intro x' hrun hvalid
    obtain ⟨x, hbefore, hlast⟩ := Lib.Runs.foldlM_append_eq_ok.mp hrun
    obtain ⟨x₁, hstep, hnil⟩ := Lib.Runs.foldlM_cons_eq_ok.mp hlast
    obtain rfl := Except.ok.inj hnil
    have hvalid' := hvalid.before hstep
    obtain ⟨P, k, h, htracks⟩ := ih hbefore hvalid'
    -- where the request that is taken comes from
    have hfits : ∀ q ∈ x.taken event, x.line.matching_engine.Fits q := by
      intro q hq
      cases event with
      | input i => cases hq
      | response => cases hq
      | request => exact h.fits_own hvalid' htracks (List.mem_of_mem_head? hq)
      | other q' =>
        obtain rfl := Option.some.inj hq
        exact h.fits_other hvalid htracks
    have hother : ∀ q ∈ event.other?, q.client_id_ ≠ A.client_id := by
      intro q hq
      apply hvalid.others q
      rw [othersOf_append]
      exact List.mem_append_right _ (List.mem_filterMap.mpr ⟨event, List.mem_singleton_self _, hq⟩)
    obtain ⟨k', h'⟩ := h.step ⟨hfits, hother⟩ hstep
    refine ⟨_, k', h', htracks.step ?_ ?_ ?_⟩
    · intro q hq
      cases event with
      | input i => cases hq
      | response => cases hq
      | request => exact .inr (h.mine q (List.mem_of_mem_head? hq)).1
      | other q' =>
        obtain rfl := Option.some.inj hq
        exact .inl rfl
    · intro q hq call hcall
      exact (hfits q hq call hcall).1
    · intro q hq htype
      cases event with
      | input i => cases hq
      | response => cases hq
      | request =>
        exact (hvalid'.sent q (h.mine q (List.mem_of_mem_head? hq)).2 htype).1
      | other q' =>
        obtain rfl := Option.some.inj hq
        have hcall : q'.call? =
            some (.add q'.client_id_ q'.order_id_ q'.side_ q'.price_ q'.qty_) := by
          unfold MEClientRequest.call?
          rw [htype]
        have hone : callsOf q'.ticker_id_ (othersOf [(.other q' : Event ι)]) = [_] :=
          callsOf_cons_self hcall
        have hcalls := (hvalid.calls q'.ticker_id_).valid
        rw [othersOf_append, callsOf_append, hone] at hcalls
        exact (hcalls _ (List.mem_append_right _ (List.mem_singleton_self _))).2.2.2.1

/-- **At most one working order for each ticker and side, over every valid run**, however the
orders are moved. -/
theorem atMostOne_run {N : Arith F} {client_id : ℕ} {base : ℕ → ℤ} {events : List (Event (Move F))}
    {x : Member OrderManager}
    (hrun : run (OrderManager.party N client_id) (new (OrderManager.party N client_id)) events =
      .ok x)
    (hvalid : Valid (OrderManager.party N client_id) base events x) (t : ℕ) {s : Side}
    (hs : s.IsTrading) : AtMostOne (OrderManager.party N client_id) x t s := by
  obtain ⟨P, k, h, _⟩ := agrees_of_valid hrun hvalid
  exact h.atMostOne hs

/-! ### A bid that is hit and canceled -/

/-- Move the orders of ticker 0, with a limit of a hundred. -/
def quote (bid_price : ℤ) : Event (Move (Option ℚ)) :=
  .input
    { risk :=
        { position_info_ := PositionInfo.new Arith.exact fun _ => some 0
          risk_cfg_ :=
            { max_order_size_ := 50, max_position_ := 100, max_loss_ := some (-1000) } }
      ticker_id := 0
      bid_price := bid_price
      ask_price := Price_INVALID
      clip := 10 }

/-- Another client sells four at 100. -/
def hit : MEClientRequest where
  type_ := .NEW
  client_id_ := 2
  ticker_id_ := 0
  order_id_ := 1
  side_ := .SELL
  price_ := 100
  qty_ := 4

/-- A bid at 100 is accepted and hit; then the price moves, and the bid is canceled. -/
def hitAndCanceled : List (Event (Move (Option ℚ))) :=
  [quote 100, .request, .other hit, .response, quote 101, .request]

/-- The state after `hitAndCanceled` meets what a valid run asks of it. -/
def sentWell (x : Member OrderManager) : Bool :=
  decide (∀ q ∈ x.party.sent, q.type_ = .NEW → (0 ≤ q.price_ ∧ q.price_ < ME_MAX_PRICE_LEVELS) ∧
    q.qty_ < 2 ^ 32) && decide (newCount x.party.sent < ME_MAX_ORDER_IDS)

/-- The bid is gone from the book, and its end is not heard of yet. -/
theorem atMostOne_run_hitAndCanceled : ∃ x,
    run (OrderManager.party Arith.exact 1) (new (OrderManager.party Arith.exact 1))
      hitAndCanceled = .ok x ∧
    workingOrders (OrderManager.party Arith.exact 1) x 0 .BUY = [1] ∧
    AtMostOne (OrderManager.party Arith.exact 1) x 0 .BUY := by
  have hcheck : ((run (OrderManager.party Arith.exact 1) (new (OrderManager.party Arith.exact 1))
      hitAndCanceled).toOption.map fun x =>
        (workingOrders (OrderManager.party Arith.exact 1) x 0 .BUY, sentWell x)) =
      some ([1], true) := by decide +kernel
  cases hrun : run (OrderManager.party Arith.exact 1) (new (OrderManager.party Arith.exact 1))
      hitAndCanceled with
  | error fault =>
    rw [hrun] at hcheck
    cases hcheck
  | ok x =>
    rw [hrun] at hcheck
    obtain ⟨horders, hsent⟩ := Prod.mk.inj (Option.some.inj hcheck)
    obtain ⟨hsent, hcount⟩ := Bool.and_eq_true_iff.mp hsent
    have hsent := of_decide_eq_true hsent
    have hcalls : ∀ t, ValidCalls 0 (callsOf t (othersOf hitAndCanceled)) := by
      intro t
      by_cases ht : t = 0
      · subst ht
        exact ⟨by decide, by decide⟩
      · have hnone : callsOf t (othersOf hitAndCanceled) = [] := by
          unfold callsOf
          rw [show othersOf hitAndCanceled = [hit] from rfl, List.filterMap_cons_none]
          · rfl
          · exact if_neg (Ne.symm ht)
        rw [hnone]
        exact ⟨nofun, List.nodup_nil⟩
    have hvalid : Valid (OrderManager.party Arith.exact 1) (fun _ => 0) hitAndCanceled x :=
      ⟨by decide, by decide, hcalls, fun q hq htype => by simpa using hsent q hq htype,
        of_decide_eq_true hcount⟩
    exact ⟨x, rfl, horders, atMostOne_run hrun hvalid 0 (.inl rfl)⟩

end Member

end TradingEcosystem
