import TradingEcosystem.System.Venue
import Mathlib.Logic.Relation

/-!
# The Orders of a Client

The invariant that ties the order manager's orders to the messages in flight and to what the
exchange works, and the steps that keep it.

- `Slots` : every order is in the phase its state says, and order ids are used once
- `Slots.step` : an answer of the exchange
- `Slots.moveOrder`, `Slots.deliver` : the order manager's two steps
-/

namespace TradingEcosystem

open Link OrderManager

/-- The order manager `m` and the exchange agree, up to what is in flight. -/
structure Slots (m : OrderManager) (k : Link) : Prop where
  phase : ∀ t s, s.IsTrading → Phase m.client_id_ (m.ticker_side_order_ t s) (k.newsFor t s)
    (k.answersFor t s) (k.openFor t s)
  label : ∀ t s, s.IsTrading → (m.ticker_side_order_ t s).order_state_ ≠ .INVALID →
    (m.ticker_side_order_ t s).ticker_id_ = t ∧ (m.ticker_side_order_ t s).side_ = s ∧
      (m.ticker_side_order_ t s).order_id_ < m.next_order_id_
  distinct : ∀ t s t' s', s.IsTrading → s'.IsTrading →
    (m.ticker_side_order_ t s).order_state_ ≠ .INVALID →
    (m.ticker_side_order_ t' s').order_state_ ≠ .INVALID →
    (m.ticker_side_order_ t s).order_id_ = (m.ticker_side_order_ t' s').order_id_ → t = t' ∧ s = s'
  asked : ∀ q ∈ k.requests, q.order_id_ < m.next_order_id_ ∧
    (q.type_ = .NEW → q.side_.IsTrading ∧ k.working q.ticker_id_ q.order_id_ = none)
  worked : ∀ t id w, k.working t id = some w → id < m.next_order_id_ ∧ w.side_.IsTrading
  answered : ∀ r ∈ k.responses, Concerns r.ticker_id_ r.side_ r → r.side_.IsTrading ∧
    r.client_order_id_ = (m.ticker_side_order_ r.ticker_id_ r.side_).order_id_

namespace Slots

variable {m m' : OrderManager} {k k' : Link} {t id : ℕ} {s : Side} {w : WorkingOrder}
  {q : MEClientRequest} {rest : List MEClientRequest} {r : MEClientResponse}

theorem new (client_id : ℕ) : Slots (OrderManager.new client_id) Link.empty where
  phase := fun _ _ _ => ⟨rfl, rfl, fun _ => rfl⟩
  label := fun _ _ _ h => absurd rfl h
  distinct := fun _ _ _ _ _ _ h => absurd rfl h
  asked := fun _ h => (nomatch h)
  worked := fun _ _ _ h => (nomatch h)
  answered := fun _ h => (nomatch h)

/-- A new order that was asked for is one the order manager keeps. -/
theorem slot_of_new (h : Slots m k) (hq : q ∈ k.requests) (hnew : q.type_ = .NEW) :
    q = (m.ticker_side_order_ q.ticker_id_ q.side_).newRequest m.client_id_ ∧
      (m.ticker_side_order_ q.ticker_id_ q.side_).order_state_ = .PENDING_NEW := by
  have htrading := ((h.asked q hq).2 hnew).1
  have hmem : q ∈ k.newsFor q.ticker_id_ q.side_ :=
    List.mem_filter.mpr ⟨hq, decide_eq_true ⟨hnew, rfl, rfl⟩⟩
  exact (h.phase _ _ htrading).mem_news hmem

/-! ## The exchange -/

/-- A request that asks for no new order is taken from the channel. -/
theorem pop (h : Slots m k) (hrequests : k.requests = q :: rest) (hq : q.type_ ≠ .NEW) :
    Slots m { k with requests := rest } where
  phase := by
    intro t s hs
    have hnews : ({ k with requests := rest } : Link).newsFor t s = k.newsFor t s := by
      simp only [newsFor, hrequests]
      rw [List.filter_cons_of_neg (by simp [hq])]
    have hphase := h.phase t s hs
    rw [← hnews] at hphase
    exact hphase
  label := h.label
  distinct := h.distinct
  asked := fun q' hq' => h.asked q' (hrequests ▸ List.mem_cons_of_mem _ hq')
  worked := h.worked
  answered := h.answered

/-- A response that concerns no order is sent. -/
theorem send_other (h : Slots m k) (hr : r.type_ = .CANCEL_REJECTED) : Slots m (k.send [r]) where
  phase := by
    intro t s hs
    have hanswers : (k.send [r]).answersFor t s = k.answersFor t s := by
      rw [answersFor_send, List.filter_cons_of_neg (by simp [Concerns, hr]), List.filter_nil,
        List.append_nil]
    have hphase := h.phase t s hs
    rw [← hanswers] at hphase
    exact hphase
  label := h.label
  distinct := h.distinct
  asked := h.asked
  worked := h.worked
  answered := by
    intro r' hr' hc
    rcases List.mem_append.mp hr' with hr' | hr'
    · exact h.answered r' hr' hc
    · rw [List.mem_singleton.mp hr', Concerns, hr] at hc
      rcases hc.1 with htype | htype | htype
      · cases htype
      · cases htype
      · cases htype

/-- What a working order says to the orders of its ticker: those of the other side do not see
it. -/
theorem openFor_of_ne (hw : k.working t id = some w) (hs : w.side_ ≠ s) (l' : Option ℕ) :
    Function.update (k.openFor t s) id (leavesOn s (l'.map fun l => ⟨w.side_, l⟩)) =
      k.openFor t s := by
  have hnone : leavesOn s (l'.map fun l => ⟨w.side_, l⟩) = none := by
    cases l' with
    | none => rfl
    | some l => exact leavesOn_some_of_ne hs
  have hbefore : k.openFor t s id = none := by
    rw [openFor, hw]
    exact leavesOn_some_of_ne hs
  rw [hnone, ← hbefore]
  exact Function.update_eq_self ..

theorem openFor_of_working (hw : k.working t id = some w) :
    k.openFor t w.side_ id = some w.leaves_qty_ := by
  rw [openFor, hw]
  exact if_pos rfl

/-- The exchange says something about an order it works. -/
theorem answer (h : Slots m k) (hw : k.working t id = some w) {more : List MEClientResponse}
    (hmore : ∀ r ∈ more, Concerns t w.side_ r ∧ r.client_order_id_ = id) {l' : Option ℕ}
    (htold : ∀ qty rs, Told qty rs (some w.leaves_qty_) → Told qty (rs ++ more) l') :
    Slots m ((k.setWorking t id (l'.map fun l => ⟨w.side_, l⟩)).send more) where
  phase := by
    intro t' s' hs'
    have hphase := h.phase t' s' hs'
    have hopen : ((k.setWorking t id (l'.map fun l => ⟨w.side_, l⟩)).send more).openFor t' s' =
        (k.setWorking t id (l'.map fun l => ⟨w.side_, l⟩)).openFor t' s' := rfl
    rw [answersFor_send, hopen]
    by_cases ht : t' = t
    · subst ht
      rw [openFor_setWorking_self]
      by_cases hside : w.side_ = s'
      · -- the order itself
        subst hside
        have hall : more.filter (fun r => decide (Concerns t' w.side_ r)) = more :=
          List.filter_eq_self.mpr fun r hr => decide_eq_true (hmore r hr).1
        have hleft := openFor_of_working hw
        have hl' : leavesOn w.side_ (l'.map fun l => ⟨w.side_, l⟩) = l' := by
          cases l' with
          | none => rfl
          | some l => exact leavesOn_some l
        rw [hall, hl']
        exact hphase.answer hleft htold
      · have hnone : more.filter (fun r => decide (Concerns t' s' r)) = [] :=
          List.filter_eq_nil_iff.mpr fun r hr hc =>
            hside ((hmore r hr).1.2.2.symm.trans (of_decide_eq_true hc).2.2)
        rw [hnone, List.append_nil, openFor_of_ne hw hside]
        exact hphase
    · have hnone : more.filter (fun r => decide (Concerns t' s' r)) = [] :=
        List.filter_eq_nil_iff.mpr fun r hr hc =>
          ht ((of_decide_eq_true hc).2.1.symm.trans (hmore r hr).1.2.1)
      rw [hnone, List.append_nil, openFor_setWorking_of_ne ht]
      exact hphase
  label := h.label
  distinct := h.distinct
  asked := by
    intro q hq
    obtain ⟨hlt, hnew⟩ := h.asked q hq
    refine ⟨hlt, fun htype => ?_⟩
    obtain ⟨hside, hnone⟩ := hnew htype
    refine ⟨hside, ?_⟩
    -- an order asked for is not the one worked
    show (if q.ticker_id_ = t ∧ q.order_id_ = id then _ else k.working q.ticker_id_ q.order_id_) = _
    rw [if_neg]
    · exact hnone
    · rintro ⟨rfl, rfl⟩
      cases hnone.symm.trans hw
  worked := by
    intro t' id' w' hw'
    change (if t' = t ∧ id' = id then l'.map _ else k.working t' id') = some w' at hw'
    split at hw'
    · next heq =>
      obtain ⟨rfl, rfl⟩ := heq
      obtain ⟨l, _, rfl⟩ := Option.map_eq_some_iff.mp hw'
      exact h.worked _ _ w hw
    · exact h.worked _ _ _ hw'
  answered := by
    intro r hr hc
    rcases List.mem_append.mp hr with hr | hr
    · exact h.answered r hr hc
    · -- what is said names the order kept for that ticker and side
      obtain ⟨⟨_, ht, hs⟩, hid⟩ := hmore r hr
      have htrading := (h.worked _ _ w hw).2
      rw [ht, hs, hid]
      exact ⟨htrading, (h.phase t w.side_ htrading).id_of_open (openFor_of_working hw)⟩

/-- Two new orders that were asked for with one id are of one ticker and side. -/
theorem same_of_new (h : Slots m k) {q' : MEClientRequest} (hq : q ∈ k.requests)
    (hnew : q.type_ = .NEW) (hq' : q' ∈ k.requests) (hnew' : q'.type_ = .NEW)
    (hid : q'.order_id_ = q.order_id_) : q'.ticker_id_ = q.ticker_id_ ∧ q'.side_ = q.side_ := by
  have hsent : ∀ {q : MEClientRequest}, q ∈ k.requests → q.type_ = .NEW →
      (m.ticker_side_order_ q.ticker_id_ q.side_).order_state_ ≠ .INVALID ∧
        q.order_id_ = (m.ticker_side_order_ q.ticker_id_ q.side_).order_id_ := by
    intro q hq hnew
    obtain ⟨hself, hstate⟩ := h.slot_of_new hq hnew
    refine ⟨?_, congrArg MEClientRequest.order_id_ hself⟩
    rw [hstate]
    intro hinvalid
    cases hinvalid
  obtain ⟨hstate, hself⟩ := hsent hq hnew
  obtain ⟨hstate', hself'⟩ := hsent hq' hnew'
  exact h.distinct _ _ _ _ ((h.asked q' hq').2 hnew').1 ((h.asked q hq).2 hnew).1 hstate' hstate
    (hself'.symm.trans (hid.trans hself))

/-- A new order that the exchange starts to work does not change the others of the client. -/
theorem openFor_accepted (hfree : k.working q.ticker_id_ q.order_id_ = none)
    (hslot : ¬ (t = q.ticker_id_ ∧ s = q.side_)) :
    (k.setWorking q.ticker_id_ q.order_id_ (some ⟨q.side_, q.qty_⟩)).openFor t s =
      k.openFor t s := by
  by_cases ht : t = q.ticker_id_
  · subst ht
    have hs' : q.side_ ≠ s := fun heq => hslot ⟨rfl, heq.symm⟩
    have hbefore : k.openFor q.ticker_id_ s q.order_id_ = none := by
      rw [openFor, hfree]
      rfl
    rw [openFor_setWorking_self, leavesOn_some_of_ne hs', ← hbefore]
    exact Function.update_eq_self ..
  · exact openFor_setWorking_of_ne ht

/-- The exchange takes a new order. -/
theorem accept (h : Slots m k) (hrequests : k.requests = q :: rest) (hnew : q.type_ = .NEW)
    (htype : r.type_ = .ACCEPTED) (hticker : r.ticker_id_ = q.ticker_id_)
    (hid : r.client_order_id_ = q.order_id_) (hside : r.side_ = q.side_) :
    Slots m (({ k with requests := rest }.setWorking q.ticker_id_ q.order_id_
      (some ⟨q.side_, q.qty_⟩)).send [r]) := by
  have hmem : q ∈ k.requests := hrequests ▸ List.mem_cons_self ..
  obtain ⟨hlt, hq⟩ := h.asked q hmem
  obtain ⟨htrading, hfree⟩ := hq hnew
  have hnewsq : k.newsFor q.ticker_id_ q.side_ = q :: ({ k with requests := rest } : Link).newsFor
      q.ticker_id_ q.side_ := by
    simp only [newsFor, hrequests]
    rw [List.filter_cons_of_pos (by simp [hnew])]
  have hphase := h.phase q.ticker_id_ q.side_ htrading
  rw [hnewsq] at hphase
  obtain ⟨hrest, hself, -, hphase'⟩ := hphase.accept htype
  refine ⟨?phase, h.label, h.distinct, ?asked, ?worked, ?answered⟩
  case phase =>
    intro t s hs
    have hopen : ((({ k with requests := rest } : Link).setWorking q.ticker_id_ q.order_id_
        (some ⟨q.side_, q.qty_⟩)).send [r]).openFor t s =
        (k.setWorking q.ticker_id_ q.order_id_ (some ⟨q.side_, q.qty_⟩)).openFor t s := rfl
    rw [answersFor_send, hopen]
    by_cases hslot : t = q.ticker_id_ ∧ s = q.side_
    · -- the order asked for is open from now on
      obtain ⟨rfl, rfl⟩ := hslot
      have hmine : [r].filter (fun r => decide (Concerns q.ticker_id_ q.side_ r)) = [r] :=
        List.filter_cons_of_pos (decide_eq_true ⟨.inl htype, hticker, hside⟩)
      rw [hmine, openFor_setWorking_self, leavesOn_some]
      have hnews : ((({ k with requests := rest } : Link).setWorking q.ticker_id_ q.order_id_
          (some ⟨q.side_, q.qty_⟩)).send [r]).newsFor q.ticker_id_ q.side_ = [] := hrest
      rw [hnews]
      exact hphase'
    · -- the other orders of the client
      have hother : [r].filter (fun r => decide (Concerns t s r)) = [] :=
        List.filter_eq_nil_iff.mpr fun r' hr' hc => by
          rw [List.mem_singleton.mp hr'] at hc
          obtain ⟨-, ht, hs⟩ := of_decide_eq_true hc
          exact hslot ⟨ht.symm.trans hticker, hs.symm.trans hside⟩
      have hnews : ((({ k with requests := rest } : Link).setWorking q.ticker_id_ q.order_id_
          (some ⟨q.side_, q.qty_⟩)).send [r]).newsFor t s = k.newsFor t s := by
        have hq' : ¬ (q.ticker_id_ = t ∧ q.side_ = s) := fun heq => hslot ⟨heq.1.symm, heq.2.symm⟩
        show List.filter _ rest = List.filter _ k.requests
        rw [hrequests, List.filter_cons_of_neg (by simpa [hnew] using hq')]
      rw [hother, List.append_nil, hnews, openFor_accepted hfree hslot]
      exact h.phase t s hs
  case asked =>
    intro q' hq'
    have hmem' : q' ∈ k.requests := hrequests ▸ List.mem_cons_of_mem _ hq'
    obtain ⟨hlt', hnew'⟩ := h.asked q' hmem'
    refine ⟨hlt', fun htype' => ?_⟩
    obtain ⟨htrading', hfree'⟩ := hnew' htype'
    refine ⟨htrading', ?_⟩
    show (if q'.ticker_id_ = q.ticker_id_ ∧ q'.order_id_ = q.order_id_ then _
      else k.working q'.ticker_id_ q'.order_id_) = none
    rw [if_neg]
    · exact hfree'
    · -- another new order with this id would be a second one of the same ticker and side
      rintro ⟨ht', hid'⟩
      obtain ⟨-, hs'⟩ := h.same_of_new hmem hnew hmem' htype' hid'
      have hmem'' : q' ∈ ({ k with requests := rest } : Link).newsFor q.ticker_id_ q.side_ :=
        List.mem_filter.mpr ⟨hq', decide_eq_true ⟨htype', ht', hs'⟩⟩
      rw [hrest] at hmem''
      cases hmem''
  case worked =>
    intro t' id' w' hw'
    change (if t' = q.ticker_id_ ∧ id' = q.order_id_ then some _ else k.working t' id') = some w'
      at hw'
    split at hw'
    · next heq =>
      obtain ⟨rfl, rfl⟩ := heq
      obtain rfl := Option.some.inj hw'
      exact ⟨hlt, htrading⟩
    · exact h.worked _ _ _ hw'
  case answered =>
    intro r' hr' hc
    rcases List.mem_append.mp hr' with hr' | hr'
    · exact h.answered r' hr' hc
    · rw [List.mem_singleton.mp hr', hticker, hside, hid]
      exact ⟨htrading, congrArg MEClientRequest.order_id_ hself⟩

/-- An answer to a request, or about an order the exchange works. -/
theorem of_answer (h : Slots m k) (hanswer : Answer k k') : Slots m k' := by
  cases hanswer with
  | accept hrequests hnew htype hticker hid hside =>
    exact h.accept hrequests hnew htype hticker hid hside
  | @fill r w hw htype hside hexec hleaves =>
    have hconcerns : ∀ r' ∈ [r], Concerns r.ticker_id_ w.side_ r' ∧
        r'.client_order_id_ = r.client_order_id_ := by
      intro r' hr'
      rw [List.mem_singleton.mp hr']
      exact ⟨⟨.inr (.inl htype), rfl, hside⟩, rfl⟩
    have hanswer := h.answer hw hconcerns fun qty rs htold => htold.fill htype hexec hleaves
    split
    · next hzero =>
      rw [if_pos hzero] at hanswer
      exact hanswer
    · next hopen =>
      rw [if_neg hopen] at hanswer
      exact hanswer
  | @cancel q rest r w hrequests hcancel hw htype hticker hid hside =>
    have hq : q.type_ ≠ .NEW := by
      rw [hcancel]
      intro hnew
      cases hnew
    have hconcerns : ∀ r' ∈ [r], Concerns q.ticker_id_ w.side_ r' ∧
        r'.client_order_id_ = q.order_id_ := by
      intro r' hr'
      rw [List.mem_singleton.mp hr']
      exact ⟨⟨.inr (.inr htype), hticker, hside⟩, hid⟩
    exact (h.pop hrequests hq).answer hw hconcerns fun qty rs htold => htold.close htype
  | @reject q rest r hrequests hcancel hw htype =>
    have hq : q.type_ ≠ .NEW := by
      rw [hcancel]
      intro hnew
      cases hnew
    exact (h.pop hrequests hq).send_other htype
  | @drop t id w hw hzero =>
    have hnone : ∀ r' ∈ ([] : List MEClientResponse), Concerns t w.side_ r' ∧
        r'.client_order_id_ = id := nofun
    have htold : ∀ qty rs, Told qty rs (some w.leaves_qty_) → Told qty (rs ++ []) none := by
      intro qty rs htold
      rw [hzero] at htold
      rw [List.append_nil]
      exact htold.drop
    have hanswer := h.answer hw hnone htold
    simpa [send] using hanswer

/-- A number of answers. -/
theorem of_answers (h : Slots m k) (hanswers : Relation.ReflTransGen Answer k k') :
    Slots m k' := by
  induction hanswers with
  | refl => exact h
  | tail _ hanswer ih => exact ih.of_answer hanswer

/-- **A step of the exchange keeps the invariant.** -/
theorem step (h : Slots m k) (hstep : Step k k') : Slots m k' := by
  cases hstep with
  | answer hanswer => exact h.of_answer hanswer
  | @expire r w hw htype hside =>
    have hconcerns : ∀ r' ∈ [r], Concerns r.ticker_id_ w.side_ r' ∧
        r'.client_order_id_ = r.client_order_id_ := by
      intro r' hr'
      rw [List.mem_singleton.mp hr']
      exact ⟨⟨.inr (.inr htype), rfl, hside⟩, rfl⟩
    exact h.answer hw hconcerns fun qty rs htold => htold.close htype

/-! ## The order manager -/

/-- An order is put in its place and a request about it is sent. -/
theorem replace {o : OMOrder} {next : ℕ} (m' : OrderManager) (h : Slots m k) (hs : s.IsTrading)
    (hnext : m.next_order_id_ ≤ next) (hlabel : o.ticker_id_ = t ∧ o.side_ = s ∧ o.order_id_ < next)
    (hother : ∀ t' s', s'.IsTrading → ¬ (t' = t ∧ s' = s) →
      (m.ticker_side_order_ t' s').order_state_ ≠ .INVALID →
      o.order_id_ ≠ (m.ticker_side_order_ t' s').order_id_)
    (hq : q.ticker_id_ = t ∧ q.side_ = s ∧ q.order_id_ < next)
    (hfree : q.type_ = .NEW → k.working t q.order_id_ = none)
    (hphase : Phase m.client_id_ o ((k.ask [q]).newsFor t s) (k.answersFor t s) (k.openFor t s))
    (hid : o.order_id_ = (m.ticker_side_order_ t s).order_id_ ∨ k.answersFor t s = [])
    (horders : ∀ t' s', m'.ticker_side_order_ t' s' =
      if t' = t ∧ s' = s then o else m.ticker_side_order_ t' s')
    (hclient : m'.client_id_ = m.client_id_) (hnext' : m'.next_order_id_ = next) :
    Slots m' (k.ask [q]) where
  phase := by
    intro t' s' hs'
    rw [hclient, horders]
    split
    · next heq =>
      obtain ⟨rfl, rfl⟩ := heq
      exact hphase
    · next hne =>
      have hnone : [q].filter (fun q => decide (q.type_ = .NEW ∧ q.ticker_id_ = t' ∧ q.side_ = s')) =
          [] := by
        rw [List.filter_cons_of_neg, List.filter_nil]
        rw [decide_eq_true_eq]
        intro ⟨_, ht', hs'⟩
        exact hne ⟨ht'.symm.trans hq.1, hs'.symm.trans hq.2.1⟩
      rw [newsFor_ask, hnone, List.append_nil]
      exact h.phase t' s' hs'
  label := by
    intro t' s' hs' hsent
    rw [horders] at hsent ⊢
    rw [hnext']
    split
    · next heq =>
      obtain ⟨rfl, rfl⟩ := heq
      exact hlabel
    · next hne =>
      rw [if_neg hne] at hsent
      obtain ⟨ht, hs, hlt⟩ := h.label t' s' hs' hsent
      exact ⟨ht, hs, hlt.trans_le hnext⟩
  distinct := by
    intro t₁ s₁ t₂ s₂ hs₁ hs₂ hsent₁ hsent₂ heq
    rw [horders] at hsent₁ hsent₂
    rw [horders, horders t₂] at heq
    by_cases h₁ : t₁ = t ∧ s₁ = s
    · by_cases h₂ : t₂ = t ∧ s₂ = s
      · exact ⟨h₁.1.trans h₂.1.symm, h₁.2.trans h₂.2.symm⟩
      · rw [if_neg h₂] at hsent₂
        rw [if_pos h₁, if_neg h₂] at heq
        exact absurd heq (hother t₂ s₂ hs₂ h₂ hsent₂)
    · rw [if_neg h₁] at hsent₁ heq
      by_cases h₂ : t₂ = t ∧ s₂ = s
      · rw [if_pos h₂] at heq
        exact absurd heq.symm (hother t₁ s₁ hs₁ h₁ hsent₁)
      · rw [if_neg h₂] at hsent₂ heq
        exact h.distinct t₁ s₁ t₂ s₂ hs₁ hs₂ hsent₁ hsent₂ heq
  asked := by
    intro q' hq'
    rw [hnext']
    rcases List.mem_append.mp hq' with hq' | hq'
    · obtain ⟨hlt, hnew⟩ := h.asked q' hq'
      exact ⟨hlt.trans_le hnext, hnew⟩
    · obtain rfl := List.mem_singleton.mp hq'
      refine ⟨hq.2.2, fun hnew => ⟨hq.2.1 ▸ hs, ?_⟩⟩
      rw [hq.1]
      exact hfree hnew
  worked := by
    intro t' id w hw
    obtain ⟨hlt, hside⟩ := h.worked t' id w hw
    rw [hnext']
    exact ⟨hlt.trans_le hnext, hside⟩
  answered := by
    intro r hr hc
    obtain ⟨hside, hid'⟩ := h.answered r hr hc
    refine ⟨hside, ?_⟩
    rw [horders]
    split
    · next heq =>
      obtain ⟨rfl, rfl⟩ := heq
      -- the id stays, or no answer is on its way
      rcases hid with hid | hnone
      · rw [hid]
        exact hid'
      · have hmem : r ∈ k.answersFor r.ticker_id_ r.side_ :=
          List.mem_filter.mpr ⟨hr, decide_eq_true hc⟩
        rw [hnone] at hmem
        cases hmem
    · exact hid'

/-- **A move keeps the invariant**: what it sends goes into the channel. -/
theorem moveOrder {F : Type} (h : Slots m k) (hs : s.IsTrading) (N : Arith F) (risk : RiskInfo F)
    (t : ℕ) (price : ℤ) (qty : ℕ) :
    ∃ requests, (m.moveOrder N risk t price s qty).sent = m.sent ++ requests ∧
      Slots (m.moveOrder N risk t price s qty) (k.ask requests) := by
  have houtcome := moveOrder_outcome N risk m t price s qty
  generalize m.moveOrder N risk t price s qty = moved at houtcome ⊢
  have hphase := h.phase t s hs
  cases houtcome with
  | kept =>
    refine ⟨[], (List.append_nil _).symm, ?_⟩
    rw [ask, List.append_nil]
    exact h
  | sent hstate _ =>
    set o : OMOrder :=
      { ticker_id_ := t, order_id_ := m.next_order_id_, side_ := s, price_ := price, qty_ := qty,
        order_state_ := .PENDING_NEW }
    have hidle := (Phase.idle_iff hstate).mp hphase
    refine ⟨[o.newRequest m.client_id_], rfl, ?_⟩
    apply replace (m.newOrder t price s qty) h (o := o) hs (Nat.le_succ _) ⟨rfl, rfl, Nat.lt_succ_self _⟩ ?_
      ⟨rfl, rfl, Nat.lt_succ_self _⟩ ?_ ?_ (.inr hidle.2.1) (fun _ _ => rfl) rfl rfl
    · -- the id is fresh
      intro t' s' hs' _ hsent heq
      exact absurd heq (Nat.ne_of_gt (h.label t' s' hs' hsent).2.2)
    · intro _
      cases hw : k.working t m.next_order_id_ with
      | none => exact hw
      | some w => exact absurd (h.worked _ _ _ hw).1 (Nat.lt_irrefl _)
    · refine (Phase.asked_iff rfl).mpr (.inl ⟨?_, hidle.2⟩)
      rw [newsFor_ask, hidle.1, List.nil_append]
      exact List.filter_cons_of_pos (decide_eq_true ⟨rfl, rfl, rfl⟩)
  | canceled hstate =>
    have hsent : (m.ticker_side_order_ t s).order_state_ ≠ .INVALID := by
      rw [hstate]
      intro hinvalid
      cases hinvalid
    have hlabel := h.label t s hs hsent
    refine ⟨[(m.ticker_side_order_ t s).cancelRequest m.client_id_], rfl, ?_⟩
    apply replace (m.cancelOrder t s) h
      (o := { m.ticker_side_order_ t s with order_state_ := .PENDING_CANCEL }) hs
      (Nat.le_refl _) hlabel ?_ hlabel ?_ ?_ (.inl rfl) (fun _ _ => rfl) rfl rfl
    · intro t' s' hs' hne hsent' heq
      obtain ⟨ht, hs⟩ := h.distinct t s t' s' hs hs' hsent hsent' heq
      exact hne ⟨ht.symm, hs.symm⟩
    · intro hnew
      cases hnew
    · -- the order goes on working
      rw [Phase.working_iff (.inl hstate)] at hphase
      rw [Phase.working_iff (.inr rfl), newsFor_ask, List.filter_cons_of_neg (by simp [OMOrder.cancelRequest]), List.filter_nil,
        List.append_nil]
      exact hphase

theorem moveOrders {F : Type} {N : Arith F} {risk : RiskInfo F} {bid_price ask_price : ℤ}
    {clip : ℕ} (h : Slots m k)
    (hm' : m.moveOrders N risk t bid_price ask_price clip = .ok m') :
    Slots m' (k.ask (m'.sent.drop m.sent.length)) := by
  obtain ⟨_, rfl⟩ := moveOrders_eq hm'
  obtain ⟨bids, hbids, h₁⟩ := h.moveOrder (.inl rfl) N risk t bid_price clip
  obtain ⟨asks, hasks, h₂⟩ := h₁.moveOrder (.inr rfl) N risk t ask_price clip
  rw [hasks, hbids, List.append_assoc, List.drop_left]
  rw [ask, ask, List.append_assoc] at h₂
  exact h₂

/-- The rest of the channel after a response that concerns no order. -/
theorem deliver_other {rest : List MEClientResponse} (h : Slots m k)
    (hresponses : k.responses = r :: rest)
    (hr : ∀ t s, s.IsTrading → ¬ Concerns t s r) : Slots m { k with responses := rest } where
  phase := by
    intro t s hs
    have hphase := h.phase t s hs
    have hanswers : k.answersFor t s = ({ k with responses := rest } : Link).answersFor t s := by
      simp only [answersFor, hresponses]
      rw [List.filter_cons_of_neg (by simpa using hr t s hs)]
    rw [hanswers] at hphase
    exact hphase
  label := h.label
  distinct := h.distinct
  asked := h.asked
  worked := h.worked
  answered := fun r' hr' => h.answered r' (hresponses ▸ List.mem_cons_of_mem _ hr')

/-- The invariant reads the orders of the two trading sides only. -/
theorem congr (h : Slots m k) (hclient : m'.client_id_ = m.client_id_)
    (hnext : m'.next_order_id_ = m.next_order_id_)
    (horders : ∀ t s, s.IsTrading → m'.ticker_side_order_ t s = m.ticker_side_order_ t s) :
    Slots m' k where
  phase := by
    intro t s hs
    rw [hclient, horders t s hs]
    exact h.phase t s hs
  label := by
    intro t s hs
    rw [horders t s hs, hnext]
    exact h.label t s hs
  distinct := by
    intro t s t' s' hs hs'
    rw [horders t s hs, horders t' s' hs']
    exact h.distinct t s t' s' hs hs'
  asked := by
    rw [hnext]
    exact h.asked
  worked := by
    rw [hnext]
    exact h.worked
  answered := by
    intro r hr hc
    obtain ⟨hs, hid⟩ := h.answered r hr hc
    rw [horders _ _ hs]
    exact ⟨hs, hid⟩

/-- A response changes the state and the quantity of an order only. -/
theorem labels_updated (o : OMOrder) (r : MEClientResponse) :
    (updated o r).ticker_id_ = o.ticker_id_ ∧ (updated o r).side_ = o.side_ ∧
      (updated o r).order_id_ = o.order_id_ := by
  obtain ⟨_, _, heq⟩ := updated_eq_with o r
  rw [heq]
  exact ⟨rfl, rfl, rfl⟩

/-- A response of a kind that concerns no order leaves the order it comes to. -/
theorem updated_of_not_concerns {o : OMOrder} (hr : ¬ Concerns r.ticker_id_ r.side_ r) :
    updated o r = o :=
  updated_of_other fun htype => hr ⟨htype, rfl, rfl⟩

/-- **A response keeps the invariant.** -/
theorem deliver {rest : List MEClientResponse} (h : Slots m k) (hresponses : k.responses = r :: rest)
    (hm' : m.onOrderUpdate r = .ok m') : Slots m' { k with responses := rest } := by
  obtain rfl : m' = m.setOrder r.ticker_id_ r.side_
      (updated (m.ticker_side_order_ r.ticker_id_ r.side_) r) := onOrderUpdate_eq hm'
  by_cases hr : r.side_.IsTrading ∧ Concerns r.ticker_id_ r.side_ r
  · obtain ⟨htrading, hconcerns⟩ := hr
    have hanswers : k.answersFor r.ticker_id_ r.side_ =
        r :: ({ k with responses := rest } : Link).answersFor r.ticker_id_ r.side_ := by
      simp only [answersFor, hresponses]
      exact List.filter_cons_of_pos (decide_eq_true hconcerns)
    have hphase := h.phase r.ticker_id_ r.side_ htrading
    rw [hanswers] at hphase
    have hsent := hphase.sent_of_cons
    set o := m.ticker_side_order_ r.ticker_id_ r.side_
    obtain ⟨hticker, hside, hid⟩ := labels_updated o r
    -- the order that changes and the others
    have hself : ∀ {t s}, t = r.ticker_id_ ∧ s = r.side_ →
        (m.setOrder r.ticker_id_ r.side_ (updated o r)).ticker_side_order_ t s = updated o r := by
      intro t s ⟨ht, hs⟩
      subst ht hs
      exact order_setOrder_self
    have hsame : ∀ {t s}, s.IsTrading →
        (m.setOrder r.ticker_id_ r.side_ (updated o r)).ticker_side_order_ t s =
            m.ticker_side_order_ t s ∨
          (t = r.ticker_id_ ∧ s = r.side_) := by
      intro t s _
      by_cases heq : t = r.ticker_id_ ∧ s = r.side_
      · exact .inr heq
      · exact .inl (order_setOrder_of_ne heq)
    have hlabels : ∀ {t s}, s.IsTrading →
        ((m.setOrder r.ticker_id_ r.side_ (updated o r)).ticker_side_order_ t s).order_state_ ≠
          .INVALID →
        (m.ticker_side_order_ t s).order_state_ ≠ .INVALID ∧
        ((m.setOrder r.ticker_id_ r.side_ (updated o r)).ticker_side_order_ t s).order_id_ =
          (m.ticker_side_order_ t s).order_id_ := by
      intro t s hs hstate
      rcases hsame hs with heq | heq
      · rw [heq] at hstate ⊢
        exact ⟨hstate, rfl⟩
      · rw [hself heq]
        obtain ⟨rfl, rfl⟩ := heq
        exact ⟨hsent, hid⟩
    refine ⟨?phase, ?label, ?distinct, h.asked, h.worked, ?answered⟩
    case phase =>
      intro t s hs
      by_cases heq : t = r.ticker_id_ ∧ s = r.side_
      · rw [hself heq]
        obtain ⟨rfl, rfl⟩ := heq
        exact hphase.deliver
      · rw [order_setOrder_of_ne heq]
        have hother : k.answersFor t s = ({ k with responses := rest } : Link).answersFor t s := by
          have hnot : ¬ Concerns t s r := fun hc => heq ⟨hc.2.1.symm, hc.2.2.symm⟩
          simp only [answersFor, hresponses]
          rw [List.filter_cons_of_neg (by simpa using hnot)]
        have hphase' := h.phase t s hs
        rw [hother] at hphase'
        exact hphase'
    case label =>
      intro t s hs hstate
      have hold := h.label t s hs (hlabels hs hstate).1
      rcases hsame hs with heq | heq
      · rw [heq]
        exact hold
      · rw [hself heq, hticker, hside, hid]
        obtain ⟨rfl, rfl⟩ := heq
        exact hold
    case distinct =>
      intro t s t' s' hs hs' hstate hstate' heq
      obtain ⟨hold, hid₁⟩ := hlabels hs hstate
      obtain ⟨hold', hid₂⟩ := hlabels hs' hstate'
      rw [hid₁, hid₂] at heq
      exact h.distinct t s t' s' hs hs' hold hold' heq
    case answered =>
      intro r' hr' hc
      obtain ⟨hs, hid'⟩ := h.answered r' (hresponses ▸ List.mem_cons_of_mem _ hr') hc
      refine ⟨hs, ?_⟩
      rcases hsame hs with heq | heq
      · rw [heq]
        exact hid'
      · rw [hself heq, hid]
        rw [heq.1, heq.2] at hid'
        exact hid'
  · -- no order of a trading side hears of it
    have hnone : ∀ t s, s.IsTrading → ¬ Concerns t s r := by
      intro t s hs hc
      obtain ⟨htype, ht, hside⟩ := hc
      exact hr ⟨hside ▸ hs, htype, rfl, rfl⟩
    refine (h.deliver_other hresponses hnone).congr (by rfl) (by rfl) ?_
    intro t s hs
    by_cases heq : t = r.ticker_id_ ∧ s = r.side_
    · obtain ⟨rfl, rfl⟩ := heq
      rw [order_setOrder_self]
      exact updated_of_not_concerns (hnone _ _ hs)
    · exact order_setOrder_of_ne heq

end Slots

end TradingEcosystem
