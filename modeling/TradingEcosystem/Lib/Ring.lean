import Mathlib.Data.List.Rotate
import Mathlib.Data.List.Nodup

/-!
# Circular Doubly Linked Lists

A heap of nodes is seen through two partial functions, `next` and `prev`.  A list of
nodes `xs` is a *ring* of the heap when following `next` from any element leads to the
element after it (cyclically) and `prev` leads back.

The library gives the three facts pointer surgery needs:
- a ring may be read from any of its elements (`IsRing.rotate_iff`)
- splicing a fresh node between the last element and the first (`IsRing.snoc`)
- unlinking the first element (`IsRing.tail`) or any other (`IsRing.exists_unlinking`)

and a walk that reads the ring back from its head (`walk_eq`).
-/

namespace Lib.Ring

variable {α : Type*}

/-- The two ends of a list that is not empty. -/
theorem exists_ends {xs : List α} (hne : xs ≠ []) :
    ∃ v ws init u, xs = v :: ws ∧ xs = init ++ [u] ∧ v ∈ xs ∧ u ∈ xs := by
  obtain ⟨v, ws, hv⟩ := List.exists_cons_of_ne_nil hne
  obtain ⟨init, u, hu⟩ := (List.eq_nil_or_concat xs).resolve_left hne
  rw [List.concat_eq_append] at hu
  refine ⟨v, ws, init, u, hv, hu, ?_, ?_⟩
  · simp [hv]
  · simp [hu]

/-! ## Links of a cyclic list -/

/-- The pairs of cyclically adjacent elements of `xs`. -/
def links (xs : List α) : List (α × α) :=
  xs.zip (xs.rotate 1)

@[simp] theorem links_nil : links ([] : List α) = [] := rfl

theorem links_cons (x : α) (xs : List α) : links (x :: xs) = (x :: xs).zip (xs ++ [x]) := by
  simp [links]

/-- With the last element named, the links are the inner ones and the closing one. -/
theorem links_cons_snoc (v u : α) (ws init : List α) (h : v :: ws = init ++ [u]) :
    links (v :: ws) = init.zip ws ++ [(u, v)] := by
  have hlen : init.length = ws.length := by
    have := congrArg List.length h
    simp at this
    omega
  rw [links_cons, h, List.zip_append hlen]
  rfl

theorem links_rotate (xs : List α) (n : ℕ) : links (xs.rotate n) = (links xs).rotate n := by
  have hcomm : (xs.rotate n).rotate 1 = (xs.rotate 1).rotate n := by
    simp [Nat.add_comm]
  unfold links
  rw [hcomm]
  exact (List.zipWith_rotate_distrib Prod.mk xs (xs.rotate 1) n (by simp)).symm

/-! ## Rings -/

/-- `xs` is linked into a cycle by `next` and, backwards, by `prev`. -/
def IsRing (next prev : α → Option α) (xs : List α) : Prop :=
  ∀ l ∈ links xs, next l.1 = some l.2 ∧ prev l.2 = some l.1

namespace IsRing

variable {next prev next' prev' : α → Option α}

theorem nil : IsRing next prev [] := by
  simp [IsRing]

/-- A ring is a ring from any of its elements on. -/
theorem rotate_iff (xs : List α) (n : ℕ) :
    IsRing next prev (xs.rotate n) ↔ IsRing next prev xs := by
  simp [IsRing, links_rotate]

theorem append_comm {xs ys : List α} :
    IsRing next prev (xs ++ ys) ↔ IsRing next prev (ys ++ xs) := by
  rw [← rotate_iff (xs ++ ys) xs.length, List.rotate_append_length_eq]

theorem singleton_iff {x : α} :
    IsRing next prev [x] ↔ next x = some x ∧ prev x = some x := by
  simp [IsRing, links]

/-- The closing link: the last element points to the first. -/
theorem closing {v u : α} {ws init : List α} (h : IsRing next prev (v :: ws))
    (hu : v :: ws = init ++ [u]) : next u = some v ∧ prev v = some u := by
  apply h (u, v)
  rw [links_cons_snoc v u ws init hu]
  simp

theorem next_head {x y : α} {xs : List α} (h : IsRing next prev (x :: y :: xs)) :
    next x = some y ∧ prev y = some x := by
  apply h (x, y)
  rw [links_cons]
  simp

/-- Only the links of the ring matter. -/
theorem congr {xs : List α} (h : IsRing next prev xs) (hn : ∀ x ∈ xs, next' x = next x)
    (hp : ∀ x ∈ xs, prev' x = prev x) : IsRing next' prev' xs := by
  intro l hl
  have hmem : l.1 ∈ xs ∧ l.2 ∈ xs.rotate 1 := List.of_mem_zip (a := l.1) (b := l.2) hl
  have hmem2 : l.2 ∈ xs := List.mem_rotate.mp hmem.2
  rw [hn _ hmem.1, hp _ hmem2]
  exact h l hl

/-- The successor of an element: the next one, or the first after the last. -/
theorem next_of_split {v x : α} {ws pre suf : List α} (h : IsRing next prev (v :: ws))
    (hsplit : v :: ws = pre ++ x :: suf) : next x = (suf ++ [v]).head? := by
  cases suf with
  | nil => exact (h.closing hsplit).1
  | cons y suf =>
    have hring : IsRing next prev (x :: y :: (suf ++ pre)) := by
      have hcomm := append_comm.mp (hsplit ▸ h)
      simpa using hcomm
    exact hring.next_head.1

/-- Splice `a` between the last element and the first: `a` becomes the new last element. -/
theorem snoc {v u a : α} {ws init : List α} (h : IsRing next prev (v :: ws))
    (hnd : (v :: ws).Nodup) (hu : v :: ws = init ++ [u]) (ha : a ∉ v :: ws)
    (hnu : next' u = some a) (hna : next' a = some v)
    (hpa : prev' a = some u) (hpv : prev' v = some a)
    (hn : ∀ x, x ≠ u → x ≠ a → next' x = next x)
    (hp : ∀ x, x ≠ v → x ≠ a → prev' x = prev x) :
    IsRing next' prev' (v :: ws ++ [a]) := by
  have hlinks : links (v :: ws ++ [a]) = init.zip ws ++ [(u, a), (a, v)] := by
    have hsnoc : links (v :: (ws ++ [a])) = (v :: ws).zip (ws ++ [a]) ++ [(a, v)] :=
      links_cons_snoc v a (ws ++ [a]) (v :: ws) rfl
    have hlen : init.length = ws.length := by
      have := congrArg List.length hu
      simp at this
      omega
    rw [List.cons_append, hsnoc, hu, List.zip_append hlen]
    simp
  intro l hl
  rw [hlinks] at hl
  rcases List.mem_append.mp hl with hl | hl
  · -- an inner link: neither its source nor its target is touched
    have hmem : l.1 ∈ init ∧ l.2 ∈ ws := List.of_mem_zip (a := l.1) (b := l.2) hl
    have hold := h l (by rw [links_cons_snoc v u ws init hu]; exact List.mem_append_left _ hl)
    have h1 : l.1 ∈ v :: ws := by rw [hu]; exact List.mem_append_left _ hmem.1
    have h2 : l.2 ∈ v :: ws := List.mem_cons_of_mem _ hmem.2
    have h1u : l.1 ≠ u := by
      rintro rfl
      rw [hu, List.nodup_append] at hnd
      exact hnd.2.2 _ hmem.1 _ (by simp) rfl
    have h2v : l.2 ≠ v := by
      rintro h2v
      exact (List.nodup_cons.mp hnd).1 (h2v ▸ hmem.2)
    rw [hn _ h1u (fun h => ha (h ▸ h1)), hp _ h2v (fun h => ha (h ▸ h2))]
    exact hold
  · simp only [List.mem_cons, List.not_mem_nil, or_false] at hl
    rcases hl with rfl | rfl
    · exact ⟨hnu, hpa⟩
    · exact ⟨hna, hpv⟩

/-- Unlink the first element of a ring of at least two. -/
theorem tail {a v u : α} {ws init : List α} (h : IsRing next prev (a :: v :: ws))
    (hnd : (a :: v :: ws).Nodup) (hu : v :: ws = init ++ [u])
    (hnu : next' u = some v) (hpv : prev' v = some u)
    (hn : ∀ x ∈ v :: ws, x ≠ u → next' x = next x)
    (hp : ∀ x ∈ v :: ws, x ≠ v → prev' x = prev x) :
    IsRing next' prev' (v :: ws) := by
  have hlen : init.length = ws.length := by
    have := congrArg List.length hu
    simp at this
    omega
  have hnd' := (List.nodup_cons.mp hnd).2
  intro l hl
  rw [links_cons_snoc v u ws init hu] at hl
  rcases List.mem_append.mp hl with hl | hl
  · -- an inner link, which was one before
    have hmem : l.1 ∈ init ∧ l.2 ∈ ws := List.of_mem_zip (a := l.1) (b := l.2) hl
    have hold := h l (by
      rw [links_cons, List.cons_append, List.zip_cons_cons, hu, List.zip_append hlen]
      simp [hl])
    have h1u : l.1 ≠ u := by
      rintro rfl
      rw [hu, List.nodup_append] at hnd'
      exact hnd'.2.2 _ hmem.1 _ (by simp) rfl
    have h2v : l.2 ≠ v := by
      rintro h2v
      exact (List.nodup_cons.mp hnd').1 (h2v ▸ hmem.2)
    rw [hn _ (by rw [hu]; exact List.mem_append_left _ hmem.1) h1u,
      hp _ (List.mem_cons_of_mem _ hmem.2) h2v]
    exact hold
  · -- the closing link
    simp only [List.mem_cons, List.not_mem_nil, or_false] at hl
    subst hl
    exact ⟨hnu, hpv⟩

/-- Splice `a` at any place of a nonempty ring: between `u` and `v`, the elements that end up
around it. -/
theorem insert {v u a : α} {ws init L R : List α} (h : IsRing next prev (L ++ R))
    (hnd : (L ++ R).Nodup) (hv : R ++ L = v :: ws) (hu : R ++ L = init ++ [u]) (ha : a ∉ L ++ R)
    (hnu : next' u = some a) (hna : next' a = some v)
    (hpa : prev' a = some u) (hpv : prev' v = some a)
    (hn : ∀ x, x ≠ u → x ≠ a → next' x = next x)
    (hp : ∀ x, x ≠ v → x ≠ a → prev' x = prev x) :
    IsRing next' prev' (L ++ a :: R) := by
  have hring : IsRing next prev (v :: ws) := hv ▸ append_comm.mp h
  have hnd' : (v :: ws).Nodup := hv ▸ (List.perm_append_comm.nodup_iff.mp hnd)
  have ha' : a ∉ v :: ws := by
    rw [← hv]
    simpa [or_comm] using ha
  have hnew := hring.snoc hnd' (hv ▸ hu) ha' hnu hna hpa hpv hn hp
  rw [← hv, List.append_assoc] at hnew
  have hlast := append_comm.mp hnew
  rwa [List.append_assoc, List.singleton_append] at hlast

/-- Unlink any element `a` of a ring of at least two, `u` and `v` being its neighbours. -/
theorem erase {v u a : α} {ws init L R : List α} (h : IsRing next prev (L ++ a :: R))
    (hnd : (L ++ a :: R).Nodup) (hv : R ++ L = v :: ws) (hu : R ++ L = init ++ [u])
    (hnu : next' u = some v) (hpv : prev' v = some u)
    (hn : ∀ x, x ≠ u → x ≠ a → next' x = next x)
    (hp : ∀ x, x ≠ v → x ≠ a → prev' x = prev x) :
    IsRing next' prev' (L ++ R) := by
  have hring : IsRing next prev (a :: v :: ws) := by
    have hcomm := append_comm.mp h
    rwa [List.cons_append, hv] at hcomm
  have hnd' : (a :: v :: ws).Nodup := by
    have hperm : (L ++ a :: R).Perm (a :: R ++ L) := List.perm_append_comm
    rwa [hperm.nodup_iff, List.cons_append, hv] at hnd
  have hne : ∀ x ∈ v :: ws, x ≠ a := fun x hx hxa => (List.nodup_cons.mp hnd').1 (hxa ▸ hx)
  have hnew := hring.tail hnd' (hv ▸ hu) hnu hpv
    (fun x hx hxu => hn x hxu (hne x hx)) (fun x hx hxv => hp x hxv (hne x hx))
  rw [← hv] at hnew
  exact append_comm.mp hnew

/-- The neighbours of an element of a ring. -/
theorem neighbours {v u a : α} {ws init L R : List α} (h : IsRing next prev (L ++ a :: R))
    (hv : R ++ L = v :: ws) (hu : R ++ L = init ++ [u]) :
    next a = some v ∧ prev a = some u := by
  have hring : IsRing next prev (a :: v :: ws) := by
    have hcomm := append_comm.mp h
    rwa [List.cons_append, hv] at hcomm
  have hlast : a :: v :: ws = (a :: init) ++ [u] := by
    rw [← hv, hu]
    rfl
  exact ⟨hring.next_head.1, (hring.closing hlast).2⟩

/-- An element that is not alone has neighbours among the others. -/
theorem exists_neighbours {a : α} {L R : List α} (h : IsRing next prev (L ++ a :: R))
    (hne : R ++ L ≠ []) :
    (∃ v ∈ R ++ L, next a = some v) ∧ ∃ u ∈ R ++ L, prev a = some u := by
  obtain ⟨v, ws, init, u, hv, hu, hv_mem, hu_mem⟩ := exists_ends hne
  obtain ⟨hnext, hprev⟩ := h.neighbours hv hu
  exact ⟨⟨v, hv_mem, hnext⟩, u, hu_mem, hprev⟩

/-- The elements of a ring, in order, determine its links. -/
theorem links_eq {xs : List α} (h : IsRing next prev xs) (h' : IsRing next' prev' xs) {x : α}
    (hx : x ∈ xs) : next' x = next x ∧ prev' x = prev x := by
  obtain ⟨L, R, rfl⟩ := List.append_of_mem hx
  by_cases hne : R ++ L = []
  · obtain ⟨rfl, rfl⟩ : R = [] ∧ L = [] := by simpa using hne
    have hself := singleton_iff.mp h
    have hself' := singleton_iff.mp h'
    exact ⟨hself'.1.trans hself.1.symm, hself'.2.trans hself.2.symm⟩
  · obtain ⟨v, ws, init, u, hv, hu, -, -⟩ := exists_ends hne
    have hadj := h.neighbours hv hu
    have hadj' := h'.neighbours hv hu
    exact ⟨hadj'.1.trans hadj.1.symm, hadj'.2.trans hadj.2.symm⟩

/-- An element is not among the others. -/
theorem not_mem_others {a : α} {L R : List α} (hnd : (L ++ a :: R).Nodup) : a ∉ R ++ L := by
  have hperm : (L ++ a :: R).Perm (a :: R ++ L) := List.perm_append_comm
  exact (List.nodup_cons.mp (hperm.nodup_iff.mp hnd)).1

/-- An element that is its own predecessor is alone in the ring. -/
theorem prev_self_iff {a : α} {L R : List α} (h : IsRing next prev (L ++ a :: R))
    (hnd : (L ++ a :: R).Nodup) : prev a = some a ↔ L = [] ∧ R = [] := by
  constructor
  · intro hself
    by_contra hne
    have hne' : R ++ L ≠ [] := by
      intro he
      exact hne (by simpa [and_comm] using he)
    obtain ⟨u, hu, hprev⟩ := (h.exists_neighbours hne').2
    obtain rfl := Option.some.inj (hself.symm.trans hprev)
    exact not_mem_others hnd hu
  · rintro ⟨rfl, rfl⟩
    exact (singleton_iff.mp h).2

/-- An element that is its own successor is alone in the ring. -/
theorem next_self_iff {a : α} {L R : List α} (h : IsRing next prev (L ++ a :: R))
    (hnd : (L ++ a :: R).Nodup) : next a = some a ↔ L = [] ∧ R = [] := by
  constructor
  · intro hself
    by_contra hne
    have hne' : R ++ L ≠ [] := by
      intro he
      exact hne (by simpa [and_comm] using he)
    obtain ⟨v, hv, hnext⟩ := (h.exists_neighbours hne').1
    obtain rfl := Option.some.inj (hself.symm.trans hnext)
    exact not_mem_others hnd hv
  · rintro ⟨rfl, rfl⟩
    exact (singleton_iff.mp h).1

end IsRing

/-- `a` is about to be taken out of the ring `xs`: linking its neighbours `u` and `v` to each other
makes a ring of the others. -/
structure Unlinking [DecidableEq α] (next prev : α → Option α) (xs : List α) (a u v : α) : Prop where
  next_eq : next a = some v
  prev_eq : prev a = some u
  next_mem : v ∈ xs.erase a
  prev_mem : u ∈ xs.erase a
  head : xs.head? = some a → (xs.erase a).head? = some v
  head_other : xs.head? ≠ some a → (xs.erase a).head? = xs.head?
  ring : ∀ {next' prev' : α → Option α}, next' u = some v → prev' v = some u →
    (∀ x, x ≠ a → x ≠ u → next' x = next x) → (∀ x, x ≠ a → x ≠ v → prev' x = prev x) →
    IsRing next' prev' (xs.erase a)

/-- Any element of a ring with others beside it can be taken out. -/
theorem IsRing.exists_unlinking [DecidableEq α] {next prev : α → Option α} {xs : List α} {a : α}
    (h : IsRing next prev xs) (hnd : xs.Nodup) (ha : a ∈ xs) (hne : xs.erase a ≠ []) :
    ∃ u v, Unlinking next prev xs a u v := by
  obtain ⟨L, R, rfl⟩ := List.append_of_mem ha
  have haL : a ∉ L := fun h => (List.nodup_append.mp hnd).2.2 a h a (by simp) rfl
  have herase : (L ++ a :: R).erase a = L ++ R := by
    rw [List.erase_append_right _ haL, List.erase_cons_head]
  rw [herase] at hne
  have hne' : R ++ L ≠ [] := fun he => hne (by simpa [and_comm] using he)
  obtain ⟨v, ws, init, u, hv, hu, hv_mem, hu_mem⟩ := exists_ends hne'
  obtain ⟨hnext, hprev⟩ := h.neighbours hv hu
  refine ⟨u, v, hnext, hprev, ?_, ?_, ?_, ?_, ?_⟩
  · rw [herase]
    simpa [or_comm] using hv_mem
  · rw [herase]
    simpa [or_comm] using hu_mem
  · intro hhead
    rw [herase]
    cases L with
    | nil =>
      rw [List.append_nil] at hv
      simp [hv]
    | cons x L =>
      obtain rfl : x = a := by simpa using hhead
      exact absurd (List.mem_cons_self ..) haL
  · intro hhead
    rw [herase]
    cases L with
    | nil => exact absurd rfl hhead
    | cons x L => rfl
  · intro next' prev' hnu hpv hn hp
    rw [herase]
    exact h.erase hnd hv hu hnu hpv (fun x hxu hxa => hn x hxa hxu) fun x hxv hxa => hp x hxa hxv

/-- What follows an element of a ring without repeats is not the head. -/
theorem ne_head_of_split {v x y : α} {ws pre suf : List α} (hnd : (v :: ws).Nodup)
    (hsplit : v :: ws = pre ++ x :: y :: suf) : y ≠ v := by
  rintro rfl
  rw [hsplit] at hnd
  cases pre with
  | nil =>
    obtain rfl : y = x := (List.cons.inj hsplit).1
    simp at hnd
  | cons p pre =>
    obtain rfl : y = p := (List.cons.inj hsplit).1
    simp at hnd

/-! ## Elements with their neighbours -/

/-- Each element with the one before it and the one after it. -/
def around (xs : List α) : List (α × α × α) :=
  xs.zip ((xs.rotate (xs.length - 1)).zip (xs.rotate 1))

theorem map_fst_around (xs : List α) : (around xs).map Prod.fst = xs :=
  List.map_fst_zip (by simp)

theorem around_map {β : Type*} (f : α → β) (xs : List α) :
    around (xs.map f) = (around xs).map fun x => (f x.1, f x.2.1, f x.2.2) := by
  simp [around, ← List.map_rotate, List.zip_map]

/-- In a ring the neighbours are what the links lead to. -/
theorem IsRing.of_mem_around {next prev : α → Option α} {xs : List α} (h : IsRing next prev xs)
    {x : α × α × α} (hx : x ∈ around xs) : next x.1 = some x.2.2 ∧ prev x.1 = some x.2.1 := by
  obtain ⟨i, hi, rfl⟩ := List.mem_iff_getElem.mp hx
  have hlen : i < xs.length := by
    simp only [around, List.length_zip, List.length_rotate] at hi
    omega
  have hlater : i < (xs.rotate 1).length := by simpa using hlen
  have hearlier : i < (xs.rotate (xs.length - 1)).length := by simpa using hlen
  -- the links, turned so that each ends at the element itself
  have hback : links (xs.rotate (xs.length - 1)) = (xs.rotate (xs.length - 1)).zip xs := by
    have hfull : xs.length - 1 + 1 = xs.length := by omega
    rw [links, List.rotate_rotate, hfull, List.rotate_length]
  have hnext : (xs[i], (xs.rotate 1)[i]) ∈ links xs := by
    refine List.mem_iff_getElem.mpr ⟨i, by simpa [links] using hlen, ?_⟩
    simp [links]
  have hprev : ((xs.rotate (xs.length - 1))[i], xs[i]) ∈ links xs := by
    have hmem : ((xs.rotate (xs.length - 1))[i], xs[i]) ∈
        links (xs.rotate (xs.length - 1)) := by
      rw [hback]
      refine List.mem_iff_getElem.mpr ⟨i, by simpa using hlen, ?_⟩
      simp
    rw [links_rotate] at hmem
    exact List.mem_rotate.mp hmem
  simp only [around, List.getElem_zip]
  exact ⟨(h _ hnext).1, (h _ hprev).2⟩

/-! ## Reading a ring back -/

/-- Follow `next` from `x` until the walk would return to `stop`. -/
def walk [DecidableEq α] (next : α → Option α) (stop : α) : ℕ → α → List α
  | 0, _ => []
  | fuel + 1, x =>
    x :: match next x with
      | some y => if y = stop then [] else walk next stop fuel y
      | none => []

/-- Walking on from an element of a ring reads the rest of it. -/
theorem walk_suffix [DecidableEq α] {next prev : α → Option α} {v : α} {ws pre suf : List α}
    {x : α} (h : IsRing next prev (v :: ws)) (hnd : (v :: ws).Nodup)
    (hsplit : v :: ws = pre ++ x :: suf) {fuel : ℕ} (hfuel : suf.length < fuel) :
    walk next v fuel x = x :: suf := by
  induction suf generalizing pre x fuel with
  | nil =>
    obtain ⟨n, rfl⟩ : ∃ n, fuel = n + 1 := ⟨fuel - 1, by omega⟩
    simp [walk, h.next_of_split hsplit]
  | cons y suf ih =>
    obtain ⟨n, rfl⟩ : ∃ n, fuel = n + 1 := ⟨fuel - 1, by omega⟩
    have hy : y ≠ v := by
      rintro rfl
      cases pre with
      | nil =>
        have hxy : y = x := (List.cons.inj hsplit).1
        rw [hsplit] at hnd
        simp [hxy] at hnd
      | cons p pre =>
        have hpy : y = p := (List.cons.inj hsplit).1
        rw [hsplit] at hnd
        simp [hpy] at hnd
    have hsplit' : v :: ws = (pre ++ [x]) ++ y :: suf := by simpa using hsplit
    have hrest : walk next v n y = y :: suf := ih hsplit' (by simp at hfuel; omega)
    simp [walk, h.next_of_split hsplit, hy, hrest]

/-- Walking a ring from its head reads it in order. -/
theorem walk_eq [DecidableEq α] {next prev : α → Option α} {v : α} {ws : List α}
    (h : IsRing next prev (v :: ws)) (hnd : (v :: ws).Nodup) {fuel : ℕ}
    (hfuel : ws.length < fuel) : walk next v fuel v = v :: ws :=
  walk_suffix h hnd (List.nil_append _).symm hfuel

end Lib.Ring
