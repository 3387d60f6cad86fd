import FOrder.Suspend.DequePool

/-!
# `Suspend.DequePoolKept` — the pools keep their deques

The invariant `Slots` ties an array to the fields of the deques in it: the deque at index `i` has `self = i`, and
its worker and its flag name the pool. Hence no deque is at two places, and when the last deque moves into the hole
only its `self` has to change. `Outside` is what is known of a deque in no pool.

`deque_pool_add` and `deque_pool_remove` have one lemma each, about `Slots` alone: in the middle of an event the
deque that is moved is in no pool, and its fields are what the event has written so far. `Slots.setDeque` is such a
write. An event is then a few of these in a row (`PoolsOk.makeResumable` is the longest), and `PoolsOk.step` goes
through the events. The assertions of the code are asked on the way; none of them fails for an allowed event.
-/

namespace FOrder.Suspend

variable {W D : Type}

/-! ## The invariant

An array says which deques are in it, and a deque says in which array it is and where. `Slots` is that the two agree,
for all pools at once; everything else in this section follows from it. -/

/-- The deques of a pool are its first `size` entries, and each knows where it is. -/
structure Runtime.Slots (s : Runtime W D) : Prop where
  length : ∀ p, (s.pool p).array.length = (s.pool p).capacity
  pos : ∀ p, 0 < (s.pool p).capacity
  size_le : ∀ p, (s.pool p).size ≤ (s.pool p).capacity
  filled : ∀ p i, i < (s.pool p).size → ∃ d, s.Sits p i d
  self : ∀ p i d, s.Sits p i d → (s.deque d).self = i
  worker : ∀ p i d, s.Sits p i d → (s.deque d).worker = some p.1
  kind : ∀ p i d, s.Sits p i d → (s.deque d).kind = p.2

/-- A deque outside the pools is active, or it is idle and belongs to no worker. -/
def Outside (x : Deque W) : Prop :=
  (x.self = invalidDequeIndex ∧ x.worker = none) ∨ x.self = activeDequeIndex

/-- And what is known of the deques that are in no pool. -/
structure Runtime.PoolsOk (s : Runtime W D) : Prop where
  slots : s.Slots
  outside : ∀ d, s.Free d → Outside (s.deque d)

variable {s s' : Runtime W D} {p q : PoolPtr W} {d e : D} {i j : Nat}

/-- A deque is at one index only. -/
theorem Runtime.Slots.index_inj (h : s.Slots) (hi : s.Sits p i d) (hj : s.Sits q j d) : i = j := by
  have hself := (h.self p i d hi).symm.trans (h.self q j d hj)
  omega

/-- A deque is in one pool only. -/
theorem Runtime.Slots.pool_inj (h : s.Slots) (hi : s.Sits p i d) (hj : s.Sits q j d) : p = q := by
  have hw := (h.worker p i d hi).symm.trans (h.worker q j d hj)
  have hk := (h.kind p i d hi).symm.trans (h.kind q j d hj)
  exact Prod.ext (Option.some.inj hw) hk

/-- There is one deque at each place. -/
theorem Runtime.Sits.deque_inj (hd : s.Sits p i d) (he : s.Sits p i e) : d = e :=
  Option.some.inj (Option.some.inj (hd.2.symm.trans he.2))

/-- Only its own pool matters. -/
theorem Runtime.Sits.congr (h : s'.pool p = s.pool p) : s'.Sits p i = s.Sits p i := by
  funext d
  rw [Runtime.Sits, Runtime.Sits, h]

/-- No deque is lost or there twice. -/
theorem Runtime.PoolsOk.kept (h : s.PoolsOk) : s.Kept where
  size_le := fun p => ⟨h.slots.size_le p, (h.slots.length p).symm⟩
  filled := h.slots.filled
  distinct := fun p i j d hi hj => h.slots.index_inj hi hj
  back := by
    rintro p d ⟨i, hi⟩
    exact ⟨i, h.slots.self p i d hi, hi, h.slots.worker p i d hi⟩
  once := by
    rintro p p' d ⟨i, hi⟩ ⟨j, hj⟩
    exact h.slots.pool_inj hi hj
  outside := by
    intro d hd
    rcases h.outside d hd with ⟨hself, -⟩ | hself
    · exact Or.inl hself
    · exact Or.inr hself

/-- One pool has changed, and the deques in the pools fit: what has to be shown of the other pools is only that
    their deques' fields are as they were. -/
theorem Runtime.Slots.update (h : s.Slots) (hother : ∀ q, q ≠ p → s'.pool q = s.pool q)
    (hlength : (s'.pool p).array.length = (s'.pool p).capacity) (hpos : 0 < (s'.pool p).capacity)
    (hle : (s'.pool p).size ≤ (s'.pool p).capacity) (hfilled : ∀ i, i < (s'.pool p).size → ∃ d, s'.Sits p i d)
    (hsits : ∀ q i e, s'.Sits q i e →
      (s'.deque e).self = i ∧ (s'.deque e).worker = some q.1 ∧ (s'.deque e).kind = q.2) : s'.Slots where
  length := by
    intro q
    by_cases hq : q = p
    · rw [hq, hlength]
    · rw [hother q hq, h.length q]
  pos := by
    intro q
    by_cases hq : q = p
    · rwa [hq]
    · rw [hother q hq]
      exact h.pos q
  size_le := by
    intro q
    by_cases hq : q = p
    · rwa [hq]
    · rw [hother q hq]
      exact h.size_le q
  filled := by
    intro q i hi
    by_cases hq : q = p
    · subst hq
      exact hfilled i hi
    · rw [Runtime.Sits.congr (hother q hq)]
      rw [hother q hq] at hi
      exact h.filled q i hi
  self := fun q i e he => (hsits q i e he).1
  worker := fun q i e he => (hsits q i e he).2.1
  kind := fun q i e he => (hsits q i e he).2.2

/-! ## The pool

The array of one pool, without the deques' own fields: what `resize` copies, and when it has to grow. -/

/-- An array of deques passes `deque_pool_validate`. -/
theorem validate_of_filled {q : DequePool D} (h : ∀ i, i < q.size → ∃ d, q.array[i]? = some (some d)) :
    q.validate = some () := by
  refine cilkAssert_pos (List.all_eq_true.mpr ?_)
  intro x hx
  obtain ⟨i, hi⟩ := List.mem_iff_getElem?.mp hx
  rw [List.getElem?_take] at hi
  split at hi
  · rename_i hlt
    obtain ⟨d, hd⟩ := h i hlt
    obtain rfl : some d = x := Option.some.inj (hd.symm.trans hi)
    rfl
  · cases hi

/-- `resize` to a larger capacity keeps the deques: it copies those in use, and sets the rest to null. -/
theorem resize_spec {q : DequePool D} {cap : Nat} (hsize : q.size ≤ q.array.length) (hcap : q.size < cap) :
    ∃ q', q.resize cap = some q' ∧ q'.size = q.size ∧ q'.capacity = cap ∧ q'.array.length = cap ∧
      ∀ i, i < q.size → q'.array[i]? = q.array[i]? := by
  refine ⟨_, if_pos hcap, rfl, rfl, ?_, ?_⟩
  · simp only [List.length_append, List.length_take, List.length_replicate]
    omega
  · intro i hi
    show (q.array.take q.size ++ List.replicate (cap - q.size) none)[i]? = q.array[i]?
    rw [List.getElem?_append_left (by rw [List.length_take]; omega), List.getElem?_take_of_lt hi]

/-- After the growth there is room for one more deque. The array doubles when it is full, and otherwise stays as it
    is. -/
theorem Runtime.Slots.grow (h : s.Slots) (p : PoolPtr W) :
    ∃ q, (s.pool p).grow = some q ∧ q.size = (s.pool p).size ∧ q.size < q.capacity ∧
      q.array.length = q.capacity ∧
      ∀ i, i < q.size → q.array[i]? = (s.pool p).array[i]? := by
  have hlength := h.length p
  have hpos := h.pos p
  have hle := h.size_le p
  by_cases hfull : (s.pool p).size = (s.pool p).capacity
  · rw [DequePool.grow, if_pos hfull]
    obtain ⟨q, hq, hsize, hcap, hlen, hget⟩ :=
      @resize_spec D (s.pool p) (2 * (s.pool p).capacity) (by omega) (by omega)
    refine ⟨q, hq, hsize, by omega, by omega, ?_⟩
    intro i hi
    exact hget i (by omega)
  · rw [DequePool.grow, if_neg hfull]
    exact ⟨_, rfl, rfl, by omega, hlength, fun _ _ => rfl⟩

section

variable [DecidableEq W] [DecidableEq D]

/-! ## Adding

The new deque goes to the first free place, which is there after the growth. Its three fields are written so that they
name the place. -/

/-- **`deque_pool_add`** puts the deque behind the others. The deque gets its index and the pool's worker; that its
    flag names the pool is what the assertion asks of the caller. -/
theorem Runtime.Slots.add (h : s.Slots) {victim : W} (hfree : s.Free d) (hp : p = (victim, (s.deque d).kind)) :
    ∃ s', s.dequePoolAdd victim p d = some s' ∧ s'.Slots ∧ (∀ e, e ≠ d → s'.deque e = s.deque e) ∧
      ∀ q e, s'.Holds q e ↔ s.Holds q e ∨ (q = p ∧ e = d) := by
  obtain ⟨q₀, hgrow, hsize, hroom, hlength, hget⟩ := h.grow p
  -- the new array: the old deques, then `d`
  have hslot : ∀ i, i < q₀.size → (q₀.array.set q₀.size (some d))[i]? = (s.pool p).array[i]? := by
    intro i hi
    rw [List.getElem?_set_ne (by omega), hget i hi]
  have hlast : (q₀.array.set q₀.size (some d))[q₀.size]? = some (some d) :=
    List.getElem?_set_self (by omega)
  have hvalid : (⟨q₀.array.set q₀.size (some d), q₀.size + 1, q₀.capacity⟩ : DequePool D).validate = some () := by
    refine validate_of_filled fun i hi => ?_
    rcases Nat.lt_succ_iff_lt_or_eq.mp hi with hlt | rfl
    · obtain ⟨e, he⟩ := h.filled p i (by omega)
      exact ⟨e, (hslot i hlt).trans he.2⟩
    · exact ⟨d, hlast⟩
  -- the state after the call
  obtain ⟨s', hs'⟩ : ∃ s', s' = (s.setDeque d { s.deque d with self := q₀.size, worker := some victim }).setPool p
      ⟨q₀.array.set q₀.size (some d), q₀.size + 1, q₀.capacity⟩ := ⟨_, rfl⟩
  have hpool : s'.pool p = ⟨q₀.array.set q₀.size (some d), q₀.size + 1, q₀.capacity⟩ := by
    rw [hs']
    exact Function.update_self ..
  have hother : ∀ q, q ≠ p → s'.pool q = s.pool q := by
    intro q hq
    rw [hs']
    exact Function.update_of_ne hq ..
  have hd : s'.deque d = { s.deque d with self := q₀.size, worker := some victim } := by
    rw [hs']
    exact Function.update_self ..
  have hkeep : ∀ e, e ≠ d → s'.deque e = s.deque e := by
    intro e he
    rw [hs']
    exact Function.update_of_ne he ..
  have hsits : ∀ q i e, s'.Sits q i e ↔ s.Sits q i e ∨ (q = p ∧ i = q₀.size ∧ e = d) := by
    intro q i e
    by_cases hq : q = p
    · subst hq
      rw [Runtime.Sits, Runtime.Sits, hpool]
      dsimp only
      rcases Nat.lt_trichotomy i q₀.size with hlt | rfl | hgt
      · rw [hslot i hlt]
        constructor
        · exact fun h => Or.inl ⟨by omega, h.2⟩
        · rintro (h | h)
          · exact ⟨by omega, h.2⟩
          · omega
      · rw [hlast]
        constructor
        · exact fun h => Or.inr ⟨rfl, rfl, (Option.some.inj (Option.some.inj h.2)).symm⟩
        · rintro (h | ⟨-, -, rfl⟩)
          · omega
          · exact ⟨Nat.lt_succ_self _, rfl⟩
      · constructor
        · exact fun h => absurd h.1 (by omega)
        · rintro (h | h)
          · omega
          · omega
    · rw [Runtime.Sits, Runtime.Sits, hother q hq]
      exact ⟨Or.inl, fun h => h.resolve_right fun h => hq h.1⟩
  -- the old deques are not `d`, so that their fields are as before
  have hne : ∀ {q i e}, s.Sits q i e → s'.deque e = s.deque e := by
    intro q i e he
    refine hkeep e ?_
    rintro rfl
    exact hfree q ⟨i, he⟩
  have hslots : s'.Slots := by
    refine h.update hother ?_ ?_ ?_ ?_ ?_
    · rw [hpool]
      exact (List.length_set ..).trans hlength
    · rw [hpool]
      exact Nat.zero_lt_of_lt hroom
    · rw [hpool]
      exact hroom
    · intro i hi
      rw [hpool] at hi
      rcases Nat.lt_succ_iff_lt_or_eq.mp hi with hlt | rfl
      · obtain ⟨e, he⟩ := h.filled p i (by omega)
        exact ⟨e, (hsits ..).mpr (Or.inl he)⟩
      · exact ⟨d, (hsits ..).mpr (Or.inr ⟨rfl, rfl, rfl⟩)⟩
    · intro q i e he
      rcases (hsits q i e).mp he with he | ⟨rfl, rfl, rfl⟩
      · rw [hne he]
        exact ⟨h.self q i e he, h.worker q i e he, h.kind q i e he⟩
      · rw [hd, hp]
        exact ⟨rfl, rfl, rfl⟩
  refine ⟨s', ?_, hslots, hkeep, ?_⟩
  · rw [Runtime.dequePoolAdd, cilkAssert_pos hp, Option.bind_eq_bind, Option.bind_some, hgrow]
    simp only [Option.bind_eq_bind, Option.bind_some]
    rw [cilkAssert_pos (show q₀.size + 1 ≤ q₀.capacity by omega), Option.bind_some, hvalid, Option.bind_some, hs']
  · intro q e
    constructor
    · rintro ⟨i, hi⟩
      rcases (hsits q i e).mp hi with hi | ⟨rfl, -, rfl⟩
      · exact Or.inl ⟨i, hi⟩
      · exact Or.inr ⟨rfl, rfl⟩
    · rintro (⟨i, hi⟩ | ⟨rfl, rfl⟩)
      · exact ⟨i, (hsits q i e).mpr (Or.inl hi)⟩
      · exact ⟨_, (hsits ..).mpr (Or.inr ⟨rfl, rfl, rfl⟩)⟩

/-! ## Removing

The last deque of the array fills the hole. Two deques are written, and their order matters when they are the same
one: the code then clears the place that it has just filled. -/

/-- **`deque_pool_remove`** takes out `d` and keeps the others: the last deque moves to the place of `d`, and its
    `self` with it. If `d` is the last one itself, nothing moves. -/
theorem Runtime.Slots.remove (h : s.Slots) (hd : s.Sits p i d) :
    ∃ s', s.dequePoolRemove p d = some s' ∧ s'.Slots ∧
      s'.deque d = { s.deque d with self := invalidDequeIndex, worker := none } ∧
      (∀ e, e ≠ d → s.Free e → s'.deque e = s.deque e) ∧
      ∀ q e, s'.Holds q e ↔ s.Holds q e ∧ ¬(q = p ∧ e = d) := by
  have hself := h.self p i d hd
  have hlength := h.length p
  have hle := h.size_le p
  have hi := hd.1
  -- the deque at the end, which may be `d`
  obtain ⟨m, hm⟩ := h.filled p ((s.pool p).size - 1) (by omega)
  have hm_self := h.self p _ m hm
  obtain ⟨last, hlast⟩ : ∃ last, last = (s.pool p).size - 1 := ⟨_, rfl⟩
  rw [← hlast] at hm hm_self
  obtain ⟨array, harray⟩ : ∃ array, array = ((s.pool p).array.set i (some m)).set last none := ⟨_, rfl⟩
  have hmoved : ((s.pool p).array.set i (some m))[last]? = some (some m) := by
    by_cases hil : i = last
    · rw [hil]
      exact List.getElem?_set_self (by omega)
    · rw [List.getElem?_set_ne hil]
      exact hm.2
  have hhole : i < last → array[i]? = some (some m) := by
    intro hlt
    rw [harray, List.getElem?_set_ne (by omega)]
    exact List.getElem?_set_self (by omega)
  have hrest : ∀ j, j < last → j ≠ i → array[j]? = (s.pool p).array[j]? := by
    intro j hj hji
    rw [harray, List.getElem?_set_ne (by omega), List.getElem?_set_ne (Ne.symm hji)]
  -- the state after the call
  obtain ⟨s₁, hs₁⟩ : ∃ s₁, s₁ = s.setDeque m { s.deque m with self := (s.deque d).self } := ⟨_, rfl⟩
  obtain ⟨s₂, hs₂⟩ : ∃ s₂, s₂ = s₁.setDeque d { s₁.deque d with self := invalidDequeIndex } := ⟨_, rfl⟩
  obtain ⟨s', hs'⟩ : ∃ s', s' = (s₂.setDeque d { s₂.deque d with worker := none }).setPool p
      ⟨array, last, (s.pool p).capacity⟩ := ⟨_, rfl⟩
  have hpool : s'.pool p = ⟨array, last, (s.pool p).capacity⟩ := by
    rw [hs']
    exact Function.update_self ..
  have hother : ∀ q, q ≠ p → s'.pool q = s.pool q := by
    intro q hq
    rw [hs', hs₂, hs₁]
    exact Function.update_of_ne hq ..
  have hd₂ : s₂.deque d = { s.deque d with self := invalidDequeIndex } := by
    rw [hs₂]
    refine (Function.update_self ..).trans ?_
    by_cases hdm : d = m
    · have hs₁d : s₁.deque d = { s.deque d with self := (s.deque d).self } := by
        rw [hs₁, ← hdm]
        exact Function.update_self ..
      rw [hs₁d]
    · have hs₁d : s₁.deque d = s.deque d := by
        rw [hs₁]
        exact Function.update_of_ne hdm ..
      rw [hs₁d]
  have hd' : s'.deque d = { s.deque d with self := invalidDequeIndex, worker := none } := by
    rw [hs']
    refine (Function.update_self ..).trans ?_
    rw [hd₂]
  have hm' : m ≠ d → s'.deque m = { s.deque m with self := i } := by
    intro hmd
    rw [hs', ← hself]
    refine (Function.update_of_ne hmd ..).trans ?_
    rw [hs₂]
    refine (Function.update_of_ne hmd ..).trans ?_
    rw [hs₁]
    exact Function.update_self ..
  have hkeep : ∀ e, e ≠ d → e ≠ m → s'.deque e = s.deque e := by
    intro e hed hem
    rw [hs']
    refine (Function.update_of_ne hed ..).trans ?_
    rw [hs₂]
    refine (Function.update_of_ne hed ..).trans ?_
    rw [hs₁]
    exact Function.update_of_ne hem ..
  -- the places of the pool: the hole holds the last deque
  have hsits : ∀ j e, s'.Sits p j e ↔ j < last ∧ ((j = i ∧ e = m) ∨ (j ≠ i ∧ s.Sits p j e)) := by
    intro j e
    rw [Runtime.Sits, Runtime.Sits, hpool]
    dsimp only
    by_cases hji : j = i
    · subst hji
      constructor
      · rintro ⟨hj, he⟩
        exact ⟨hj, Or.inl ⟨rfl, (Option.some.inj (Option.some.inj ((hhole hj).symm.trans he))).symm⟩⟩
      · rintro ⟨hj, ⟨-, rfl⟩ | ⟨hne, -⟩⟩
        · exact ⟨hj, hhole hj⟩
        · exact absurd rfl hne
    · constructor
      · rintro ⟨hj, he⟩
        exact ⟨hj, Or.inr ⟨hji, by omega, (hrest j hj hji).symm.trans he⟩⟩
      · rintro ⟨hj, ⟨rfl, -⟩ | ⟨-, -, he⟩⟩
        · exact absurd rfl hji
        · exact ⟨hj, (hrest j hj hji).trans he⟩
  have hsits' : ∀ {q j e}, q ≠ p → (s'.Sits q j e ↔ s.Sits q j e) := by
    intro q j e hq
    rw [Runtime.Sits.congr (hother q hq)]
  have hmd : i < last → m ≠ d := by
    rintro hlt rfl
    exact absurd (h.index_inj hd hm) (by omega)
  have hslots : s'.Slots := by
    refine h.update hother ?_ ?_ ?_ ?_ ?_
    · rw [hpool, harray]
      simp only [List.length_set]
      exact hlength
    · rw [hpool]
      exact h.pos p
    · rw [hpool]
      show last ≤ (s.pool p).capacity
      omega
    · intro j hj
      rw [hpool] at hj
      have hjlast : j < last := hj
      by_cases hji : j = i
      · exact ⟨m, (hsits j m).mpr ⟨hj, Or.inl ⟨hji, rfl⟩⟩⟩
      · obtain ⟨e, he⟩ := h.filled p j (by omega)
        exact ⟨e, (hsits j e).mpr ⟨hj, Or.inr ⟨hji, he⟩⟩⟩
    · intro q j e he
      by_cases hq : q = p
      · subst hq
        obtain ⟨hj, ⟨rfl, rfl⟩ | ⟨hji, he⟩⟩ := (hsits j e).mp he
        · rw [hm' (hmd hj)]
          exact ⟨rfl, h.worker q _ e hm, h.kind q _ e hm⟩
        · rw [hkeep e]
          · exact ⟨h.self q j e he, h.worker q j e he, h.kind q j e he⟩
          · rintro rfl
            exact hji (h.index_inj he hd)
          · rintro rfl
            exact absurd (h.index_inj he hm) (by omega)
      · rw [hsits' hq] at he
        rw [hkeep e]
        · exact ⟨h.self q j e he, h.worker q j e he, h.kind q j e he⟩
        · rintro rfl
          exact hq (h.pool_inj he hd)
        · rintro rfl
          exact hq (h.pool_inj he hm)
  refine ⟨s', ?_, hslots, hd', ?_, ?_⟩
  · have hvalid : (⟨array, last, (s.pool p).capacity⟩ : DequePool D).validate = some () := by
      refine validate_of_filled fun j hj => ?_
      obtain ⟨e, he⟩ := hslots.filled p j (by rw [hpool]; exact hj)
      rw [Runtime.Sits, hpool] at he
      exact ⟨e, he.2⟩
    have hto : (s.deque d).self.toNat = i := by
      rw [hself]
      rfl
    simp only [Runtime.dequePoolRemove, Option.bind_eq_bind]
    rw [cilkAssert_pos ⟨by omega, by omega⟩, Option.bind_some, hto, cilkAssert_pos hd.2, Option.bind_some, ← hlast,
      hm.2, Option.join_some, hmoved, Option.join_some, Option.bind_some, ← hs₁, ← hs₂, ← harray,
      cilkAssert_pos (by rw [hd₂]; exact (h.worker p i d hd).trans_ne (Option.some_ne_none _)), Option.bind_some,
      hvalid, Option.bind_some, hs']
  · intro e hed hfree
    refine hkeep e hed ?_
    rintro rfl
    exact hfree p ⟨last, hm⟩
  · intro q e
    by_cases hq : q = p
    · subst hq
      constructor
      · rintro ⟨j, hj⟩
        obtain ⟨hj, ⟨rfl, rfl⟩ | ⟨hji, he⟩⟩ := (hsits j e).mp hj
        · exact ⟨⟨last, hm⟩, fun h => hmd hj h.2⟩
        · refine ⟨⟨j, he⟩, ?_⟩
          rintro ⟨-, rfl⟩
          exact hji (h.index_inj he hd)
      · rintro ⟨⟨j, hj⟩, hne⟩
        have hji : j ≠ i := by
          rintro rfl
          exact hne ⟨rfl, hj.deque_inj hd⟩
        have hjlt := hj.1
        by_cases hjl : j = last
        · subst hjl
          exact ⟨i, (hsits i e).mpr ⟨by omega, Or.inl ⟨rfl, hj.deque_inj hm⟩⟩⟩
        · exact ⟨j, (hsits j e).mpr ⟨by omega, Or.inr ⟨hji, hj⟩⟩⟩
    · constructor
      · rintro ⟨j, hj⟩
        exact ⟨⟨j, (hsits' hq).mp hj⟩, fun h => hq h.1⟩
      · rintro ⟨⟨j, hj⟩, -⟩
        exact ⟨j, (hsits' hq).mpr hj⟩

/-! ## Writing to a deque outside the pools

An event changes a deque in several writes, and between them the deque is in no pool and in no state that `Outside`
knows. `Slots` does not look at such a deque, so it holds all the time; `PoolsOk` holds again when the last write is
done. -/

omit [DecidableEq W] in
/-- Writing to a deque moves none. -/
theorem setDeque_holds {x : Deque W} : (s.setDeque d x).Holds = s.Holds := rfl

omit [DecidableEq W] in
theorem setDeque_free {x : Deque W} : (s.setDeque d x).Free = s.Free := rfl

omit [DecidableEq W] in
/-- What was written can be read. -/
theorem setDeque_self {x : Deque W} : (s.setDeque d x).deque d = x := Function.update_self ..

omit [DecidableEq W] in
/-- The other deques have what they had. -/
theorem setDeque_ne {x : Deque W} (h : e ≠ d) : (s.setDeque d x).deque e = s.deque e :=
  Function.update_of_ne h ..

omit [DecidableEq W] in
/-- Fields of a deque that is in no pool may be written. -/
theorem Runtime.Slots.setDeque (h : s.Slots) (hd : s.Free d) (x : Deque W) : (s.setDeque d x).Slots := by
  have hne : ∀ {p i e}, s.Sits p i e → (s.setDeque d x).deque e = s.deque e := by
    intro p i e he
    refine setDeque_ne ?_
    rintro rfl
    exact hd p ⟨i, he⟩
  refine ⟨h.length, h.pos, h.size_le, h.filled, ?_, ?_, ?_⟩
  · intro p i e he
    rw [hne he]
    exact h.self p i e he
  · intro p i e he
    rw [hne he]
    exact h.worker p i e he
  · intro p i e he
    rw [hne he]
    exact h.kind p i e he

omit [DecidableEq W] in
/-- What was written to `d` before does not matter. -/
theorem Runtime.Slots.setDeque_ok (h : s.Slots) (hout : ∀ e, e ≠ d → s.Free e → Outside (s.deque e))
    (hd : s.Free d) {x : Deque W} (hx : Outside x) : (s.setDeque d x).PoolsOk := by
  refine ⟨h.setDeque hd x, ?_⟩
  intro e he
  by_cases hed : e = d
  · rw [hed, setDeque_self]
    exact hx
  · rw [setDeque_ne hed]
    exact hout e hed he

omit [DecidableEq W] in
/-- When it then is as a deque in no pool should be, all is well. -/
theorem Runtime.PoolsOk.setDeque (h : s.PoolsOk) (hd : s.Free d) {x : Deque W} (hx : Outside x) :
    (s.setDeque d x).PoolsOk :=
  h.slots.setDeque_ok (fun e _ he => h.outside e he) hd hx

/-! ## One event

Each event of the runtime as a few operations in a row. `Does` is what is shown of it: the event returns, `PoolsOk`
holds again, and no pool has gained or lost any deque but the one the event is about. -/

/-- What the step of an event keeps and does. -/
def Runtime.Does (s : Runtime W D) (ev : PoolEvent W D) : Prop :=
  ∃ s', s.step ev = some s' ∧ s'.PoolsOk ∧ ∀ p d, s'.Holds p d ↔ s.HoldsAfter p d ev

/-- Only the deque that is added has to be looked at: it may be in the middle of a change. -/
theorem Runtime.Slots.add_ok (h : s.Slots) (hout : ∀ e, e ≠ d → s.Free e → Outside (s.deque e)) {victim : W}
    (hfree : s.Free d) (hp : p = (victim, (s.deque d).kind)) :
    ∃ s', s.dequePoolAdd victim p d = some s' ∧ s'.PoolsOk ∧
      ∀ q e, s'.Holds q e ↔ s.Holds q e ∨ (q = p ∧ e = d) := by
  obtain ⟨s', hs', hslots, hkeep, hholds⟩ := h.add hfree hp
  refine ⟨s', hs', ⟨hslots, ?_⟩, hholds⟩
  intro e he
  have hed : e ≠ d := by
    rintro rfl
    exact he p ((hholds p e).mpr (Or.inr ⟨rfl, rfl⟩))
  rw [hkeep e hed]
  exact hout e hed fun q hq => he q ((hholds q e).mpr (Or.inl hq))

/-- A deque that is taken out is idle and belongs to no worker. -/
theorem Runtime.PoolsOk.remove (h : s.PoolsOk) (hd : s.Holds p d) :
    ∃ s', s.dequePoolRemove p d = some s' ∧ s'.PoolsOk ∧
      s'.deque d = { s.deque d with self := invalidDequeIndex, worker := none } ∧
      ∀ q e, s'.Holds q e ↔ s.Holds q e ∧ ¬(q = p ∧ e = d) := by
  obtain ⟨i, hi⟩ := hd
  obtain ⟨s', hs', hslots, hrec, hkeep, hholds⟩ := h.slots.remove hi
  refine ⟨s', hs', ⟨hslots, ?_⟩, hrec, hholds⟩
  intro e he
  by_cases hed : e = d
  · rw [hed, hrec]
    exact Or.inl ⟨rfl, rfl⟩
  · have hfree : s.Free e := fun q hq => he q ((hholds q e).mpr ⟨hq, fun h => hed h.2⟩)
    rw [hkeep e hed hfree]
    exact h.outside e hfree

omit [DecidableEq W] [DecidableEq D] in
/-- A deque is in one pool only, so that taking it out of that one is taking it out. -/
theorem Runtime.Slots.holds_ne_iff (h : s.Slots) (hd : s.Holds p d) :
    (s.Holds q e ∧ ¬(q = p ∧ e = d)) ↔ s.Holds q e ∧ e ≠ d := by
  constructor
  · rintro ⟨⟨j, hj⟩, hne⟩
    refine ⟨⟨j, hj⟩, ?_⟩
    rintro rfl
    obtain ⟨i, hi⟩ := hd
    exact hne ⟨h.pool_inj hj hi, rfl⟩
  · rintro ⟨hq, hne⟩
    exact ⟨hq, fun h => hne h.2⟩

omit [DecidableEq W] [DecidableEq D] in
/-- The pool of a deque is the one that its fields name. -/
theorem Runtime.Slots.ptr (h : s.Slots) (hd : s.Holds p d) :
    (s.deque d).worker = some p.1 ∧ p = (p.1, (s.deque d).kind) := by
  obtain ⟨i, hi⟩ := hd
  exact ⟨h.worker p i d hi, Prod.ext rfl (h.kind p i d hi).symm⟩

/-- A mugged deque is taken out of the pool that its fields name. -/
theorem Runtime.PoolsOk.mug (h : s.PoolsOk) (hd : s.Holds p d) : s.Does (.mug d) := by
  obtain ⟨hw, hp⟩ := h.slots.ptr hd
  obtain ⟨s', hs', hok, -, hholds⟩ := h.remove hd
  refine ⟨s', ?_, hok, fun q e => (hholds q e).trans (h.slots.holds_ne_iff hd)⟩
  have hvalid : (s.pool p).validate = some () := by
    refine validate_of_filled fun i hi => ?_
    obtain ⟨e, he⟩ := h.slots.filled p i hi
    exact ⟨e, he.2⟩
  simp only [Runtime.step, Runtime.dequeMug, Option.bind_eq_bind]
  rw [hw, Option.bind_some, ← hp, hvalid, Option.bind_some, hs']

/-- `__cilkrts_make_resumable` moves a suspended deque to the other pool of its worker, and adds an idle one to
a pool of the worker that was picked. -/
theorem Runtime.PoolsOk.makeResumable (h : s.PoolsOk) {victim : W} (hflag : (s.deque d).resumable = false)
    (hactive : (s.deque d).self ≠ activeDequeIndex) : s.Does (.makeResumable victim d) := by
  by_cases hd : s.Free d
  · obtain ⟨hself, hw⟩ := (h.outside d hd).resolve_right hactive
    obtain ⟨s₁, hs₁⟩ : ∃ s₁, s₁ = s.setDeque d { s.deque d with resumable := true, worker := some victim } :=
      ⟨_, rfl⟩
    have hd₁ : s₁.deque d = { s.deque d with resumable := true, worker := some victim } := by
      rw [hs₁, setDeque_self]
    have hholds₁ : s₁.Holds = s.Holds := by
      rw [hs₁, setDeque_holds]
    have hslots₁ : s₁.Slots := by
      rw [hs₁]
      exact h.slots.setDeque hd _
    have hfree₁ : s₁.Free d := by
      rw [hs₁, setDeque_free]
      exact hd
    -- `d` itself is idle with a worker until it is in the pool
    have hout : ∀ e, e ≠ d → s₁.Free e → Outside (s₁.deque e) := by
      intro e hed he
      rw [hs₁, setDeque_free] at he
      rw [hs₁, setDeque_ne hed]
      exact h.outside e he
    obtain ⟨s', hs', hok, hholds⟩ := hslots₁.add_ok hout hfree₁
      (show (victim, PoolKind.resumable) = (victim, (s₁.deque d).kind) by rw [hd₁]; rfl)
    refine ⟨s', ?_, hok, ?_⟩
    · simp only [Runtime.step, Runtime.makeResumable, Option.bind_eq_bind]
      rw [cilkAssert_pos hflag, Option.bind_some, hw]
      dsimp only
      rw [cilkAssert_pos hself, Option.bind_some, ← hs₁, hs']
    · intro q e
      rw [hholds, hholds₁]
      show _ ↔ (s.Holds q e ∧ e ≠ d) ∨ (q = (((s.deque d).worker).getD victim, .resumable) ∧ e = d)
      rw [hw, Option.getD_none]
      refine or_congr_left (iff_self_and.mpr ?_)
      rintro hq rfl
      exact hd q hq
  · obtain ⟨p, hp⟩ : ∃ p, s.Holds p d := by
      by_contra hno
      exact hd fun p hp => hno ⟨p, hp⟩
    obtain ⟨hw, hptr⟩ := h.slots.ptr hp
    have hkind : (s.deque d).kind = .suspended := by
      rw [Deque.kind, hflag]
      rfl
    rw [hkind] at hptr
    obtain ⟨s₁, hs₁, hok₁, hd₁, hholds₁⟩ := h.remove hp
    have hfree₁ : s₁.Free d := fun q hq =>
      (((h.slots.holds_ne_iff hp).mp ((hholds₁ q d).mp hq)).2 rfl)
    have hout : Outside { s₁.deque d with resumable := true } := by
      rw [hd₁]
      exact Or.inl ⟨rfl, rfl⟩
    have hok₂ := hok₁.setDeque hfree₁ hout
    obtain ⟨s', hs', hok, hholds⟩ := hok₂.slots.add_ok (fun e _ he => hok₂.outside e he) hfree₁
      (show (p.1, PoolKind.resumable) = (p.1, ((s₁.setDeque d { s₁.deque d with resumable := true }).deque d).kind) by
        rw [setDeque_self]
        rfl)
    refine ⟨s', ?_, hok, ?_⟩
    · simp only [Runtime.step, Runtime.makeResumable, Option.bind_eq_bind]
      rw [cilkAssert_pos hflag, Option.bind_some, hw]
      dsimp only
      rw [← hptr, hs₁, Option.bind_some, cilkAssert_pos (by rw [hd₁]), Option.bind_some, hs']
    · intro q e
      rw [hholds, setDeque_holds, hholds₁, h.slots.holds_ne_iff hp]
      show _ ↔ (s.Holds q e ∧ e ≠ d) ∨ (q = (((s.deque d).worker).getD victim, .resumable) ∧ e = d)
      rw [hw, Option.getD_some]

/-- **One event.** An allowed event fails no assertion. By cases on the event, each of them adding, removing, or
    both. -/
theorem Runtime.PoolsOk.step (h : s.PoolsOk) (ev : PoolEvent W D) (hev : s.Allowed ev) : s.Does ev := by
  cases ev with
  | add victim p d => exact h.slots.add_ok (fun e _ he => h.outside e he) hev.1 hev.2
  | remove p d =>
      obtain ⟨s', hs', hok, -, hholds⟩ := h.remove hev
      exact ⟨s', hs', hok, hholds⟩
  | mug d =>
      obtain ⟨p, hp⟩ := hev
      exact h.mug hp
  | makeResumable victim d => exact h.makeResumable hev.1 hev.2
  | create w d =>
      -- between `deque_init` and `deque_switch` the deque has `self = 0`
      obtain ⟨s₁, hs₁⟩ : ∃ s₁, s₁ = s.setDeque d ⟨0, none, false⟩ := ⟨_, rfl⟩
      have hd₁ : s₁.deque d = ⟨0, none, false⟩ := by
        rw [hs₁, setDeque_self]
      have hslots₁ : s₁.Slots := by
        rw [hs₁]
        exact h.slots.setDeque hev _
      have hout : ∀ e, e ≠ d → s₁.Free e → Outside (s₁.deque e) := by
        intro e hed he
        rw [hs₁, setDeque_free] at he
        rw [hs₁, setDeque_ne hed]
        exact h.outside e he
      have hx : Outside { s₁.deque d with self := activeDequeIndex, worker := some w } := Or.inr rfl
      have hfree₁ : s₁.Free d := by
        rw [hs₁, setDeque_free]
        exact hev
      refine ⟨_, ?_, hslots₁.setDeque_ok hout hfree₁ hx, ?_⟩
      · simp only [Runtime.step, Runtime.dequeSwitch, Option.bind_eq_bind]
        rw [← hs₁, cilkAssert_pos (by rw [hd₁]), Option.bind_some]
      · intro p e
        rw [setDeque_holds, hs₁, setDeque_holds]
        exact Iff.rfl
  | switch w d =>
      have hx : Outside { s.deque d with self := activeDequeIndex, worker := some w } := Or.inr rfl
      refine ⟨_, ?_, h.setDeque hev.1 hx, fun _ _ => Iff.rfl⟩
      simp only [Runtime.step, Runtime.dequeSwitch, Option.bind_eq_bind]
      rw [cilkAssert_pos hev.2, Option.bind_some]
  | park d => exact ⟨_, rfl, h.setDeque hev (Or.inl ⟨rfl, rfl⟩), fun _ _ => Iff.rfl⟩
  | mark d resumable => exact ⟨_, rfl, h.setDeque hev (h.outside d hev), fun _ _ => Iff.rfl⟩

/-! ## Every run

By induction over the events, from pools that are empty. -/

omit [DecidableEq W] [DecidableEq D] in
/-- At the start the pools are empty, and every deque is active, or idle without a worker. -/
theorem Runtime.Start.ok (h : s.Start) : s.PoolsOk := by
  have hpool : ∀ p, s.pool p = ⟨List.replicate ltqsize none, 0, ltqsize⟩ := by
    intro p
    exact (Option.some.inj (h.pool p)).symm
  have hempty : ∀ p i d, ¬s.Sits p i d := by
    intro p i d hd
    have hlt := hd.1
    rw [hpool] at hlt
    exact absurd hlt (Nat.not_lt_zero i)
  refine ⟨⟨?_, ?_, ?_, ?_, ?_, ?_, ?_⟩, fun d _ => h.deque d⟩
  · intro p
    rw [hpool]
    exact List.length_replicate
  · intro p
    rw [hpool]
    exact Nat.succ_pos 1023
  · intro p
    rw [hpool]
    exact Nat.zero_le _
  · intro p i hi
    rw [hpool] at hi
    exact absurd hi (Nat.not_lt_zero i)
  · exact fun p i d hd => absurd hd (hempty p i d)
  · exact fun p i d hd => absurd hd (hempty p i d)
  · exact fun p i d hd => absurd hd (hempty p i d)

/-- **The pools keep their deques**: in every state of every run no deque is lost and none is there twice, and an
allowed operation fails no assertion and changes what the pools hold by its own deque only. -/
theorem pools_kept (hs : s.Start) (hr : Reaches Runtime.step Runtime.Allowed s s') :
    s'.Kept ∧ ∀ ev, s'.Allowed ev → ∃ s'', s'.step ev = some s'' ∧ ∀ p d, s''.Holds p d ↔ s'.HoldsAfter p d ev := by
  have hok : s'.PoolsOk := by
    refine hr.invariant Runtime.PoolsOk hs.ok ?_
    intro s₁ ev s₂ h₁ hev hstep
    obtain ⟨s₂', hs₂', hok₂, -⟩ := h₁.step ev hev
    obtain rfl : s₂' = s₂ := Option.some.inj (hs₂'.symm.trans hstep)
    exact hok₂
  refine ⟨hok.kept, ?_⟩
  intro ev hev
  obtain ⟨s'', hs'', -, hholds⟩ := hok.step ev hev
  exact ⟨s'', hs'', hholds⟩

/-- One worker and three idle deques. -/
def threeIdle : Runtime Unit (Fin 3) where
  pool := fun _ => ⟨List.replicate ltqsize none, 0, ltqsize⟩
  deque := fun _ => ⟨invalidDequeIndex, none, false⟩

/-- Three deques are added. -/
def addAll : List (PoolEvent Unit (Fin 3)) :=
  [.add () ((), .suspended) 0, .add () ((), .suspended) 1, .add () ((), .suspended) 2]

/-- And the first one is taken out. -/
def addAllButFirst : List (PoolEvent Unit (Fin 3)) := addAll ++ [.remove ((), .suspended) 0]

/-- All three are added, the first is taken out, so that the last one gets its place, and then becomes resumable. -/
theorem pools_kept_threeIdle : ∃ s', Reaches Runtime.step Runtime.Allowed threeIdle s' ∧
    s'.Holds ((), .suspended) 1 ∧ s'.Holds ((), .resumable) 2 ∧ s'.Free 0 ∧ s'.Kept := by
  have hs : threeIdle.Start := by
    refine ⟨fun p => ?_, fun d => Or.inl ⟨rfl, rfl⟩⟩
    unfold dequePoolInit DequePool.resize
    rw [if_pos (show _ < ltqsize from Nat.succ_pos 1023)]
    rfl
  have hnext : ∀ {s} (_ : Reaches Runtime.step Runtime.Allowed threeIdle s) ev, s.Allowed ev →
      ∃ s'', s.step ev = some s'' ∧ Reaches Runtime.step Runtime.Allowed threeIdle s'' ∧
        ∀ p d, s''.Holds p d ↔ s.HoldsAfter p d ev := by
    intro s hr ev hev
    obtain ⟨s'', hs'', hholds⟩ := (pools_kept hs hr).2 ev hev
    exact ⟨s'', hs'', hr.trans (Reaches.of_step hev hs''), hholds⟩
  have hnone : ∀ p d, ¬threeIdle.Holds p d := by
    rintro p d ⟨i, hi⟩
    exact absurd hi.1 (Nat.not_lt_zero i)
  obtain ⟨s₁, hstep₁, hr₁, hholds₁⟩ := hnext Reaches.refl (.add () ((), .suspended) 0) ⟨fun p => hnone p 0, rfl⟩
  have hfree₁ : s₁.Free 1 := by
    intro p hp
    rcases (hholds₁ p 1).mp hp with hold | ⟨-, heq⟩
    · exact hnone p 1 hold
    · exact absurd heq (by decide)
  have hkind₁ : (threeIdle.step (.add () ((), .suspended) 0)).map (fun s => (s.deque 1).kind) = some .suspended := by
    decide +kernel
  rw [hstep₁] at hkind₁
  have hkind₁ : (s₁.deque 1).kind = .suspended := Option.some.inj hkind₁
  obtain ⟨s₂, hstep₂, hr₂, hholds₂⟩ := hnext hr₁ (.add () ((), .suspended) 1) ⟨hfree₁, by rw [hkind₁]⟩
  have hfree₂ : s₂.Free 2 := by
    intro p hp
    rcases (hholds₂ p 2).mp hp with hold | ⟨-, heq⟩
    · rcases (hholds₁ p 2).mp hold with hold | ⟨-, heq⟩
      · exact hnone p 2 hold
      · exact absurd heq (by decide)
    · exact absurd heq (by decide)
  have hkind₂ : ((addAll.take 2).foldlM Runtime.step threeIdle).map (fun s => (s.deque 2).kind) = some .suspended := by
    decide +kernel
  have hrun₂ : (addAll.take 2).foldlM Runtime.step threeIdle = some s₂ := by
    simp [addAll, hstep₁, hstep₂]
  rw [hrun₂] at hkind₂
  have hkind₂ : (s₂.deque 2).kind = .suspended := Option.some.inj hkind₂
  obtain ⟨s₃, hstep₃, hr₃, hholds₃⟩ := hnext hr₂ (.add () ((), .suspended) 2) ⟨hfree₂, by rw [hkind₂]⟩
  have hhere₃ : ∀ d, s₃.Holds ((), .suspended) d := by
    intro d
    rw [hholds₃]
    show s₂.Holds _ d ∨ _
    rw [hholds₂]
    show (s₁.Holds _ d ∨ _) ∨ _
    rw [hholds₁]
    show ((_ ∨ _) ∨ _) ∨ _
    have hcases : ∀ d : Fin 3, d = 0 ∨ d = 1 ∨ d = 2 := by decide
    rcases hcases d with rfl | rfl | rfl
    · exact Or.inl (Or.inl (Or.inr ⟨rfl, rfl⟩))
    · exact Or.inl (Or.inr ⟨rfl, rfl⟩)
    · exact Or.inr ⟨rfl, rfl⟩
  obtain ⟨s₄, hstep₄, hr₄, hholds₄⟩ := hnext hr₃ (.remove ((), .suspended) 0) (hhere₃ 0)
  have hflag₄ : (addAllButFirst.foldlM Runtime.step threeIdle).map
      (fun s => ((s.deque 2).resumable, (s.deque 2).self)) = some (false, 0) := by
    decide +kernel
  have hrun₄ : addAllButFirst.foldlM Runtime.step threeIdle = some s₄ := by
    simp [addAllButFirst, addAll, hstep₁, hstep₂, hstep₃, hstep₄]
  rw [hrun₄] at hflag₄
  obtain ⟨hflag, hself⟩ := Prod.mk.inj (Option.some.inj hflag₄)
  have hactive : (s₄.deque 2).self ≠ activeDequeIndex := by
    rw [hself]
    decide
  obtain ⟨s₅, hstep₅, hr₅, hholds₅⟩ := hnext hr₄ (.makeResumable () 2) ⟨hflag, hactive⟩
  refine ⟨s₅, hr₅, (hholds₅ _ _).mpr (Or.inl ⟨?_, by decide⟩), (hholds₅ _ _).mpr (Or.inr ⟨rfl, rfl⟩), ?_, (pools_kept hs hr₅).1⟩
  · exact (hholds₄ _ _).mpr ⟨hhere₃ 1, fun hsame => absurd hsame.2 (by decide)⟩
  · intro p hp
    rcases (hholds₅ p 0).mp hp with ⟨hold, -⟩ | ⟨-, heq⟩
    · -- it was in one pool only
      have hthere := ((hholds₄ p 0).mp hold).1
      have hpool : p = ((), .suspended) := (pools_kept hs hr₃).1.once p _ 0 hthere (hhere₃ 0)
      exact ((hholds₄ p 0).mp hold).2 ⟨hpool, rfl⟩
    · exact absurd heq (by decide)

end

end FOrder.Suspend
