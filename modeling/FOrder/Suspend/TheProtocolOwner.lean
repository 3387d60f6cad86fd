import FOrder.Suspend.TheProtocolKept

/-!
# `Suspend.TheProtocolOwner` — the worker's steps of the THE protocol are steps of the deque

A push takes effect when `tail` is stored. A pop takes effect when `exc` is read, or else under the lock.

Each lemma `matched_…` is one step of the worker: the deque can show what the step shows, in one step of its own or
in none, and `Rel` holds again. What has to be proved differs with where the worker is.

- Outside the lock (`Outside`) the worker stores to its own cells and to `tail`, and thieves may be in the middle of
  a steal. `Rel.apart` of `TheProtocolKept` leaves the thieves' side alone; what remains is that the frames lie
  where `Stored` says, after every prefix of the waiting stores.
- Between `__cilkrts_undo_detach`'s store to `tail` and its load of `exc` the fence has drained the worker's stores.
  So a thief that raises `exc` later will see the lowered `tail`, and one that has raised it earlier is seen:
  `matched_undone` is where the two orders of store and load meet.
- Inside the lock (`OwnerInsideRel`) no thief is between its two stores, so `head` and `exc` are level, and the
  worker may write them.

Waiting stores reach memory in steps of their own. They do not change the deque: `rel_flush_owner`.
-/

namespace FOrder.The

open StoreBuffer (Always commit)
open Machine (Trace)

variable {s s' : State} {d d' : Deque} {hd n : Nat} {o : Option Label}

/-- The deque can show what the step shows, and still stands for the state. -/
def Matched (d : Deque) (s' : State) (o : Option Label) : Prop :=
  ∃ d' hd', Trace Deque.step d o.toList d' ∧ Rel s' d' hd'

/-- Nothing is shown, and the deque stays. -/
theorem Matched.silent (hd : Nat) (h : Rel s' d hd) : Matched d s' none := ⟨d, hd, Trace.refl, h⟩

/-- One step of the deque. -/
theorem Matched.single (a : Deque.Action) (d' : Deque) (hd : Nat) (ha : Deque.step d a = some (d', o))
    (h : Rel s' d' hd) : Matched d s' o :=
  ⟨d', hd, Trace.single ha, h⟩

/-- One step of the deque before a match. -/
theorem Matched.before (a : Deque.Action) (d' : Deque) (ha : Deque.step d a = some (d', none)) (h : Matched d' s' o) :
    Matched d s' o := by
  obtain ⟨d'', hd', htr, hrel⟩ := h
  exact ⟨d'', hd', (Trace.single ha).trans htr, hrel⟩

/-! ## Outside the lock

`detach`, `undo_detach`, and the stores to `protected_tail`. The instant at which the abstract push happens is the
store to `tail`, although nobody else can see it yet: a thief that does not see it takes the deque for shorter than it
is, and gives up, which an atomic deque may show as well. -/

/-- The worker loads from its own stores first. -/
theorem load_eq (s : State) (l : Loc) : s.load l = s.mem.view none l := rfl

/-- What a store of the worker leaves of being outside. -/
theorem Outside.store {m : Mem} {lock : Option Thread} {l : Loc} {v : Nat} (h : Outside m lock) (hh : l ≠ .head)
    (he : l ≠ .exc) : Outside (m.store none l v) lock := by
  refine ⟨h.1, ?_⟩
  intro w hw
  rw [StoreBuffer.buf_store_self, List.mem_append, List.mem_singleton] at hw
  rcases hw with hw | rfl
  · exact h.2 w hw
  · exact ⟨hh, he⟩

/-- `__cilkrts_detach` stores the frame into its cell; the deque has not got it yet. -/
theorem matched_detach {sf : Nat} (h : Rel s d hd) (hstep : step n s (.detach sf) = some (s', o)) :
    Matched d s' o := by
  simp only [step] at hstep
  split at hstep
  · rename_i hc
    obtain ⟨hpc, hne, -⟩ := hc
    cases hstep
    have howner := h.owner
    rw [hpc] at howner
    obtain ⟨hout, htail, hundo, hpop⟩ := howner
    rw [load_eq, htail]
    apply Matched.silent hd
    have hslot : ∀ k, k < d.items.length → (s.mem.store none (.slot (hd + d.items.length)) sf).view none (.slot (hd + k)) =
        s.mem.view none (.slot (hd + k)) := by
      intro k hk
      rw [StoreBuffer.view_store_self, Function.update_of_ne]
      simp
      omega
    refine h.apart (Apart.store ?_ (fun _ hsf => hsf)) rfl rfl rfl ?_ ?_ ?_ ?_
    · intro k hk
      simp
      omega
    · apply h.stored.store
      · intro j hj
        simp at hj
        omega
      · apply h.kept_view
        · simp [htail]
        · exact hslot
    · intro k sf' hk
      rw [State.put, hslot k (List.getElem?_eq_some_iff.mp hk).1]
      exact h.slots k sf' hk
    · exact h.frames
    · exact ⟨hout.store (by simp) (by simp), by simp [State.put, htail], by simp [State.put], hne, hundo, hpop⟩
  · cases hstep

/-- The frames after a push. -/
theorem Kept.push {items : List Nat} {sf : Nat} {μ : Loc → Nat} (h : Kept items hd μ) : Kept (items ++ [sf]) hd μ := by
  refine ⟨?_, ?_⟩
  · have := h.1
    rw [List.length_append]
    omega
  · intro k sf' hk hlt
    apply h.2 k sf' _ hlt
    have := h.1
    rwa [List.getElem?_append_left (by omega)] at hk

/-- A frame of the deque after a push. -/
theorem getElem?_concat_cases {items : List Nat} {sf sf' : Nat} {k : Nat} (h : (items ++ [sf])[k]? = some sf') :
    items[k]? = some sf' ∨ (k = items.length ∧ sf' = sf) := by
  rcases Nat.lt_or_ge k items.length with hk | hk
  · rw [List.getElem?_append_left hk] at h
    exact Or.inl h
  · rw [List.getElem?_append_right hk] at h
    have hzero : k - items.length = 0 := by
      by_contra hne
      rw [List.getElem?_eq_none (by simp; omega)] at h
      cases h
    rw [hzero] at h
    refine Or.inr ⟨by omega, ?_⟩
    simpa using h.symm

/-- The store to `tail`: here the push takes effect. It comes after the store to the cell in the buffer, too. -/
theorem matched_detaching {sf : Nat} (h : Rel s d hd) (hpc : s.owner = .detaching sf)
    (hstep : stepOwner s = some (s', o)) : Matched d s' o := by
  simp only [stepOwner, hpc] at hstep
  cases hstep
  have howner := h.owner
  rw [hpc] at howner
  obtain ⟨hout, htail, hslot, hne, hundo, hpop⟩ := howner
  have hview : ∀ k, (s.mem.store none .tail (hd + d.items.length + 1)).view none (.slot k) = s.mem.view none (.slot k) := by
    intro k
    simp
  have hslots : ∀ k sf', (d.items ++ [sf])[k]? = some sf' → s.mem.view none (.slot (hd + k)) = sf' := by
    intro k sf' hk
    rcases getElem?_concat_cases hk with hk | ⟨rfl, rfl⟩
    · exact h.slots k sf' hk
    · exact hslot
  rw [load_eq, htail]
  apply Matched.single (.push sf) { d with items := d.items ++ [sf] } hd
  · simp [Deque.step, hundo, hpop, hne]
  · refine h.apart (Apart.store (by simp) ?_) rfl rfl rfl ?_ ?_ ?_ ?_
    · intro sf' hsf
      show (d.items ++ [sf])[0]? = some sf'
      rw [List.getElem?_append_left (List.getElem?_eq_some_iff.mp hsf).1]
      exact hsf
    · apply Stored.store ⟨h.stored.kept.mono fun _ => Kept.push, h.stored.above⟩ (by simp)
      constructor
      · simp only [StoreBuffer.view_store_self, Function.update_self, List.length_append, List.length_singleton]
        omega
      · intro k sf' hk _
        rw [hview]
        exact hslots k sf' hk
    · intro k sf' hk
      rw [State.put, hview]
      exact hslots k sf' hk
    · intro sf' hsf
      rcases List.mem_append.mp hsf with hsf | hsf
      · exact h.frames sf' hsf
      · rw [List.mem_singleton.mp hsf]
        exact hne
    · refine ⟨hout.store (by simp) (by simp), ?_, hundo, hpop⟩
      simp only [State.put, StoreBuffer.view_store_self, Function.update_self, List.length_append, List.length_singleton]
      omega

/-- `__cilkrts_undo_detach` lowers `tail`, and a pop is called. -/
theorem matched_undo (h : Rel s d hd) (hstep : step n s .undo = some (s', o)) : Matched d s' o := by
  simp only [step] at hstep
  split at hstep
  · rename_i hc
    obtain ⟨hpc, hpos⟩ := hc
    cases hstep
    have howner := h.owner
    rw [hpc] at howner
    obtain ⟨hout, htail, hundo, hpop⟩ := howner
    rw [load_eq, htail] at hpos
    rw [load_eq, htail]
    apply Matched.single .undo { d with undo := .called } hd
    · simp [Deque.step, hundo, hpop]
    · refine h.apart (Apart.store (by simp) (fun _ hsf => hsf)) rfl rfl rfl ?_ ?_ ?_ ?_
      · apply h.stored.store (by simp)
        apply h.kept_view
        · simp
        · intro k _
          simp
      · intro k sf hk
        rw [← h.slots k sf hk]
        simp [State.put]
      · exact h.frames
      · refine ⟨hout.store (by simp) (by simp), ?_, rfl, hpop⟩
        simp only [State.put, StoreBuffer.view_store_self, Function.update_self]
        omega
  · cases hstep

/-- `protected_tail` is looked at by thieves only to give up. -/
theorem matched_protect {v : Nat} (h : Rel s d hd) (hstep : step n s (.protect v) = some (s', o)) :
    Matched d s' o := by
  simp only [step] at hstep
  split at hstep
  · rename_i hpc
    cases hstep
    have howner := h.owner
    rw [hpc] at howner
    obtain ⟨hout, htail, hundo, hpop⟩ := howner
    apply Matched.silent hd
    refine h.apart (Apart.store (by simp) (fun _ hsf => hsf)) rfl rfl rfl ?_ ?_ ?_ ?_
    · apply h.stored.store (by simp)
      apply h.kept_view
      · simp [htail]
      · intro k _
        simp
    · intro k sf hk
      rw [← h.slots k sf hk]
      simp [State.put]
    · exact h.frames
    · exact ⟨hout.store (by simp) (by simp), by simp [State.put, htail], hundo, hpop⟩
  · cases hstep

/-- A step of the worker that neither stores nor takes its lock. -/
theorem Rel.goes (h : Rel s d hd) {pc : OwnerPc} (hitems : d'.items = d.items) (hsteal : d'.steal = d.steal)
    (howner : OwnerRel hd d' s.mem s.lock pc) : Rel { s with owner := pc } d' hd := by
  refine h.apart (Apart.refl hitems) hsteal rfl rfl ?_ ?_ ?_ ?_
  · rw [hitems]
    exact h.stored
  · rw [hitems]
    exact h.slots
  · rw [hitems]
    exact h.frames
  · exact howner

/-- A fence of the worker. -/
theorem fenceOwner_cases {pc : OwnerPc} (h : (s.fenceOwner pc).map silent = some (s', o)) :
    Drained s.mem none ∧ s' = { s with owner := pc } ∧ o = none := by
  unfold State.fenceOwner at h
  split at h
  · rename_i hb
    cases h
    exact ⟨hb, rfl, rfl⟩
  · cases h

/-- Its fence. -/
theorem matched_protecting (h : Rel s d hd) (hpc : s.owner = .protecting) (hstep : stepOwner s = some (s', o)) :
    Matched d s' o := by
  simp only [stepOwner, hpc] at hstep
  obtain ⟨-, rfl, rfl⟩ := fenceOwner_cases hstep
  have howner := h.owner
  rw [hpc] at howner
  exact Matched.silent hd (h.goes rfl rfl howner)

/-- The fence of `__cilkrts_undo_detach`. -/
theorem matched_undoing (h : Rel s d hd) (hpc : s.owner = .undoing) (hstep : stepOwner s = some (s', o)) :
    Matched d s' o := by
  simp only [stepOwner, hpc] at hstep
  obtain ⟨hb, rfl, rfl⟩ := fenceOwner_cases hstep
  have howner := h.owner
  rw [hpc] at howner
  obtain ⟨hout, htail, hundo, hpop⟩ := howner
  rw [StoreBuffer.view_of_drained hb] at htail
  exact Matched.silent hd (h.goes rfl rfl ⟨hout, hb, htail, hundo, hpop⟩)

/-- The older frames are where they were. -/
theorem getElem?_of_older {items older : List Nat} (h : older <+: items) {k sf : Nat} (hk : older[k]? = some sf) :
    items[k]? = some sf := by
  obtain ⟨newer, rfl⟩ := h
  rw [List.getElem?_append_left (List.getElem?_eq_some_iff.mp hk).1]
  exact hk

/-- The newest frames are taken, and `tail` is already there. -/
theorem Stored.older {items older : List Nat} {m : Mem} (h : Stored items hd m.mem (m.buf none))
    (hb : Drained m none) (hpre : older <+: items) (htail : m.mem .tail ≤ hd + older.length) :
    Stored older hd m.mem (m.buf none) := by
  have hkept := h.kept.now
  rw [hb]
  exact ⟨⟨htail, fun k sf hk hlt => hkept.2 k sf (getElem?_of_older hpre hk) hlt⟩, trivial⟩

/-- **A pop without the lock.** No `exc` above `tail`: the newest frame is there, and no thief is about to take it. -/
theorem matched_undone (h : Rel s d hd) (hpc : s.owner = .undone) (hstep : stepOwner s = some (s', o)) :
    Matched d s' o := by
  simp only [stepOwner, hpc] at hstep
  have howner := h.owner
  rw [hpc] at howner
  obtain ⟨hout, hb, htail, hundo, hpop⟩ := howner
  have hload : ∀ l, s.load l = s.mem.mem l := fun l => congrFun (StoreBuffer.view_of_drained hb) l
  split at hstep
  · cases hstep
    exact Matched.silent hd (h.goes rfl rfl ⟨hout, hb, htail, hundo, hpop⟩)
  · rename_i hexc
    cases hstep
    rw [hload, hload] at hexc
    obtain ⟨items, sf, hitems⟩ := exists_newest (h.nonempty hout.1 htail hexc)
    have hlen : s.mem.mem .tail = hd + items.length := by
      rw [hitems, List.length_append, List.length_singleton] at htail
      omega
    have hsf : s.load (.slot (s.load .tail)) = sf := by
      rw [hload .tail, hlen]
      exact h.slots _ _ (by simp [hitems])
    rw [hsf]
    refine Matched.before .undoTakes { d with items := items, undo := .done (some sf) } ?_
      (Matched.single .undoReturns { d with items := items, undo := .idle } hd ?_ ?_)
    · simp [Deque.step, hundo, hitems]
    · simp [Deque.step]
    · have hpre : items <+: d.items := ⟨[sf], hitems.symm⟩
      have hapart : Apart hd d s.mem { d with items := items, undo := .idle } s.mem := by
        refine ⟨rfl, rfl, fun _ => rfl, ?_, fun _ _ _ hs => hs⟩
        -- the oldest frame stays: a thief that has raised `exc` above it would have been seen
        intro sf' hfirst hup
        have hlt : 0 < items.length := by
          simp only [hlen, hup] at hexc
          omega
        rw [hitems, List.getElem?_append_left hlt] at hfirst
        exact hfirst
      refine h.apart hapart rfl rfl rfl ?_ ?_ ?_ ?_
      · exact h.stored.older hb hpre (Nat.le_of_eq hlen)
      · exact fun k sf' hk => h.slots k sf' (getElem?_of_older hpre hk)
      · exact fun sf' hmem => h.frames sf' (hpre.subset hmem)
      · refine ⟨hout, ?_, rfl, hpop⟩
        rw [StoreBuffer.view_of_drained hb]
        exact hlen

/-- `__cilkrts_pop_tail` waits for the lock. -/
theorem matched_pop (h : Rel s d hd) (hstep : step n s .pop = some (s', o)) : Matched d s' o := by
  simp only [step] at hstep
  split at hstep
  · rename_i hpc
    cases hstep
    have howner := h.owner
    rw [hpc] at howner
    obtain ⟨hout, htail, hundo, hpop⟩ := howner
    apply Matched.single .pop { d with pop := .called } hd
    · simp [Deque.step, hundo, hpop]
    · exact h.goes rfl rfl ⟨hout, htail, hundo, rfl⟩
  · cases hstep

/-- `setup_for_execution` waits for the lock; the deque is empty then. -/
theorem matched_setup (h : Rel s d hd) (hstep : step n s .setup = some (s', o)) : Matched d s' o := by
  simp only [step] at hstep
  split at hstep
  · rename_i hpc
    cases hstep
    have howner := h.owner
    rw [hpc] at howner
    exact Matched.silent hd (h.goes rfl rfl howner)
  · cases hstep

/-! ## Inside the lock

The exception check, `pop_tail` and `setup_for_execution`. Taking the lock drains the worker's buffer, and no thief is
inside, so what the worker loads is what is in memory; the comparison of `head` and `tail` that is not safe without
the lock is safe here. -/

/-- A step of the worker while it holds its lock. -/
theorem Rel.owned {hd' : Nat} (h : Rel s d hd) (hlock : s.lock = some none)
    (hlock' : s'.lock = some none ∨ s'.lock = none ∧ Level hd' s'.mem) (hthief : s'.thief = s.thief)
    (hbuf : ∀ i, s'.mem.buf (some i) = s.mem.buf (some i)) (hsteal : d'.steal = d.steal)
    (hstored : Stored d'.items hd' s'.mem.mem (s'.mem.buf none))
    (hslots : ∀ k sf, d'.items[k]? = some sf → s'.mem.view none (.slot (hd' + k)) = sf)
    (hframes : ∀ sf ∈ d'.items, sf ≠ 0) (howner : OwnerRel hd' d' s'.mem s'.lock s'.owner) : Rel s' d' hd' where
  stored := hstored
  slots := hslots
  frames := hframes
  free hl := by
    rcases hlock' with hl' | hl'
    · rw [hl'] at hl
      cases hl
    · exact hl'.2
  exc hl := by
    rcases hlock' with hl' | hl'
    · exact absurd hl' hl
    · exact Nat.le_of_eq hl'.2.2.symm
  owner := howner
  thief i := by
    rw [hthief]
    apply (h.thief i).outside
    · simp [hlock]
    · rcases hlock' with hl' | hl'
      · simp [hl']
      · simp [hl'.1]
    · exact hbuf i
    · rw [hsteal]

/-- The worker goes on inside its lock, and stores nothing. -/
theorem Rel.owned_goes (h : Rel s d hd) (hlock : s.lock = some none) {p : OwnerInside} (hitems : d'.items = d.items)
    (hsteal : d'.steal = d.steal) (hp : OwnerInsideRel hd d' s.mem p) :
    Rel { s with owner := .inside p } d' hd := by
  refine h.owned hlock (Or.inl hlock) rfl (fun _ => rfl) hsteal ?_ ?_ ?_ ⟨hlock, hp⟩
  · rw [hitems]
    exact h.stored
  · rw [hitems]
    exact h.slots
  · rw [hitems]
    exact h.frames

/-- The worker stores to `tail`, `head` or `exc`. -/
theorem Rel.owned_put (h : Rel s d hd) (hlock : s.lock = some none) {l : Loc} {v : Nat} {p : OwnerInside}
    (hslot : ∀ k, l ≠ .slot k) (hitems : d'.items = d.items) (hsteal : d'.steal = d.steal)
    (htail : (s.mem.store none l v).view none .tail ≤ hd + d.items.length)
    (hp : OwnerInsideRel hd d' (s.mem.store none l v) p) : Rel (s.put l v (.inside p)) d' hd := by
  have hview : ∀ k, (s.mem.store none l v).view none (.slot k) = s.mem.view none (.slot k) := by
    intro k
    rw [StoreBuffer.view_store_self, Function.update_of_ne (hslot k).symm]
  refine h.owned hlock (Or.inl hlock) rfl (fun i => StoreBuffer.buf_store_ne (by simp)) hsteal ?_ ?_ ?_ ⟨hlock, hp⟩
  · rw [hitems]
    exact h.stored.store (fun j hj => absurd hj (hslot j)) (h.kept_view htail (fun k _ => hview (hd + k)))
  · rw [hitems]
    intro k sf hk
    rw [State.put, hview]
    exact h.slots k sf hk
  · rw [hitems]
    exact h.frames

/-- `__cilkrts_mutex_lock`. -/
theorem lockOwner_cases {p : OwnerInside} (h : (s.lockOwner p).map silent = some (s', o)) :
    Drained s.mem none ∧ s.lock = none ∧ s' = { s with lock := some none, owner := .inside p } ∧ o = none := by
  unfold State.lockOwner at h
  split at h
  · rename_i hc
    cases h
    exact ⟨hc.1, hc.2, rfl, rfl⟩
  · cases h

/-- The worker takes its lock. -/
theorem Rel.acquire (h : Rel s d hd) (hlock : s.lock = none) {p : OwnerInside} (hp : OwnerInsideRel hd d s.mem p) :
    Rel { s with lock := some none, owner := .inside p } d hd where
  stored := h.stored
  slots := h.slots
  frames := h.frames
  free hl := by cases hl
  exc hl := absurd rfl hl
  owner := ⟨rfl, hp⟩
  thief i := by
    apply (h.thief i).outside
    · simp [hlock]
    · simp
    · rfl
    · rfl

/-- The lock of `__cilkrts_c_THE_exception_check`. -/
theorem matched_checkWait (h : Rel s d hd) (hpc : s.owner = .checkWait) (hstep : stepOwner s = some (s', o)) :
    Matched d s' o := by
  simp only [stepOwner, hpc] at hstep
  obtain ⟨hb, hlock, rfl, rfl⟩ := lockOwner_cases hstep
  have howner := h.owner
  rw [hpc] at howner
  obtain ⟨-, -, htail, hundo, hpop⟩ := howner
  exact Matched.silent hd (h.acquire hlock ⟨hb, h.free hlock, htail, hundo, hpop⟩)

/-- The lock of `__cilkrts_pop_tail`. -/
theorem matched_popWait (h : Rel s d hd) (hpc : s.owner = .popWait) (hstep : stepOwner s = some (s', o)) :
    Matched d s' o := by
  simp only [stepOwner, hpc] at hstep
  obtain ⟨hb, hlock, rfl, rfl⟩ := lockOwner_cases hstep
  have howner := h.owner
  rw [hpc] at howner
  obtain ⟨-, htail, hundo, hpop⟩ := howner
  rw [StoreBuffer.view_of_drained hb] at htail
  exact Matched.silent hd (h.acquire hlock ⟨hb, h.free hlock, htail, hundo, hpop⟩)

/-- The lock of `setup_for_execution`. -/
theorem matched_setupWait (h : Rel s d hd) (hpc : s.owner = .setupWait) (hstep : stepOwner s = some (s', o)) :
    Matched d s' o := by
  simp only [stepOwner, hpc] at hstep
  obtain ⟨hb, hlock, rfl, rfl⟩ := lockOwner_cases hstep
  have howner := h.owner
  rw [hpc] at howner
  obtain ⟨-, -, hitems, hundo, hpop⟩ := howner
  exact Matched.silent hd (h.acquire hlock ⟨hb, hitems, hundo, hpop⟩)

/-- The worker's `tail` under its own lock. -/
theorem Rel.view_tail_le (h : Rel s d hd) : s.mem.view none .tail ≤ hd + d.items.length := h.stored.kept.commit.1

/-- No store waits, so none is another one. -/
theorem only_of_drained {l : Loc} {v : Nat} {m : Mem} {t : Thread} (h : Drained m t) : Only l v (m.buf t) := by
  intro w hw
  rw [h] at hw
  cases hw

/-- The one store of a thread that had none waiting. -/
theorem only_store {l : Loc} {v : Nat} {m : Mem} {t : Thread} (h : Drained m t) :
    Only l v ((m.store t l v).buf t) := by
  intro w hw
  rw [StoreBuffer.buf_store_self, h] at hw
  simpa using hw

/-- Nor one of another value. -/
theorem zeros_of_drained {m : Mem} (h : Drained m none) : Zeros m := by
  intro w hw
  rw [h] at hw
  cases hw

/-- One more store of `0`. -/
theorem zeros_store {m : Mem} {l : Loc} (h : Zeros m) (hl : l = .tail ∨ l = .head ∨ l = .exc) :
    Zeros (m.store none l 0) := by
  intro w hw
  rw [StoreBuffer.buf_store_self, List.mem_append, List.mem_singleton] at hw
  rcases hw with hw | rfl
  · exact h w hw
  · exact ⟨rfl, hl⟩

/-- **Inside the lock**, one case for each place of `OwnerInside`. The exception check compares `head` with `tail`
    once more, and a pop that is called takes effect there, with the frame or without one; `__cilkrts_pop_tail` has
    taken its frame when it gives the lock back, since its `tail` is in memory then. -/
theorem matched_inside {p : OwnerInside} (h : Rel s d hd) (hlock : s.lock = some none)
    (hp : OwnerInsideRel hd d s.mem p) (hstep : stepOwnerInside s p = some (s', o)) : Matched d s' o := by
  have hload : Drained s.mem none → ∀ l, s.load l = s.mem.mem l :=
    fun hb l => congrFun (StoreBuffer.view_of_drained hb) l
  cases p with
  | checkEnter =>
      obtain ⟨hb, hlevel, htail, hundo, hpop⟩ := hp
      simp only [stepOwnerInside, hload hb, hlevel.1] at hstep
      cases hstep
      apply Matched.silent hd
      apply h.owned_put hlock (by simp) rfl rfl
      · rw [StoreBuffer.view_store_self, Function.update_of_ne (by simp)]
        exact h.view_tail_le
      · exact ⟨only_store hb, hlevel, htail, hundo, hpop⟩
  | checkReset =>
      obtain ⟨-, hlevel, htail, hundo, hpop⟩ := hp
      simp only [stepOwnerInside] at hstep
      obtain ⟨hb, rfl, rfl⟩ := fenceOwner_cases hstep
      exact Matched.silent hd (h.owned_goes hlock rfl rfl ⟨hb, hlevel, htail, hundo, hpop⟩)
  | checkFenced =>
      obtain ⟨hb, hlevel, htail, hundo, hpop⟩ := hp
      simp only [stepOwnerInside, hload hb, hlevel.1] at hstep
      split at hstep
      · rename_i hlt
        cases hstep
        -- there is a frame: the newest one is popped
        have hne : d.items ≠ [] := by
          rintro hnil
          rw [hnil, List.length_nil] at htail
          omega
        obtain ⟨items, sf, hitems⟩ := exists_newest hne
        have hlen : s.mem.mem .tail = hd + items.length := by
          rw [hitems, List.length_append, List.length_singleton] at htail
          omega
        have hpre : items <+: d.items := ⟨[sf], hitems.symm⟩
        have hsf : s.mem.mem (.slot (s.mem.mem .tail)) = sf := by
          rw [hlen, ← hload hb]
          exact h.slots _ _ (by simp [hitems])
        refine Matched.before .undoTakes { d with items := items, undo := .done (some sf) } ?_ (Matched.silent hd ?_)
        · simp [Deque.step, hundo, hitems]
        · refine h.owned hlock (Or.inl hlock) rfl (fun _ => rfl) rfl ?_ ?_ ?_
            ⟨hlock, hb, hlevel, hlen, by rw [hsf], hpop⟩
          · exact h.stored.older hb hpre (Nat.le_of_eq hlen)
          · exact fun k sf' hk => h.slots k sf' (getElem?_of_older hpre hk)
          · exact fun sf' hmem => h.frames sf' (hpre.subset hmem)
      · rename_i hlt
        cases hstep
        -- the last frame is gone: `tail` is set back to `head`
        have hnil : d.items = [] := by
          apply List.eq_nil_of_length_eq_zero
          omega
        have hhd : s.mem.mem .tail + 1 = hd := by
          rw [hnil, List.length_nil] at htail
          omega
        refine Matched.before .undoTakes { d with undo := .done none } ?_ (Matched.silent hd ?_)
        · simp [Deque.step, hundo, hnil]
        · rw [hhd]
          refine h.owned_put hlock (by simp) rfl rfl ?_ ?_
          · simp
          · exact ⟨only_store hb, by simp, hlevel, hnil, rfl, hpop⟩
  | checkLeave won =>
      simp only [stepOwnerInside, State.unlockOwner] at hstep
      split at hstep
      · rename_i hb
        cases won with
        | true =>
            obtain ⟨-, hlevel, htail, hundo, hpop⟩ := hp
            simp only [hload hb] at hstep
            cases hstep
            apply Matched.single .undoReturns { d with undo := .idle } hd
            · simp [Deque.step, hundo]
            · refine h.owned hlock (Or.inr ⟨rfl, hlevel⟩) rfl (fun _ => rfl) rfl h.stored h.slots h.frames ?_
              refine ⟨⟨by simp, ?_⟩, ?_, rfl, hpop⟩
              · simp [hb]
              · rw [StoreBuffer.view_of_drained hb]
                exact htail
        | false =>
            obtain ⟨-, htail, hlevel, hnil, hundo, hpop⟩ := hp
            cases hstep
            apply Matched.single .undoReturns { d with undo := .idle } hd
            · simp [Deque.step, hundo]
            · refine h.owned hlock (Or.inr ⟨rfl, hlevel⟩) rfl (fun _ => rfl) rfl h.stored h.slots h.frames ?_
              exact ⟨⟨by simp, by simp [hb]⟩, hb, hnil, rfl, hpop⟩
      · cases hstep
  | popEnter =>
      obtain ⟨hb, hlevel, htail, hundo, hpop⟩ := hp
      simp only [stepOwnerInside, hload hb, hlevel.1] at hstep
      split at hstep
      · rename_i hlt
        cases hstep
        have hne : d.items ≠ [] := by
          rintro hnil
          rw [hnil, List.length_nil] at htail
          omega
        obtain ⟨items, sf, hitems⟩ := exists_newest hne
        have hlen : s.mem.mem .tail - 1 = hd + items.length := by
          rw [hitems, List.length_append, List.length_singleton] at htail
          omega
        have hsf : s.mem.mem (.slot (s.mem.mem .tail - 1)) = sf := by
          rw [hlen, ← hload hb]
          exact h.slots _ _ (by simp [hitems])
        rw [hsf, hlen]
        apply Matched.silent hd
        refine h.owned_put hlock (by simp) rfl rfl ?_ ?_
        · simp [hitems]
        · refine ⟨?_, ?_, hlevel, hundo, hpop, by simp [hitems]⟩
          · simpa [hitems] using only_store hb
          · simp [hitems]
      · rename_i hlt
        cases hstep
        have hnil : d.items = [] := by
          apply List.eq_nil_of_length_eq_zero
          omega
        apply Matched.silent hd
        apply h.owned_goes hlock rfl rfl
        refine ⟨only_of_drained hb, ?_, hlevel, hundo, hpop, by simp [hnil]⟩
        rw [StoreBuffer.view_of_drained hb, htail, hnil]
        simp
  | popLeave sf =>
      obtain ⟨-, htail, hlevel, hundo, hpop, hsf⟩ := hp
      simp only [stepOwnerInside, State.unlockOwner] at hstep
      split at hstep
      · rename_i hb
        cases hstep
        rw [StoreBuffer.view_of_drained hb] at htail
        have hpre : d.items.dropLast <+: d.items := List.dropLast_prefix d.items
        refine Matched.before .popTakes { d with items := d.items.dropLast, pop := .done sf } ?_
          (Matched.single .popReturns { d with items := d.items.dropLast, pop := .idle } hd ?_ ?_)
        · simp [Deque.step, hpop, hsf]
        · simp [Deque.step]
        · refine h.owned hlock (Or.inr ⟨rfl, hlevel⟩) rfl (fun _ => rfl) rfl ?_ ?_ ?_ ?_
          · exact h.stored.older hb hpre (Nat.le_of_eq htail)
          · intro k sf' hk
            exact h.slots k sf' (getElem?_of_older hpre hk)
          · intro sf' hmem
            exact h.frames sf' (hpre.subset hmem)
          · refine ⟨⟨by simp, by simp [hb]⟩, ?_, hundo, rfl⟩
            rw [StoreBuffer.view_of_drained hb]
            exact htail
      · cases hstep
  | setupEnter =>
      obtain ⟨hb, hnil, hundo, hpop⟩ := hp
      cases hstep
      apply Matched.silent hd
      refine h.owned_put hlock (by simp) rfl rfl ?_ ?_
      · simp
      · exact ⟨zeros_store (zeros_of_drained hb) (by simp), by simp, hnil, hundo, hpop⟩
  | setupTail =>
      obtain ⟨hz, htail, hnil, hundo, hpop⟩ := hp
      cases hstep
      apply Matched.silent hd
      refine h.owned_put hlock (by simp) rfl rfl ?_ ?_
      · simp [htail]
      · exact ⟨zeros_store hz (by simp), by simp [htail], by simp, hnil, hundo, hpop⟩
  | setupHead =>
      obtain ⟨hz, htail, hhead, hnil, hundo, hpop⟩ := hp
      simp only [stepOwnerInside, load_eq, hhead] at hstep
      cases hstep
      apply Matched.silent hd
      refine h.owned_put hlock (by simp) rfl rfl ?_ ?_
      · simp [htail]
      · exact ⟨zeros_store hz (by simp), by simp [htail], by simp [hhead], by simp, hnil, hundo, hpop⟩
  | setupReset =>
      simp only [stepOwnerInside] at hstep
      obtain ⟨-, rfl, rfl⟩ := fenceOwner_cases hstep
      exact Matched.silent hd (h.owned_goes hlock rfl rfl hp)
  | setupLeave =>
      obtain ⟨-, htail, hhead, hexc, hnil, hundo, hpop⟩ := hp
      simp only [stepOwnerInside, State.unlockOwner] at hstep
      split at hstep
      · rename_i hb
        cases hstep
        rw [StoreBuffer.view_of_drained hb] at htail hhead hexc
        -- from here on the deque starts at `ltq`
        apply Matched.single .setup d 0
        · simp [Deque.step, hundo, hpop, hnil]
        · refine h.owned hlock (Or.inr ⟨rfl, hhead, hexc⟩) rfl (fun _ => rfl) rfl ?_ ?_ ?_ ?_
          · rw [hb, hnil]
            exact ⟨⟨by simp [htail], by simp⟩, trivial⟩
          · simp [hnil]
          · simp [hnil]
          · refine ⟨⟨by simp, by simp [hb]⟩, ?_, hundo, hpop⟩
            rw [StoreBuffer.view_of_drained hb]
            simp [htail, hnil]
      · cases hstep

/-- **The worker goes on**: one step of its operation. -/
theorem matched_owner (h : Rel s d hd) (hstep : stepOwner s = some (s', o)) : Matched d s' o := by
  cases hpc : s.owner with
  | running => simp [stepOwner, hpc] at hstep
  | detaching sf => exact matched_detaching h hpc hstep
  | protecting => exact matched_protecting h hpc hstep
  | undoing => exact matched_undoing h hpc hstep
  | undone => exact matched_undone h hpc hstep
  | checkWait => exact matched_checkWait h hpc hstep
  | popWait => exact matched_popWait h hpc hstep
  | setupWait => exact matched_setupWait h hpc hstep
  | away => simp [stepOwner, hpc] at hstep
  | inside p =>
      have howner := h.owner
      rw [hpc] at howner
      simp only [stepOwner, hpc] at hstep
      exact matched_inside h howner.1 howner.2 hstep

/-! ## Flushes

A waiting store reaches memory. The deque does not change by this, but the shared memory does, so the thieves' side
has to be looked at: a frame's cell is written before `tail` is raised above it, since the buffer is first in, first
out. -/

/-- A waiting store of the worker outside its lock. -/
theorem Apart.flush {m m' : Mem} {l : Loc} {v : Nat} {ws : List (Loc × Nat)} (hbuf : m.buf none = (l, v) :: ws)
    (hmem : m'.mem = Function.update m.mem l v) (hself : m'.buf none = ws)
    (hother : ∀ t, t ≠ none → m'.buf t = m.buf t) (hh : l ≠ .head) (he : l ≠ .exc) : Apart hd d m d m' where
  head := by rw [hmem, Function.update_of_ne hh.symm]
  exc := by rw [hmem, Function.update_of_ne he.symm]
  buf i := hother _ (by simp)
  first _ hsf _ := hsf
  slot _ _ _ hs := by
    rw [hbuf] at hs
    rw [hmem, hself]
    exact hs.flush

/-- The worker's side when one of its stores is flushed. -/
theorem OwnerRel.flush {m m' : Mem} {lock : Option Thread} {pc : OwnerPc} (h : OwnerRel hd d m lock pc)
    (hlock : lock ≠ some none) (hf : m.flush none = some m') : OwnerRel hd d m' lock pc := by
  have hview := StoreBuffer.view_flush_self hf
  obtain ⟨l, v, ws, hbuf, hmem, hself, -⟩ := StoreBuffer.flush_cases hf
  have hout : Outside m lock → Outside m' lock := by
    intro ho
    refine ⟨ho.1, ?_⟩
    intro w hw
    apply ho.2
    rw [hself] at hw
    rw [hbuf]
    exact List.mem_cons_of_mem _ hw
  have hnot : ¬Drained m none := by simp [Drained, hbuf]
  cases pc with
  | running => exact ⟨hout h.1, by rw [hview]; exact h.2.1, h.2.2⟩
  | protecting => exact ⟨hout h.1, by rw [hview]; exact h.2.1, h.2.2⟩
  | detaching sf => exact ⟨hout h.1, by rw [hview]; exact h.2.1, by rw [hview]; exact h.2.2.1, h.2.2.2⟩
  | undoing => exact ⟨hout h.1, by rw [hview]; exact h.2.1, h.2.2⟩
  | undone => exact absurd h.2.1 hnot
  | checkWait => exact absurd h.2.1 hnot
  | popWait => exact ⟨hout h.1, by rw [hview]; exact h.2.1, h.2.2⟩
  | setupWait => exact absurd h.2.1 hnot
  | away => exact absurd h.2.1 hnot
  | inside p => exact absurd h.1 hlock

/-- A worker without its lock is outside. -/
theorem OwnerRel.outside {m : Mem} {lock : Option Thread} {pc : OwnerPc} (h : OwnerRel hd d m lock pc)
    (hlock : lock ≠ some none) : Outside m lock := by
  cases pc with
  | inside p => exact absurd h.1 hlock
  | _ => exact h.1

/-- The worker's side when one of its stores is flushed while it holds its lock. -/
theorem OwnerInsideRel.flush {m m' : Mem} {p : OwnerInside} (h : OwnerInsideRel hd d m p)
    (hf : m.flush none = some m') : OwnerInsideRel hd d m' p := by
  have hview := StoreBuffer.view_flush_self hf
  obtain ⟨l, v, ws, hbuf, hmem, hself, -⟩ := StoreBuffer.flush_cases hf
  have hnot : ¬Drained m none := by simp [Drained, hbuf]
  have honly : ∀ {l' : Loc} {v' : Nat}, Only l' v' (m.buf none) → l = l' ∧ v = v' ∧ Only l' v' (m'.buf none) := by
    intro l' v' ho
    rw [hbuf] at ho
    rw [hself]
    have hfirst := ho (l, v) (by simp)
    simp only [Prod.mk.injEq] at hfirst
    exact ⟨hfirst.1, hfirst.2, fun w hw => ho w (List.mem_cons_of_mem _ hw)⟩
  have hzeros : Zeros m → Zeros m' := by
    intro hz w hw
    apply hz
    rw [hself] at hw
    rw [hbuf]
    exact List.mem_cons_of_mem _ hw
  cases p with
  | checkEnter => exact absurd h.1 hnot
  | checkFenced => exact absurd h.1 hnot
  | setupEnter => exact absurd h.1 hnot
  | checkReset =>
      obtain ⟨ho, hlevel, htail, hrest⟩ := h
      obtain ⟨rfl, rfl, ho⟩ := honly ho
      exact ⟨ho, ⟨by simp [hmem, hlevel.1], by simp [hmem]⟩, by simp [hmem, htail], hrest⟩
  | checkLeave won =>
      cases won with
      | true => exact absurd h.1 hnot
      | false =>
          obtain ⟨ho, htail, hlevel, hrest⟩ := h
          obtain ⟨rfl, rfl, ho⟩ := honly ho
          exact ⟨ho, by rw [hview]; exact htail, ⟨by simp [hmem, hlevel.1], by simp [hmem, hlevel.2]⟩, hrest⟩
  | popEnter => exact absurd h.1 hnot
  | popLeave sf =>
      obtain ⟨ho, htail, hlevel, hrest⟩ := h
      obtain ⟨rfl, rfl, ho⟩ := honly ho
      exact ⟨ho, by rw [hview]; exact htail, ⟨by simp [hmem, hlevel.1], by simp [hmem, hlevel.2]⟩, hrest⟩
  | setupTail =>
      simp only [OwnerInsideRel, hview]
      exact ⟨hzeros h.1, h.2⟩
  | setupHead =>
      simp only [OwnerInsideRel, hview]
      exact ⟨hzeros h.1, h.2⟩
  | setupReset =>
      simp only [OwnerInsideRel, hview]
      exact ⟨hzeros h.1, h.2⟩
  | setupLeave =>
      simp only [OwnerInsideRel, hview]
      exact ⟨hzeros h.1, h.2⟩

/-- **A store of the worker reaches memory.** -/
theorem rel_flush_owner {m' : Mem} (h : Rel s d hd) (hf : s.mem.flush none = some m') :
    Rel { s with mem := m' } d hd := by
  have hview := StoreBuffer.view_flush_self hf
  obtain ⟨l, v, ws, hbuf, hmem, hself, hother⟩ := StoreBuffer.flush_cases hf
  have hstored : Stored d.items hd m'.mem (m'.buf none) := by
    obtain ⟨hk, ha⟩ := h.stored
    rw [hbuf] at hk ha
    rw [hmem, hself]
    exact ⟨hk.flush, ha.flush⟩
  have hslots : ∀ k sf, d.items[k]? = some sf → m'.view none (.slot (hd + k)) = sf := by
    rw [hview]
    exact h.slots
  by_cases hlock : s.lock = some none
  · have howner := h.owner
    cases hpc : s.owner with
    | inside p =>
        rw [hpc] at howner
        exact h.owned hlock (Or.inl hlock) rfl (fun i => hother _ (by simp)) rfl hstored hslots h.frames
          ⟨hlock, howner.2.flush hf⟩
    | _ =>
        rw [hpc] at howner
        exact absurd hlock howner.1.1
  · have hout := (h.owner.outside hlock).2 (l, v) (by simp [hbuf])
    exact h.apart (Apart.flush hbuf hmem hself hother hout.1 hout.2) rfl rfl rfl hstored hslots h.frames
      (h.owner.flush hlock hf)

end FOrder.The
