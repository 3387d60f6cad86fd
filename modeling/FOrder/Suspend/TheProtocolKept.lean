import FOrder.Suspend.TheProtocol

/-!
# `Suspend.TheProtocolKept` — how the deque lies in memory while the THE protocol runs

`hd` is the place of the oldest frame that is not taken. The frames of the deque lie from there on, in memory as far
as `tail` is flushed, and all of them for the worker. `exc` is never below `hd` while the worker can pop without its
lock, and above it once a thief may compare `head` with `tail`: that is why a pop that sees no `exc` above it can
only take a frame that no thief is about to take.

`Rel` is the relation of the simulation in `Suspend.TheProtocolRuns`: the deque on one side, the shared words, the
lock, the store buffers and the program counters on the other. Its parts `OwnerRel` and `ThiefRel` have one clause
for each place in the code, which says what the thread there knows of memory and how far its own operation has gone
on the deque. A buffered store is in neither place yet, so what the worker has written is told by `Stored`, which
speaks of memory after each prefix of its buffer.
-/

namespace FOrder.The

open StoreBuffer (Always Waiting commit)

/-- The frames below `tail` lie in their cells. -/
def Kept (items : List Nat) (hd : Nat) (m : Loc → Nat) : Prop :=
  m .tail ≤ hd + items.length ∧ ∀ k sf, items[k]? = some sf → hd + k < m .tail → m (.slot (hd + k)) = sf

/-- A store to a cell waits only while `tail` is not above the cell. -/
def CellAbove (m : Loc → Nat) (w : Loc × Nat) : Prop := ∀ j, w.1 = .slot j → m .tail ≤ j

/-- The frames in memory, now and after each of the worker's waiting stores. -/
structure Stored (items : List Nat) (hd : Nat) (mem : Loc → Nat) (ws : List (Loc × Nat)) : Prop where
  kept : Always (Kept items hd) mem ws
  above : Waiting CellAbove mem ws

/-- All waiting stores are of one value to one location. -/
def Only (l : Loc) (v : Nat) (ws : List (Loc × Nat)) : Prop := ∀ w ∈ ws, w = (l, v)

/-- No store of a thread waits. -/
def Drained (m : Mem) (t : Thread) : Prop := m.buf t = []

/-- The worker neither holds its lock nor has stores to `head` or `exc` waiting. -/
def Outside (m : Mem) (lock : Option Thread) : Prop :=
  lock ≠ some none ∧ ∀ w ∈ m.buf none, w.1 ≠ .head ∧ w.1 ≠ .exc

/-- No thief is between `increment_E` and the store to `head`. -/
def Level (hd : Nat) (m : Mem) : Prop := m.mem .head = hd ∧ m.mem .exc = hd

/-- The stores of `setup_for_execution`. -/
def Zeros (m : Mem) : Prop := ∀ w ∈ m.buf none, w.2 = 0 ∧ (w.1 = .tail ∨ w.1 = .head ∨ w.1 = .exc)

/-- The worker while it holds its lock. -/
def OwnerInsideRel (hd : Nat) (d : Deque) (m : Mem) : OwnerInside → Prop
  | .checkEnter | .checkFenced =>
      Drained m none ∧ Level hd m ∧ m.mem .tail + 1 = hd + d.items.length ∧ d.undo = .called ∧ d.pop = .idle
  | .checkReset =>
      Only .exc hd (m.buf none) ∧ Level hd m ∧ m.mem .tail + 1 = hd + d.items.length ∧ d.undo = .called ∧ d.pop = .idle
  | .checkLeave true =>
      Drained m none ∧ Level hd m ∧ m.mem .tail = hd + d.items.length ∧
        d.undo = .done (some (m.mem (.slot (m.mem .tail)))) ∧ d.pop = .idle
  | .checkLeave false =>
      Only .tail hd (m.buf none) ∧ m.view none .tail = hd ∧ Level hd m ∧ d.items = [] ∧ d.undo = .done none ∧ d.pop = .idle
  | .popEnter =>
      Drained m none ∧ Level hd m ∧ m.mem .tail = hd + d.items.length ∧ d.undo = .idle ∧ d.pop = .called
  -- the pop takes effect when `tail` is in memory, at the latest with the unlock
  | .popLeave sf =>
      Only .tail (hd + d.items.dropLast.length) (m.buf none) ∧ m.view none .tail = hd + d.items.dropLast.length ∧
        Level hd m ∧ d.undo = .idle ∧ d.pop = .called ∧ d.items.getLast?.getD 0 = sf
  | .setupEnter => Drained m none ∧ d.items = [] ∧ d.undo = .idle ∧ d.pop = .idle
  | .setupTail => Zeros m ∧ m.view none .tail = 0 ∧ d.items = [] ∧ d.undo = .idle ∧ d.pop = .idle
  | .setupHead =>
      Zeros m ∧ m.view none .tail = 0 ∧ m.view none .head = 0 ∧ d.items = [] ∧ d.undo = .idle ∧ d.pop = .idle
  | .setupReset | .setupLeave =>
      Zeros m ∧ m.view none .tail = 0 ∧ m.view none .head = 0 ∧ m.view none .exc = 0 ∧ d.items = [] ∧ d.undo = .idle ∧
        d.pop = .idle

/-- The worker, and what its operation in progress has done. -/
def OwnerRel (hd : Nat) (d : Deque) (m : Mem) (lock : Option Thread) : OwnerPc → Prop
  | .running | .protecting =>
      Outside m lock ∧ m.view none .tail = hd + d.items.length ∧ d.undo = .idle ∧ d.pop = .idle
  | .detaching sf =>
      Outside m lock ∧ m.view none .tail = hd + d.items.length ∧ m.view none (.slot (hd + d.items.length)) = sf ∧
        sf ≠ 0 ∧ d.undo = .idle ∧ d.pop = .idle
  | .undoing => Outside m lock ∧ m.view none .tail + 1 = hd + d.items.length ∧ d.undo = .called ∧ d.pop = .idle
  | .undone | .checkWait =>
      Outside m lock ∧ Drained m none ∧ m.mem .tail + 1 = hd + d.items.length ∧ d.undo = .called ∧ d.pop = .idle
  | .popWait => Outside m lock ∧ m.view none .tail = hd + d.items.length ∧ d.undo = .idle ∧ d.pop = .called
  | .setupWait | .away => Outside m lock ∧ Drained m none ∧ d.items = [] ∧ d.undo = .idle ∧ d.pop = .idle
  | .inside p => lock = some none ∧ OwnerInsideRel hd d m p

/-- A thief while it holds the lock. -/
def ThiefInsideRel (hd : Nat) (d : Deque) (m : Mem) (i : Nat) : ThiefInside → Prop
  | .locked | .leaving => Drained m (some i) ∧ Level hd m ∧ d.steal i = .called
  | .incremented =>
      Only .exc (hd + 1) (m.buf (some i)) ∧ m.mem .head = hd ∧ m.view (some i) .exc = hd + 1 ∧ d.steal i = .called
  | .fenced | .failing => Drained m (some i) ∧ m.mem .head = hd ∧ m.mem .exc = hd + 1 ∧ d.steal i = .called
  | .belowTail | .success =>
      Drained m (some i) ∧ m.mem .head = hd ∧ m.mem .exc = hd + 1 ∧ d.steal i = .called ∧
        ∃ sf, d.items[0]? = some sf ∧ Always (fun μ => μ (.slot hd) = sf) m.mem (m.buf none)
  | .detached h =>
      Only .head hd (m.buf (some i)) ∧ hd = h + 1 ∧ m.mem .head ≤ hd ∧ m.view (some i) .head = hd ∧ m.mem .exc = hd ∧
        ∃ sf, d.steal i = .done sf ∧ Always (fun μ => μ (.slot h) = sf) m.mem (m.buf none)
  | .taken sf =>
      Only .head hd (m.buf (some i)) ∧ m.mem .head ≤ hd ∧ m.view (some i) .head = hd ∧ m.mem .exc = hd ∧
        d.steal i = .done sf
  | .decremented =>
      Only .exc hd (m.buf (some i)) ∧ m.mem .head = hd ∧ m.view (some i) .exc = hd ∧ d.steal i = .called
  | .failed => False

/-- A thief, and what its attempt has taken. -/
def ThiefRel (hd : Nat) (d : Deque) (m : Mem) (lock : Option Thread) (i : Nat) : ThiefPc → Prop
  | .idle => lock ≠ some (some i) ∧ Drained m (some i) ∧ d.steal i = .idle
  | .trying => lock ≠ some (some i) ∧ Drained m (some i) ∧ d.steal i = .called
  | .inside p => lock = some (some i) ∧ ThiefInsideRel hd d m i p

/-- The protocol's state and the deque it stands for. -/
structure Rel (s : State) (d : Deque) (hd : Nat) : Prop where
  stored : Stored d.items hd s.mem.mem (s.mem.buf none)
  slots : ∀ k sf, d.items[k]? = some sf → s.mem.view none (.slot (hd + k)) = sf
  frames : ∀ sf ∈ d.items, sf ≠ 0
  free : s.lock = none → Level hd s.mem
  exc : s.lock ≠ some none → hd ≤ s.mem.mem .exc
  owner : OwnerRel hd d s.mem s.lock s.owner
  thief : ∀ i, ThiefRel hd d s.mem s.lock i (s.thief i)

/-- At first there is no frame, and nothing waits. -/
theorem rel_init (ltqsize : Nat) : Rel (init ltqsize) Deque.init 0 where
  stored := ⟨⟨by simp [init], by simp [Deque.init]⟩, trivial⟩
  slots := by simp [Deque.init]
  frames := by simp [Deque.init]
  free _ := ⟨by simp [init], by simp [init]⟩
  exc _ := Nat.zero_le _
  owner := ⟨⟨by simp [init], by simp [init]⟩, by simp [init, Deque.init, StoreBuffer.view], rfl, rfl⟩
  thief i := ⟨by simp [init], by simp [Drained, init], rfl⟩

/-! ## Frames of one side under the steps of the other

`Rel` speaks of the worker and of each thief, and a step moves one of them. Of what `Rel` says about the others only
the part that reads shared memory has to be looked at again: a thief reads what the worker has stored, and the worker
reads `head` and `exc`. `Apart` and `OwnerRel.frame` list what must not change for each side. -/

section Frame

variable {hd : Nat} {d d' : Deque} {m m' : Mem} {lock lock' : Option Thread}

/-- A thief that does not hold the lock sees nothing of the others' steps. -/
theorem ThiefRel.outside {i : Nat} {pc : ThiefPc} {hd' : Nat} (h : ThiefRel hd d m lock i pc)
    (hl : lock ≠ some (some i)) (hl' : lock' ≠ some (some i)) (hbuf : m'.buf (some i) = m.buf (some i))
    (hsteal : d'.steal i = d.steal i) : ThiefRel hd' d' m' lock' i pc := by
  cases pc with
  | idle => exact ⟨hl', hbuf.trans h.2.1, hsteal.trans h.2.2⟩
  | trying => exact ⟨hl', hbuf.trans h.2.1, hsteal.trans h.2.2⟩
  | inside p => exact absurd h.1 hl

/-- What a step of the worker outside its lock leaves as it was. -/
structure Apart (hd : Nat) (d : Deque) (m : Mem) (d' : Deque) (m' : Mem) : Prop where
  head : m'.mem .head = m.mem .head
  exc : m'.mem .exc = m.mem .exc
  buf : ∀ i, m'.buf (some i) = m.buf (some i)
  /-- the oldest frame, once `exc` is above it -/
  first : ∀ sf, d.items[0]? = some sf → m.mem .exc = hd + 1 → d'.items[0]? = some sf
  slot : ∀ h sf, h < hd + d.items.length → Always (fun μ => μ (.slot h) = sf) m.mem (m.buf none) →
    Always (fun μ => μ (.slot h) = sf) m'.mem (m'.buf none)

/-- No thief has moved. -/
theorem Apart.level (h : Apart hd d m d' m') (hl : Level hd m) : Level hd m' := ⟨h.head.trans hl.1, h.exc.trans hl.2⟩

/-- What a thread with an unchanged buffer loads. -/
theorem view_congr {t : Thread} {l : Loc} (hbuf : m'.buf t = m.buf t) (hmem : m'.mem l = m.mem l) :
    m'.view t l = m.view t l := by
  unfold StoreBuffer.view
  rw [hbuf]
  have hcommit : ∀ (ws : List (Loc × Nat)) (μ μ' : Loc → Nat), μ' l = μ l → commit μ' ws l = commit μ ws l := by
    intro ws
    induction ws with
    | nil => simp
    | cons w ws ih =>
        intro μ μ' hμ
        apply ih
        by_cases hw : l = w.1
        · simp [hw]
        · simp [hw, hμ]
  exact hcommit _ _ _ hmem

/-- **The thieves under a step of the worker.** -/
theorem ThiefRel.apart {i : Nat} {pc : ThiefPc} (h : ThiefRel hd d m lock i pc) (ha : Apart hd d m d' m')
    (hsteal : d'.steal i = d.steal i) : ThiefRel hd d' m' lock i pc := by
  have hbuf := ha.buf i
  cases pc with
  | idle => exact ⟨h.1, hbuf.trans h.2.1, hsteal.trans h.2.2⟩
  | trying => exact ⟨h.1, hbuf.trans h.2.1, hsteal.trans h.2.2⟩
  | inside p =>
      obtain ⟨hlock, h⟩ := h
      refine ⟨hlock, ?_⟩
      have hdrained : Drained m (some i) → Drained m' (some i) := fun hm => hbuf.trans hm
      cases p with
      | locked => exact ⟨hdrained h.1, ha.level h.2.1, hsteal.trans h.2.2⟩
      | leaving => exact ⟨hdrained h.1, ha.level h.2.1, hsteal.trans h.2.2⟩
      | incremented =>
          obtain ⟨honly, hhead, hexc, hcalled⟩ := h
          refine ⟨?_, ha.head.trans hhead, (view_congr hbuf ha.exc).trans hexc, hsteal.trans hcalled⟩
          rw [hbuf]
          exact honly
      | fenced => exact ⟨hdrained h.1, ha.head.trans h.2.1, ha.exc.trans h.2.2.1, hsteal.trans h.2.2.2⟩
      | failing => exact ⟨hdrained h.1, ha.head.trans h.2.1, ha.exc.trans h.2.2.1, hsteal.trans h.2.2.2⟩
      | belowTail =>
          obtain ⟨hb, hhead, hexc, hcalled, sf, hsf, hslot⟩ := h
          have hlt : hd < hd + d.items.length := by
            have := (List.getElem?_eq_some_iff.mp hsf).1
            omega
          exact ⟨hdrained hb, ha.head.trans hhead, ha.exc.trans hexc, hsteal.trans hcalled, sf,
            ha.first sf hsf hexc, ha.slot hd sf hlt hslot⟩
      | success =>
          obtain ⟨hb, hhead, hexc, hcalled, sf, hsf, hslot⟩ := h
          have hlt : hd < hd + d.items.length := by
            have := (List.getElem?_eq_some_iff.mp hsf).1
            omega
          exact ⟨hdrained hb, ha.head.trans hhead, ha.exc.trans hexc, hsteal.trans hcalled, sf,
            ha.first sf hsf hexc, ha.slot hd sf hlt hslot⟩
      | detached h' =>
          obtain ⟨honly, hh, hle, hhead, hexc, sf, hdone, hslot⟩ := h
          refine ⟨?_, hh, by rw [ha.head]; exact hle, (view_congr hbuf ha.head).trans hhead, ha.exc.trans hexc, sf, hsteal.trans hdone,
            ha.slot h' sf (by omega) hslot⟩
          rw [hbuf]
          exact honly
      | taken sf =>
          obtain ⟨honly, hle, hhead, hexc, hdone⟩ := h
          refine ⟨?_, by rw [ha.head]; exact hle, (view_congr hbuf ha.head).trans hhead, ha.exc.trans hexc, hsteal.trans hdone⟩
          rw [hbuf]
          exact honly
      | decremented =>
          obtain ⟨honly, hhead, hexc, hcalled⟩ := h
          refine ⟨?_, ha.head.trans hhead, (view_congr hbuf ha.exc).trans hexc, hsteal.trans hcalled⟩
          rw [hbuf]
          exact honly
      | failed => exact h.elim

/-- **The worker under a step of a thief**: memory changes at `head` and `exc` only, the last frame stays in place. -/
theorem OwnerRel.frame {hd' : Nat} {pc : OwnerPc} (h : OwnerRel hd d m lock pc) (hl : lock ≠ some none)
    (hl' : lock' ≠ some none) (hbuf : m'.buf none = m.buf none)
    (hmem : ∀ l, l ≠ .head → l ≠ .exc → m'.mem l = m.mem l)
    (hend : hd' + d'.items.length = hd + d.items.length) (hempty : d.items = [] → d'.items = [])
    (hundo : d'.undo = d.undo) (hpop : d'.pop = d.pop) : OwnerRel hd' d' m' lock' pc := by
  have hout : Outside m lock → Outside m' lock' := by
    intro ho
    refine ⟨hl', ?_⟩
    rw [hbuf]
    exact ho.2
  have htail : m'.view none .tail = m.view none .tail := view_congr hbuf (hmem _ (by simp) (by simp))
  have htail' : m'.mem .tail = m.mem .tail := hmem _ (by simp) (by simp)
  have hslot : ∀ k, m'.view none (.slot k) = m.view none (.slot k) :=
    fun k => view_congr hbuf (hmem _ (by simp) (by simp))
  cases pc with
  | running => exact ⟨hout h.1, by rw [htail, hend]; exact h.2.1, hundo.trans h.2.2.1, hpop.trans h.2.2.2⟩
  | protecting => exact ⟨hout h.1, by rw [htail, hend]; exact h.2.1, hundo.trans h.2.2.1, hpop.trans h.2.2.2⟩
  | detaching sf =>
      obtain ⟨ho, ht, hs, hne, hu, hp⟩ := h
      exact ⟨hout ho, by rw [htail, hend]; exact ht, by rw [hslot, hend]; exact hs, hne, hundo.trans hu, hpop.trans hp⟩
  | undoing => exact ⟨hout h.1, by rw [htail, hend]; exact h.2.1, hundo.trans h.2.2.1, hpop.trans h.2.2.2⟩
  | undone =>
      obtain ⟨ho, hb, ht, hu, hp⟩ := h
      exact ⟨hout ho, hbuf.trans hb, by rw [htail', hend]; exact ht, hundo.trans hu, hpop.trans hp⟩
  | checkWait =>
      obtain ⟨ho, hb, ht, hu, hp⟩ := h
      exact ⟨hout ho, hbuf.trans hb, by rw [htail', hend]; exact ht, hundo.trans hu, hpop.trans hp⟩
  | popWait => exact ⟨hout h.1, by rw [htail, hend]; exact h.2.1, hundo.trans h.2.2.1, hpop.trans h.2.2.2⟩
  | setupWait =>
      obtain ⟨ho, hb, hi, hu, hp⟩ := h
      exact ⟨hout ho, hbuf.trans hb, hempty hi, hundo.trans hu, hpop.trans hp⟩
  | away =>
      obtain ⟨ho, hb, hi, hu, hp⟩ := h
      exact ⟨hout ho, hbuf.trans hb, hempty hi, hundo.trans hu, hpop.trans hp⟩
  | inside p => exact absurd h.1 hl

end Frame

/-! ## The worker outside its lock

Outside the lock the worker stores to `tail`, to `protected_tail` and to the cell behind the last frame, and to
nothing that a thief has relied on. These lemmas say so for one store; the steps of the worker are made of them. -/

section Outside

variable {s s' : State} {d d' : Deque} {hd : Nat}

/-- A step of the worker outside its lock. -/
theorem Rel.apart (h : Rel s d hd) (ha : Apart hd d s.mem d' s'.mem) (hsteal : d'.steal = d.steal)
    (hlock : s'.lock = s.lock) (hthief : s'.thief = s.thief) (hstored : Stored d'.items hd s'.mem.mem (s'.mem.buf none))
    (hslots : ∀ k sf, d'.items[k]? = some sf → s'.mem.view none (.slot (hd + k)) = sf)
    (hframes : ∀ sf ∈ d'.items, sf ≠ 0) (howner : OwnerRel hd d' s'.mem s'.lock s'.owner) : Rel s' d' hd where
  stored := hstored
  slots := hslots
  frames := hframes
  free hl := ha.level (h.free (hlock ▸ hl))
  exc hl := by
    rw [ha.exc]
    exact h.exc (hlock ▸ hl)
  owner := howner
  thief i := by
    rw [hthief, hlock]
    exact (h.thief i).apart ha (congrFun hsteal i)

/-- Nothing is stored, and no frame moves. -/
theorem Apart.refl (hitems : d'.items = d.items) {m : Mem} : Apart hd d m d' m where
  head := by simp
  exc := by simp
  buf _ := by simp
  first sf hsf _ := by rw [hitems]; exact hsf
  slot _ _ _ hs := hs

/-- The worker stores, but not into a cell that holds a frame. -/
theorem Apart.store {m : Mem} {l : Loc} {v : Nat} (hl : ∀ h, h < hd + d.items.length → l ≠ .slot h)
    (hfirst : ∀ sf, d.items[0]? = some sf → d'.items[0]? = some sf) : Apart hd d m d' (m.store none l v) where
  head := by simp
  exc := by simp
  buf i := StoreBuffer.buf_store_ne (by simp)
  first sf hsf _ := hfirst sf hsf
  slot h sf hlt hs := by
    rw [StoreBuffer.mem_store, StoreBuffer.buf_store_self]
    apply hs.concat
    rw [Function.update_of_ne (hl h hlt).symm]
    exact hs.commit

/-- The worker stores, but not into a cell that holds a frame. -/
theorem Stored.store {m : Mem} {l : Loc} {v : Nat} {items : List Nat} (h : Stored items hd m.mem (m.buf none))
    (hl : ∀ j, l = .slot j → hd + items.length ≤ j) (hv : Kept items hd ((m.store none l v).view none)) :
    Stored items hd (m.store none l v).mem ((m.store none l v).buf none) := by
  rw [StoreBuffer.mem_store, StoreBuffer.buf_store_self]
  constructor
  · apply h.kept.concat
    rw [StoreBuffer.view_store_self] at hv
    exact hv
  · apply h.above.concat
    apply h.kept.mono
    intro μ hμ j hj
    exact Nat.le_trans hμ.1 (hl j hj)

/-- The cells below a `tail` that is not above the last frame, in the worker's eyes. -/
theorem Rel.kept_view (h : Rel s d hd) {μ : Loc → Nat} (htail : μ .tail ≤ hd + d.items.length)
    (hμ : ∀ k, k < d.items.length → μ (.slot (hd + k)) = s.mem.view none (.slot (hd + k))) : Kept d.items hd μ := by
  refine ⟨htail, ?_⟩
  intro k sf hk _
  rw [hμ k (List.getElem?_eq_some_iff.mp hk).1]
  exact h.slots k sf hk

/-- No frame in a deque that `exc` does not reach beyond. -/
theorem Rel.nonempty (h : Rel s d hd) (hl : s.lock ≠ some none) {t : Nat} (ht : t + 1 = hd + d.items.length)
    (hexc : ¬t < s.mem.mem .exc) : d.items ≠ [] := by
  have hle := h.exc hl
  rintro hnil
  rw [hnil, List.length_nil] at ht
  omega

/-- The newest frame. -/
theorem exists_newest {items : List Nat} (h : items ≠ []) : ∃ older sf, items = older ++ [sf] := by
  rcases List.eq_nil_or_concat items with hnil | ⟨older, sf, hlast⟩
  · exact absurd hnil h
  · exact ⟨older, sf, by rw [hlast, List.concat_eq_append]⟩

end Outside

end FOrder.The
