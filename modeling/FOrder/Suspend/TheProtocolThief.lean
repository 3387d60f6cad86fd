import FOrder.Suspend.TheProtocolOwner

/-!
# `Suspend.TheProtocolThief` — the thieves' steps of the THE protocol are steps of the deque

A steal takes effect when `head` is stored: since `exc` was raised and `tail` compared afterwards, the worker will
not pop the frame. Then the theorem about whole runs.

The thieves move under the worker's lock, one at a time, so for a step of thief `i` all others are where they were
(`ThiefMoves`), and the worker is outside or waits for the lock. Of the worker's side only two things may change
under its feet: `head` and `exc` in memory. That `exc` is never below `hd` there is what the worker needs, and
`Rel.thief_puts` keeps it.

Of the frame that a thief is about to take, `ThiefInsideRel` says that it lies in its cell for good: now, and after
each of the worker's waiting stores. A push stores to cells above all frames, and a pop of this frame would have to
see `exc` not above its `tail`; so it stays (`Rel.oldest`, `Rel.thief_takes`).
-/

namespace FOrder.The

open StoreBuffer (Always commit)
open Machine (Trace)

variable {s s' : State} {d d' : Deque} {hd hd' n i : Nat} {o : Option Label}

/-- What does not change when thief `i` moves in the lock, or into it, or out of it: the worker, the other thieves,
    their waiting stores, and what the deque knows of them. -/
structure ThiefMoves (i : Nat) (s s' : State) (d d' : Deque) : Prop where
  lock : s.lock ≠ some none
  lock' : s'.lock ≠ some none
  others : ∀ j, j ≠ i → s.lock ≠ some (some j) ∧ s'.lock ≠ some (some j)
  owner : s'.owner = s.owner
  thief : ∀ j, j ≠ i → s'.thief j = s.thief j
  buf : ∀ t, t ≠ some i → s'.mem.buf t = s.mem.buf t
  steal : ∀ j, j ≠ i → d'.steal j = d.steal j
  undo : d'.undo = d.undo
  pop : d'.pop = d.pop

/-- A step of thief `i` that stores nothing to memory and takes nothing. -/
theorem Rel.thief_moves (h : Rel s d hd) (hm : ThiefMoves i s s' d d') (hmem : s'.mem.mem = s.mem.mem)
    (hitems : d'.items = d.items) (hfree : s'.lock = none → Level hd s'.mem)
    (hthief : ThiefRel hd d' s'.mem s'.lock i (s'.thief i)) : Rel s' d' hd where
  stored := by
    rw [hmem, hm.buf none (by simp), hitems]
    exact h.stored
  slots k sf hk := by
    rw [hitems] at hk
    rw [view_congr (hm.buf none (by simp)) (congrFun hmem _)]
    exact h.slots k sf hk
  frames := by
    rw [hitems]
    exact h.frames
  free := hfree
  exc _ := by
    rw [hmem]
    exact h.exc hm.lock
  owner := by
    rw [hm.owner]
    exact h.owner.frame hm.lock hm.lock' (hm.buf none (by simp)) (fun l _ _ => congrFun hmem l) (by rw [hitems])
      (fun hnil => hitems.trans hnil) hm.undo hm.pop
  thief j := by
    by_cases hj : j = i
    · rw [hj]
      exact hthief
    · rw [hm.thief j hj]
      exact (h.thief j).outside (hm.others j hj).1 (hm.others j hj).2 (hm.buf _ (by simpa using hj)) (hm.steal j hj)

/-- What holds of thief `i` inside the lock. -/
theorem Rel.holds (h : Rel s d hd) {p : ThiefInside} (hpc : s.thief i = .inside p) :
    s.lock = some (some i) ∧ ThiefInsideRel hd d s.mem i p := by
  have ht := h.thief i
  rw [hpc] at ht
  exact ht

/-- Thief `i` goes on inside the lock. -/
theorem ThiefMoves.inside {p : ThiefInside} (hlock : s.lock = some (some i)) :
    ThiefMoves i s (s.goes i (.inside p)) d d where
  lock := by simp [hlock]
  lock' := by simp [State.goes, hlock]
  others j hj := by simp [State.goes, hlock, Ne.symm hj]
  owner := rfl
  thief j hj := by simp [State.goes, hj]
  buf _ _ := rfl
  steal _ _ := rfl
  undo := rfl
  pop := rfl

/-- And the deque stays as it is. -/
theorem Rel.thief_goes (h : Rel s d hd) (hlock : s.lock = some (some i)) {p : ThiefInside}
    (hp : ThiefInsideRel hd d s.mem i p) : Rel (s.goes i (.inside p)) d hd := by
  apply h.thief_moves (ThiefMoves.inside hlock)
  · rfl
  · rfl
  · intro hl
    simp [State.goes, hlock] at hl
  · have hpc : (s.goes i (.inside p)).thief i = .inside p := by simp [State.goes]
    rw [hpc]
    exact ⟨hlock, hp⟩

/-- The frames of a store of thief `i`. -/
theorem ThiefMoves.puts {l : Loc} {v : Nat} {p : ThiefInside} (hlock : s.lock = some (some i)) :
    ThiefMoves i s (s.putThief i l v p) d d where
  lock := by simp [hlock]
  lock' := by simp [State.putThief, State.goes, hlock]
  others j hj := by simp [State.putThief, State.goes, hlock, Ne.symm hj]
  owner := rfl
  thief j hj := by simp [State.putThief, State.goes, hj]
  buf _ ht := StoreBuffer.buf_store_ne ht
  steal _ _ := rfl
  undo := rfl
  pop := rfl

/-- Thief `i` stores and goes on inside the lock. Its store waits in its own buffer, where nobody else sees it. -/
theorem Rel.thief_puts (h : Rel s d hd) (hlock : s.lock = some (some i)) {l : Loc} {v : Nat} {p : ThiefInside}
    (hp : ThiefInsideRel hd d (s.mem.store (some i) l v) i p) : Rel (s.putThief i l v p) d hd := by
  apply h.thief_moves (ThiefMoves.puts hlock)
  · rfl
  · rfl
  · intro hl
    simp [State.putThief, State.goes, hlock] at hl
  · have hpc : (s.putThief i l v p).thief i = .inside p := by simp [State.putThief, State.goes]
    rw [hpc]
    exact ⟨hlock, hp⟩

/-- Thief `i` gives the lock back. The unlock waits for its stores, so `head` and `exc` are level in memory then. -/
theorem Rel.thief_unlocks (h : Rel s d hd) (hlock : s.lock = some (some i)) (hb : Drained s.mem (some i))
    (hlevel : Level hd s.mem) : Rel { s.goes i .idle with lock := none }
      { d with steal := Function.update d.steal i .idle } hd := by
  have hm : ThiefMoves i s { s.goes i .idle with lock := none }
      d { d with steal := Function.update d.steal i .idle } := by
    refine ⟨by simp [hlock], by simp, ?_, rfl, ?_, fun _ _ => rfl, ?_, rfl, rfl⟩
    · intro j hj
      simp [hlock, Ne.symm hj]
    · intro j hj
      simp [State.goes, hj]
    · intro j hj
      simp [hj]
  apply h.thief_moves hm
  · rfl
  · rfl
  · exact fun _ => hlevel
  · have hpc : ({ s.goes i .idle with lock := none } : State).thief i = .idle := by simp [State.goes]
    rw [hpc]
    exact ⟨by simp, hb, by simp⟩

/-- `__cilkrts_fence` of thief `i`. -/
theorem fenceThief_cases {p : ThiefInside} (h : (s.fenceThief i p).map silent = some (s', o)) :
    Drained s.mem (some i) ∧ s' = s.goes i (.inside p) ∧ o = none := by
  unfold State.fenceThief at h
  split at h
  · rename_i hb
    cases h
    exact ⟨hb, rfl, rfl⟩
  · cases h

/-- The oldest frame, while it is below `tail` in memory: it lies in its cell now, and after each of the worker's
    waiting stores. None of these is to the cell, for a store to a cell waits only while `tail` is not above it. -/
theorem Rel.oldest (h : Rel s d hd) (hlt : hd < s.mem.mem .tail) : ∃ sf, d.items[0]? = some sf ∧
    Always (fun μ => μ (.slot hd) = sf) s.mem.mem (s.mem.buf none) := by
  have hkept := h.stored.kept.now
  have hpos : 0 < d.items.length := by
    have := hkept.1
    omega
  refine ⟨d.items[0], List.getElem?_eq_getElem hpos, ?_⟩
  have hnow : s.mem.mem (.slot hd) = d.items[0] := hkept.2 0 _ (List.getElem?_eq_getElem hpos) hlt
  -- no store to the cell waits any more
  have hnone : ∀ w ∈ s.mem.buf none, w.1 ≠ .slot hd := by
    intro w hw heq
    have := h.stored.above.now w hw hd heq
    omega
  rw [← hnow]
  exact StoreBuffer.always_of_not_mem hnone

/-- **A steal**: the oldest frame is taken with the store to `head`. From here on it belongs to the thief, although
    the store may still wait, and its cell keeps it until the thief has read it. -/
theorem Rel.thief_takes (h : Rel s d hd) (hpc : s.thief i = .inside .success) : ∃ sf rest, d.items = sf :: rest ∧
    s.mem.mem (.slot hd) = sf ∧ Rel (s.putThief i .head (hd + 1) (.detached hd))
      { d with items := rest, steal := Function.update d.steal i (.done sf) } (hd + 1) := by
  obtain ⟨hlock, hb, hhead, hexc, hcalled, sf, hsf, hslot⟩ := h.holds hpc
  obtain ⟨rest, hitems⟩ : ∃ rest, d.items = sf :: rest := by
    cases hd' : d.items with
    | nil => simp [hd'] at hsf
    | cons x rest =>
        rw [hd', List.getElem?_cons_zero, Option.some.injEq] at hsf
        exact ⟨rest, by rw [hsf]⟩
  have hm : ThiefMoves i s (s.putThief i .head (hd + 1) (.detached hd))
      d { d with items := rest, steal := Function.update d.steal i (.done sf) } := by
    have hp := ThiefMoves.puts (d := d) (l := .head) (v := hd + 1) (p := .detached hd) hlock
    refine ⟨hp.lock, hp.lock', hp.others, hp.owner, hp.thief, hp.buf, ?_, rfl, rfl⟩
    intro j hj
    simp [hj]
  have hnext : ∀ k sf', rest[k]? = some sf' → d.items[k + 1]? = some sf' := by
    intro k sf' hk
    rw [hitems, List.getElem?_cons_succ]
    exact hk
  have hend : hd + 1 + rest.length = hd + d.items.length := by
    rw [hitems, List.length_cons]
    omega
  have hbuf := hm.buf none (by simp)
  refine ⟨sf, rest, hitems, hslot.now, ?_, ?_, ?_, ?_, ?_, ?_, ?_⟩
  · show Stored rest (hd + 1) s.mem.mem ((s.putThief i .head (hd + 1) (.detached hd)).mem.buf none)
    rw [hbuf]
    refine ⟨?_, h.stored.above⟩
    apply h.stored.kept.mono
    rintro μ ⟨htail, hcells⟩
    refine ⟨by omega, ?_⟩
    intro k sf' hk hlt
    rw [show hd + 1 + k = hd + (k + 1) by omega] at hlt ⊢
    exact hcells (k + 1) sf' (hnext k sf' hk) hlt
  · intro k sf' hk
    rw [view_congr hbuf rfl, show hd + 1 + k = hd + (k + 1) by omega]
    exact h.slots (k + 1) sf' (hnext k sf' hk)
  · intro sf' hmem
    apply h.frames
    rw [hitems]
    exact List.mem_cons_of_mem _ hmem
  · intro hl
    simp [State.putThief, State.goes, hlock] at hl
  · exact fun _ => Nat.le_of_eq hexc.symm
  · rw [hm.owner]
    refine h.owner.frame hm.lock hm.lock' hbuf (fun _ _ _ => rfl) hend ?_ rfl rfl
    intro hnil
    rw [hitems] at hnil
    cases hnil
  · intro j
    by_cases hj : j = i
    · subst hj
      have hpc' : (s.putThief j .head (hd + 1) (.detached hd)).thief j = .inside (.detached hd) := by
        simp [State.putThief, State.goes]
      rw [hpc']
      refine ⟨hlock, only_store hb, rfl, ?_, ?_, hexc, sf, by simp, ?_⟩
      · simp [State.putThief, hhead]
      · simp [State.putThief]
      · show Always _ s.mem.mem ((s.putThief j .head (hd + 1) (.detached hd)).mem.buf none)
        rw [hbuf]
        exact hslot
    · rw [hm.thief j hj]
      exact (h.thief j).outside (hm.others j hj).1 (hm.others j hj).2 (hm.buf _ (by simpa using hj)) (hm.steal j hj)

/-- **Inside the lock**, one case for each place: `increment_E`, its fence, the two comparisons, the store to
    `head`, with which the frame is stolen, the load of the frame, and `decrement_E` with its fence when nothing is
    stolen. -/
theorem matched_thief_inside {p : ThiefInside} (h : Rel s d hd) (hpc : s.thief i = .inside p)
    (hstep : stepThiefInside s i p = some (s', o)) : Matched d s' o := by
  obtain ⟨hlock, hp⟩ := h.holds hpc
  have hload : Drained s.mem (some i) → ∀ l, s.loadThief i l = s.mem.mem l :=
    fun hb l => congrFun (StoreBuffer.view_of_drained hb) l
  cases p with
  | locked =>
      obtain ⟨hb, hlevel, hcalled⟩ := hp
      simp only [stepThiefInside, hload hb, hlevel.2] at hstep
      cases hstep
      apply Matched.silent hd
      apply h.thief_puts hlock
      exact ⟨only_store hb, hlevel.1, by simp, hcalled⟩
  | incremented =>
      obtain ⟨-, hhead, hexc, hcalled⟩ := hp
      simp only [stepThiefInside] at hstep
      obtain ⟨hb, rfl, rfl⟩ := fenceThief_cases hstep
      rw [StoreBuffer.view_of_drained hb] at hexc
      exact Matched.silent hd (h.thief_goes hlock ⟨hb, hhead, hexc, hcalled⟩)
  | fenced =>
      obtain ⟨hb, hhead, hexc, hcalled⟩ := hp
      simp only [stepThiefInside, hload hb, hhead] at hstep
      split at hstep
      · rename_i hlt
        cases hstep
        apply Matched.silent hd
        apply h.thief_goes hlock
        exact ⟨hb, hhead, hexc, hcalled, h.oldest hlt⟩
      · cases hstep
        exact Matched.silent hd (h.thief_goes hlock ⟨hb, hhead, hexc, hcalled⟩)
  | belowTail =>
      simp only [stepThiefInside] at hstep
      split at hstep
      · cases hstep
        exact Matched.silent hd (h.thief_goes hlock hp)
      · cases hstep
        obtain ⟨hb, hhead, hexc, hcalled, -⟩ := hp
        exact Matched.silent hd (h.thief_goes hlock ⟨hb, hhead, hexc, hcalled⟩)
  | success =>
      obtain ⟨sf, rest, hitems, hslot, hrel⟩ := h.thief_takes hpc
      obtain ⟨hb, hhead, -, hcalled, -⟩ := hp
      simp only [stepThiefInside, hload hb, hhead, hslot] at hstep
      split at hstep
      · rename_i hzero
        exact absurd hzero (h.frames sf (by simp [hitems]))
      · cases hstep
        exact Matched.before (.stealTakes i) _ (by simp [Deque.step, hitems, hcalled]) (Matched.silent (hd + 1) hrel)
  | detached k =>
      obtain ⟨honly, hk, hle, hhead, hexc, sf, hdone, hslot⟩ := hp
      simp only [stepThiefInside] at hstep
      cases hstep
      apply Matched.silent hd
      have hload' : s.loadThief i (.slot k) = sf := by
        rw [← hslot.now]
        apply StoreBuffer.commit_of_not_mem
        intro w hw
        rw [honly w hw]
        simp
      rw [hload']
      exact h.thief_goes hlock ⟨honly, hle, hhead, hexc, hdone⟩
  | taken sf =>
      obtain ⟨-, -, hhead, hexc, hdone⟩ := hp
      simp only [stepThiefInside, State.unlockThief] at hstep
      split at hstep
      · rename_i hb
        cases hstep
        rw [StoreBuffer.view_of_drained hb] at hhead
        apply Matched.single (.stealReturns i) { d with steal := Function.update d.steal i .idle } hd
        · simp [Deque.step, hdone]
        · exact h.thief_unlocks hlock hb ⟨hhead, hexc⟩
      · cases hstep
  | failing =>
      obtain ⟨hb, hhead, hexc, hcalled⟩ := hp
      simp only [stepThiefInside, hload hb, hexc] at hstep
      cases hstep
      apply Matched.silent hd
      apply h.thief_puts hlock
      exact ⟨only_store hb, hhead, by simp, hcalled⟩
  | decremented =>
      obtain ⟨-, hhead, hexc, hcalled⟩ := hp
      simp only [stepThiefInside] at hstep
      obtain ⟨hb, rfl, rfl⟩ := fenceThief_cases hstep
      rw [StoreBuffer.view_of_drained hb] at hexc
      exact Matched.silent hd (h.thief_goes hlock ⟨hb, ⟨hhead, hexc⟩, hcalled⟩)
  | leaving =>
      obtain ⟨hb, hlevel, hcalled⟩ := hp
      simp only [stepThiefInside, State.unlockThief, if_pos (show s.mem.buf (some i) = [] from hb)] at hstep
      cases hstep
      apply Matched.single (.stealFails i) { d with steal := Function.update d.steal i .idle } hd
      · simp [Deque.step, hcalled]
      · exact h.thief_unlocks hlock hb hlevel
  | failed => exact hp.elim

/-! ## Outside the lock

A thief without the lock has only its own place in the code. It may begin, find the lock taken and give up, or
exchange the lock, which drains its buffer. -/

/-- The worker does not look at the thieves' progress. -/
theorem OwnerRel.steal {m : Mem} {lock : Option Thread} {pc : OwnerPc} (h : OwnerRel hd d m lock pc)
    (f : Nat → Progress Nat) : OwnerRel hd { d with steal := f } m lock pc := by
  cases pc with
  | inside p =>
      refine ⟨h.1, ?_⟩
      cases p with
      | checkLeave won => cases won <;> exact h.2
      | _ => exact h.2
  | _ => exact h

/-- Thief `i` goes on without the lock, and memory stays. -/
theorem Rel.thief_apart (h : Rel s d hd) {pc : ThiefPc} {p : Progress Nat}
    (hpc : ThiefRel hd { d with steal := Function.update d.steal i p } s.mem s.lock i pc) :
    Rel (s.goes i pc) { d with steal := Function.update d.steal i p } hd where
  stored := h.stored
  slots := h.slots
  frames := h.frames
  free := h.free
  exc := h.exc
  owner := h.owner.steal _
  thief j := by
    by_cases hj : j = i
    · rw [hj, show (s.goes i pc).thief i = pc by simp [State.goes]]
      exact hpc
    · rw [show (s.goes i pc).thief j = s.thief j by simp [State.goes, hj]]
      have ha : Apart hd d s.mem { d with steal := Function.update d.steal i p } s.mem := by
        apply Apart.refl
        rfl
      exact (h.thief j).apart ha (by simp [hj])

/-- Thief `i` begins. -/
theorem matched_steal (h : Rel s d hd) (hstep : step n s (.steal i) = some (s', o)) : Matched d s' o := by
  simp only [step] at hstep
  split at hstep
  · rename_i hpc
    cases hstep
    have ht := h.thief i
    rw [hpc] at ht
    obtain ⟨hfree, hb, hidle⟩ := ht
    apply Matched.single (.steal i) { d with steal := Function.update d.steal i .called } hd
    · simp [Deque.step, hidle]
    · apply h.thief_apart
      exact ⟨hfree, hb, by simp⟩
  · cases hstep

/-- Thief `i` has exchanged the lock. -/
theorem Rel.thief_locks (h : Rel s d hd) (hpc : s.thief i = .trying) (hlock : s.lock = none) :
    Rel { s.goes i (.inside .locked) with lock := some (some i) } d hd := by
  have ht := h.thief i
  rw [hpc] at ht
  obtain ⟨-, hb, hcalled⟩ := ht
  have hm : ThiefMoves i s { s.goes i (.inside .locked) with lock := some (some i) } d d := by
    refine ⟨by simp [hlock], by simp, ?_, rfl, ?_, fun _ _ => rfl, fun _ _ => rfl, rfl, rfl⟩
    · intro j hj
      simp [hlock, Ne.symm hj]
    · intro j hj
      simp [State.goes, hj]
  apply h.thief_moves hm
  · rfl
  · rfl
  · intro hl
    simp at hl
  · have hpc' : ({ s.goes i (.inside .locked) with lock := some (some i) } : State).thief i = .inside .locked := by
      simp [State.goes]
    rw [hpc']
    exact ⟨rfl, hb, h.free hlock, hcalled⟩

/-- **A thief goes on**: it exchanges the lock, finds it taken and gives up, or takes a step inside it. -/
theorem matched_thief (h : Rel s d hd) (hstep : stepThief s i = some (s', o)) : Matched d s' o := by
  cases hpc : s.thief i with
  | idle => simp [stepThief, hpc] at hstep
  | inside p =>
      simp only [stepThief, hpc] at hstep
      exact matched_thief_inside h hpc hstep
  | trying =>
      simp only [stepThief, hpc] at hstep
      split at hstep
      · split at hstep
        · rename_i hlock
          cases hstep
          exact Matched.silent hd (h.thief_locks hpc hlock)
        · cases hstep
          have ht := h.thief i
          rw [hpc] at ht
          obtain ⟨hfree, hb, hcalled⟩ := ht
          apply Matched.single (.stealFails i) { d with steal := Function.update d.steal i .idle } hd
          · simp [Deque.step, hcalled]
          · apply h.thief_apart
            exact ⟨hfree, hb, by simp⟩
      · cases hstep

/-- Thief `i` leaves before it has raised `exc`. -/
theorem matched_giveUp (h : Rel s d hd) (hstep : step n s (.giveUp i) = some (s', o)) : Matched d s' o := by
  simp only [step] at hstep
  split at hstep
  · rename_i hpc
    cases hstep
    obtain ⟨hlock, hp⟩ := h.holds hpc
    exact Matched.silent hd (h.thief_goes hlock hp)
  · cases hstep

/-- Thief `i` may take the frame and does not. -/
theorem matched_abort (h : Rel s d hd) (hstep : step n s (.abort i) = some (s', o)) : Matched d s' o := by
  simp only [step] at hstep
  split at hstep
  · rename_i hpc
    cases hstep
    obtain ⟨hlock, hb, hhead, hexc, hcalled, -⟩ := h.holds hpc
    exact Matched.silent hd (h.thief_goes hlock ⟨hb, hhead, hexc, hcalled⟩)
  · cases hstep

/-! ## Flushes

The stores of a thief are to `head` and to `exc`, and reach memory at the latest when it gives the lock back. The
worker may be in the middle of a pop meanwhile; the store it has to see is the one to `exc`, and `increment_E` has a
fence behind it. -/

/-- What a thief has waiting: stores to `head` or `exc`, and only while it holds the lock. A store to `head` is of
    the place where the deque begins by now. -/
theorem Rel.thief_waiting (h : Rel s d hd) {l : Loc} {v : Nat} {ws : List (Loc × Nat)}
    (hbuf : s.mem.buf (some i) = (l, v) :: ws) : ∃ p, s.thief i = .inside p ∧ (l = .head ∧ v = hd ∨ l = .exc ∧ hd ≤ v) := by
  have ht := h.thief i
  have hnot : ¬Drained s.mem (some i) := by simp [Drained, hbuf]
  cases hpc : s.thief i with
  | idle =>
      rw [hpc] at ht
      exact absurd ht.2.1 hnot
  | trying =>
      rw [hpc] at ht
      exact absurd ht.2.1 hnot
  | inside p =>
      rw [hpc] at ht
      refine ⟨p, rfl, ?_⟩
      have hp := ht.2
      have honly : ∀ {l' : Loc} {v' : Nat}, Only l' v' (s.mem.buf (some i)) → l = l' ∧ v = v' := by
        intro l' v' ho
        rw [hbuf] at ho
        simpa using ho (l, v) (by simp)
      cases p with
      | incremented =>
          obtain ⟨rfl, rfl⟩ := honly hp.1
          exact Or.inr ⟨rfl, by omega⟩
      | decremented =>
          obtain ⟨rfl, rfl⟩ := honly hp.1
          exact Or.inr ⟨rfl, by omega⟩
      | detached k =>
          obtain ⟨rfl, rfl⟩ := honly hp.1
          exact Or.inl ⟨rfl, rfl⟩
      | taken sf =>
          obtain ⟨rfl, rfl⟩ := honly hp.1
          exact Or.inl ⟨rfl, rfl⟩
      | failed => exact hp.elim
      | locked => exact absurd hp.1 hnot
      | fenced => exact absurd hp.1 hnot
      | belowTail => exact absurd hp.1 hnot
      | success => exact absurd hp.1 hnot
      | failing => exact absurd hp.1 hnot
      | leaving => exact absurd hp.1 hnot

/-- The thief's side when its store is flushed. -/
theorem ThiefInsideRel.flush {m m' : Mem} {p : ThiefInside} (h : ThiefInsideRel hd d m i p)
    (hout : ∀ w ∈ m.buf none, w.1 ≠ .head ∧ w.1 ≠ .exc) (hf : m.flush (some i) = some m') : ThiefInsideRel hd d m' i p := by
  have hview := StoreBuffer.view_flush_self hf
  obtain ⟨l, v, ws, hbuf, hmem, hself, hother⟩ := StoreBuffer.flush_cases hf
  have hnot : ¬Drained m (some i) := by simp [Drained, hbuf]
  have honly : ∀ {l' : Loc} {v' : Nat}, Only l' v' (m.buf (some i)) →
      l = l' ∧ v = v' ∧ Only l' v' (m'.buf (some i)) := by
    intro l' v' ho
    rw [hbuf] at ho
    rw [hself]
    have hfirst := ho (l, v) (by simp)
    simp only [Prod.mk.injEq] at hfirst
    exact ⟨hfirst.1, hfirst.2, fun w hw => ho w (List.mem_cons_of_mem _ hw)⟩
  cases p with
  | incremented =>
      obtain ⟨ho, hhead, hexc, hcalled⟩ := h
      obtain ⟨rfl, rfl, ho⟩ := honly ho
      exact ⟨ho, by simp [hmem, hhead], by rw [hview]; exact hexc, hcalled⟩
  | decremented =>
      obtain ⟨ho, hhead, hexc, hcalled⟩ := h
      obtain ⟨rfl, rfl, ho⟩ := honly ho
      exact ⟨ho, by simp [hmem, hhead], by rw [hview]; exact hexc, hcalled⟩
  | detached k =>
      obtain ⟨ho, hk, -, hhead, hexc, sf, hdone, hslot⟩ := h
      obtain ⟨rfl, rfl, ho⟩ := honly ho
      refine ⟨ho, hk, by simp [hmem], by rw [hview]; exact hhead, by simp [hmem, hexc], sf, hdone, ?_⟩
      rw [hother none (by simp), hmem]
      exact hslot.other (fun _ hμ => by simpa using hμ) (fun w hw => (hout w hw).1)
  | taken sf =>
      obtain ⟨ho, -, hhead, hexc, hdone⟩ := h
      obtain ⟨rfl, rfl, ho⟩ := honly ho
      exact ⟨ho, by simp [hmem], by rw [hview]; exact hhead, by simp [hmem, hexc], hdone⟩
  | failed => exact h.elim
  | locked => exact absurd h.1 hnot
  | fenced => exact absurd h.1 hnot
  | belowTail => exact absurd h.1 hnot
  | success => exact absurd h.1 hnot
  | failing => exact absurd h.1 hnot
  | leaving => exact absurd h.1 hnot

/-- **A store of a thief reaches memory.** It is to `head` or `exc`, and nothing that the worker relies on outside
    the lock is below the new value: `exc` stays at or above the place where the deque begins. -/
theorem rel_flush_thief {m' : Mem} (h : Rel s d hd) (hf : s.mem.flush (some i) = some m') :
    Rel { s with mem := m' } d hd := by
  obtain ⟨l, v, ws, hbuf, hmem, hself, hother⟩ := StoreBuffer.flush_cases hf
  obtain ⟨p, hpc, hwait⟩ := h.thief_waiting hbuf
  obtain ⟨hlock, hp⟩ := h.holds hpc
  have hfree : s.lock ≠ some none := by simp [hlock]
  have hout := (h.owner.outside hfree).2
  have hnone := hother none (by simp)
  have hhe : l = .head ∨ l = .exc := hwait.imp And.left And.left
  have hl : ∀ w ∈ s.mem.buf none, w.1 ≠ l := by
    intro w hw
    rcases hhe with rfl | rfl
    · exact (hout w hw).1
    · exact (hout w hw).2
  have hsame : ∀ l', l' ≠ .head → l' ≠ .exc → m'.mem l' = s.mem.mem l' := by
    intro l' hh he
    rw [hmem]
    rcases hhe with rfl | rfl
    · exact Function.update_of_ne hh _ _
    · exact Function.update_of_ne he _ _
  refine ⟨⟨?_, ?_⟩, ?_, h.frames, ?_, ?_, ?_, ?_⟩
  · rw [hnone, hmem]
    refine h.stored.kept.other ?_ hl
    intro μ hμ
    rcases hhe with rfl | rfl
    · simpa [Kept] using hμ
    · simpa [Kept] using hμ
  · rw [hnone, hmem]
    refine h.stored.above.other ?_ hl
    intro μ w hμ
    rcases hhe with rfl | rfl
    · simpa [CellAbove] using hμ
    · simpa [CellAbove] using hμ
  · intro k sf hk
    rw [view_congr hnone (hsame _ (by simp) (by simp))]
    exact h.slots k sf hk
  · intro hl
    rw [hlock] at hl
    cases hl
  · intro _
    rw [hmem]
    rcases hwait with ⟨rfl, -⟩ | ⟨rfl, hv⟩
    · simpa using h.exc hfree
    · simpa using hv
  · exact h.owner.frame hfree hfree hnone hsame rfl (fun hnil => hnil) rfl rfl
  · intro j
    by_cases hj : j = i
    · subst hj
      show ThiefRel hd d m' s.lock j (s.thief j)
      rw [hpc]
      exact ⟨hlock, hp.flush hout hf⟩
    · have hjlock : s.lock ≠ some (some j) := by simp [hlock, Ne.symm hj]
      exact (h.thief j).outside hjlock hjlock (hother _ (by simpa using hj)) rfl

/-! ## Whole runs

Both sides together: every step of the protocol is matched by the deque, so by `Lib.Simulation` every trace of the
protocol is one of the deque. -/

/-- **Every step of the protocol is a step of the deque**, or none. The worker's steps are in the module before, the
    thieves' are here, and what waits for reaching memory is on either side. -/
theorem simulates (ltqsize : Nat) : Machine.Simulates (step ltqsize) Deque.step (fun s d => ∃ hd, Rel s d hd) where
  sim s a s' o d hrel hstep := by
    obtain ⟨hd, h⟩ := hrel
    suffices hm : Matched d s' o by
      obtain ⟨d', hd', htr, hrel'⟩ := hm
      exact ⟨d', htr, hd', hrel'⟩
    cases a with
    | detach sf => exact matched_detach h hstep
    | undo => exact matched_undo h hstep
    | pop => exact matched_pop h hstep
    | protect v => exact matched_protect h hstep
    | setup => exact matched_setup h hstep
    | owner => exact matched_owner h hstep
    | steal i => exact matched_steal h hstep
    | thief i => exact matched_thief h hstep
    | giveUp i => exact matched_giveUp h hstep
    | abort i => exact matched_abort h hstep
    | flush t =>
        simp only [step, Option.map_eq_some_iff] at hstep
        obtain ⟨m', hf, heq⟩ := hstep
        cases heq
        cases t with
        | none => exact Matched.silent hd (rel_flush_owner h hf)
        | some i => exact Matched.silent hd (rel_flush_thief h hf)

end FOrder.The
