import FOrder.OrderMaint.BatcherLocks

/-!
# `OrderMaint.BatcherSafe` — no insert during a relabel

The rest of the steps keep the invariant on the mutexes, so it holds in every run: while a structure is relabelled
the batch has the mutexes of all workers, and batches do not overlap.

`BatcherLocks` states the invariant `Locks` and proves it for the steps of `join_batch`. What is left is in three
groups, and each has a lemma that says what its steps have in common:

- the steps of the batch (`Locks.work`): the worker stays in the batch or goes back to the loop of `execute_batch`,
  no mutex but the lock of batches is written, and the batch stays active, or the worker that runs it stores
  `pending_batch.id`, after which it is not;
- the steal (`Locks.stepSteal`): a worker in the loop of `execute_batch` becomes the second one to run the batch;
- the steps outside `join_batch` (`Locks.setOwn`, `Locks.inside`): a worker locks or unlocks its own mutex, or
  writes to a structure or to fields of its own while it has it.

The batch is described by its place in the code and the workers that run it, `Batch.Runs`. A step of the batch
changes both together, so `Crew.work` asks for the new place, who runs it, and the parity of `g_relabel_id` there.
-/

namespace FOrder.Batcher

open OrderMaint
open Machine (Trace)

variable {p : Nat} {s s' : State} {leader : Option Nat} {i : Nat} {pc : Pc} {site : Site} {shl : Nat → Nat}

/-! ## The batch -/

/-- A worker that runs a part of the batch goes on with it. Of the shared variables only the structures, the batch,
    `batch_lock`, `g_relabel_id` and `pending_batch.id` may be written; the mutexes, the owner and the flag stay as
    the leader has made them. -/
structure Works (s s' : State) (i : Nat) (pc : Pc) : Prop extends Moves s s' i pc where
  muts : s'.muts = s.muts
  relabelMutex : s'.relabelMutex = s.relabelMutex
  inProgress : s'.inProgress = s.inProgress
  ownerId : s'.ownerId = s.ownerId
  batchId : (s'.worker i).batchId = (s.worker i).batchId

/-- The batch is another. Worker `i` runs the new one if and only if its new place is in the batch; for every other
    worker nothing changes. -/
theorem Crew.work (h : Crew p s) (hi : i < p) {c c' : Batch} (hc : s.batch = some c) (hm : Moves s s' i pc)
    (hc' : s'.batch = some c') (hself : pc.inBatch = true ↔ c'.Runs i) (hothers : ∀ j, j ≠ i → (c'.Runs j ↔ c.Runs j))
    (hsound : c'.Sound) (hparity : s'.relabelId % 2 = 1 ↔ c'.relabelling = true) : Crew p s' where
  workers j hj := by
    rw [hm.elsewhere (by omega)]
    exact h.workers j hj
  runs j := by
    have hnew : (∃ b, s'.batch = some b ∧ b.Runs j) ↔ c'.Runs j := by
      rw [hc']
      exact ⟨fun ⟨b, hb, hrun⟩ => Option.some.inj hb ▸ hrun, fun hrun => ⟨c', rfl, hrun⟩⟩
    rw [hnew]
    by_cases hji : j = i
    · subst hji
      rw [hm.here]
      exact hself
    · rw [hm.elsewhere hji, hothers j hji, h.runs j, hc]
      exact ⟨fun ⟨b, hb, hrun⟩ => Option.some.inj hb ▸ hrun, fun hrun => ⟨c, rfl, hrun⟩⟩
  sound b hb := by
    rw [hc'] at hb
    cases hb
    exact hsound
  parity := by
    rw [hparity, hc']
    exact ⟨fun hrel => ⟨c', rfl, hrel⟩, fun ⟨b, hb, hrel⟩ => Option.some.inj hb ▸ hrel⟩

/-- Where a worker that runs the batch may go. -/
inductive Working (site : Site) : Pc → Prop where
  | busy : Working site (.join site .busy)
  | done : Working site (.join site .waitId)
  | failed : Working site (.failed .relabel)

/-- None of these places is in a critical section or only for the leader, the leader may be at each of them, and the
    leader has done the same to the shared variables at all three. -/
theorem Working.plain (h : Working site pc) : pc.critical = false ∧ pc.leads = false ∧ pc.canLead = true ∧
    pc.joined = true ∧ ∀ p k, pc.board p k = Pc.board p k (.join site .busy) := by
  cases h <;> exact ⟨rfl, rfl, rfl, rfl, fun _ _ => rfl⟩

/-- **A step of the batch.** The board of the leader is the same before and after: if the worker that moves is the
    leader, by `Working.plain`, and otherwise because the leader does not move. A batch that is active in the next
    state was active before, with the same id, so the leader still has it. -/
theorem Locks.work (h : Locks p s leader) (hpc : s.pc i = .join site .busy) (hw : Works s s' i pc)
    (hpc' : Working site pc) (hcrew : Crew p s') (hlock : BatchLock s (s.board p leader) → BatchLock s' (s.board p leader))
    (hactive : ∀ c', s'.batch = some c' → c'.active = true →
      s'.pendingId = s.pendingId ∧ ∃ c, s.batch = some c ∧ c.active = true) : Locks p s' leader := by
  obtain ⟨hcrit, hleads, hcan, hjoined, hboard⟩ := hpc'.plain
  have hsame : s'.board p leader = s.board p leader := by
    by_cases hl : leader = some i
    · subst hl
      rw [board_self hw.toMoves, hboard]
      simp only [State.board]
      rw [hpc]
    · exact board_other hw.toMoves hl
  refine ⟨hcrew, ?_, ?_, ?_, ?_, ?_⟩
  · rw [hsame]
    exact ⟨h.shared.toMutexes.stay hw.toMoves hw.muts (by rw [hcrit, hpc]; rfl), hw.relabelMutex.trans h.shared.relabelMutex,
      hw.inProgress.trans h.shared.inProgress, hw.ownerId.trans h.shared.ownerId⟩
  · rw [hsame]
    exact hlock h.batchLock
  · intro j hj
    by_cases hji : j = i
    · subst hji
      rw [hw.here, hleads] at hj
      cases hj
    · rw [hw.elsewhere hji] at hj
      exact h.leads.leads j hj
  · intro k hk
    by_cases hki : k = i
    · subst hki
      rw [hw.here]
      exact hcan
    · rw [hw.elsewhere hki]
      exact h.leads.role k hk
  · intro c' hc' hact
    obtain ⟨hid, c, hc, hact⟩ := hactive c' hc' hact
    obtain ⟨k, hk, hj, hbid⟩ := h.leads.active c hc hact
    refine ⟨k, hk, ?_, ?_⟩
    · by_cases hki : k = i
      · subst hki
        rw [hw.here]
        exact hjoined
      · rw [hw.elsewhere hki]
        exact hj
    · by_cases hki : k = i
      · subst hki
        rw [hw.batchId, hid]
        exact hbid
      · rw [hw.others k hki, hid]
        exact hbid

/-- The lock of batches, while the batch goes on and has not got to its last stores. -/
theorem BatchLock.goesOn {b : Board} (h : BatchLock s b) {c c' : Batch} (hc : s.batch = some c)
    (hc' : s'.batch = some c') (hlock : s'.batchLock = s.batchLock) (hnot : ¬∃ k, c = .unlocking k)
    (hnot' : ¬∃ k, c' = .unlocking k) : BatchLock s' b where
  quiet hnone := by
    rw [hc'] at hnone
    cases hnone
  running d hd := by
    rw [hc'] at hd
    cases hd
    obtain ⟨hlocked, howner, hboard⟩ := h.running c hc
    rw [hlock]
    refine ⟨hlocked, ?_, hboard⟩
    rw [howner]
    exact ⟨fun hk => absurd hk hnot, fun hk => absurd hk hnot'⟩

/-- A part of the batch that has changed nothing but the batch, and perhaps a structure. -/
theorem works_batch {t : State} (hpc : s.pc i = .join site .busy) (hworker : t.worker = s.worker) (hmuts : t.muts = s.muts)
    (hrelabel : t.relabelMutex = s.relabelMutex) (hprogress : t.inProgress = s.inProgress)
    (howner : t.ownerId = s.ownerId) : Works s t i (.join site .busy) where
  here := by
    unfold State.pc at hpc ⊢
    rw [hworker]
    exact hpc
  others j _ := by rw [hworker]
  muts := hmuts
  relabelMutex := hrelabel
  inProgress := hprogress
  ownerId := howner
  batchId := by rw [hworker]

/-- It has nothing more to do, and goes back to the loop of `execute_batch`, or to the assertion that has failed. -/
theorem works_goes {t : State} (hworker : t.worker = (s.goes i pc).worker) (hmuts : t.muts = s.muts)
    (hrelabel : t.relabelMutex = s.relabelMutex) (hprogress : t.inProgress = s.inProgress)
    (howner : t.ownerId = s.ownerId) : Works s t i pc where
  toMoves := .of_update hworker rfl
  muts := hmuts
  relabelMutex := hrelabel
  inProgress := hprogress
  ownerId := howner
  batchId := by
    rw [hworker]
    simp [State.goes]

section Relabel

variable {c : Batch} {o : Order} {next : State → State}

/-- A relabel that fails leaves its batch where it is. That this never happens is a matter of the structures, not of
    the locks, and is proved in `BatcherRuns`. -/
theorem Locks.relabelFails (h : Locks p s leader) (hi : i < p) (hpc : s.pc i = .join site .busy) :
    Locks p (s.goes i (.failed .relabel)) leader := by
  have hw : Works s (s.goes i (.failed .relabel)) i (.failed .relabel) := works_goes rfl rfl rfl rfl rfl
  refine h.work hpc hw .failed ?_ (fun hlock => hlock.stay rfl rfl rfl) ?_
  · exact h.crew.move hw.toMoves hi (by rw [hpc]; rfl) rfl rfl
  · intro c hc hact
    exact ⟨rfl, c, hc, hact⟩

/-- **A relabel of one structure.** It lies between the two `g_relabel_id++`, before and after. `next` is what the
    batch does with the result: it moves to its next place `c'`, and may send the worker back. -/
theorem Locks.relabel (h : Locks p s leader) (c' : Batch) (hi : i < p) (hpc : s.pc i = .join site .busy) (hc : s.batch = some c)
    (hact : c.active = true) (hnot' : ¬∃ k, c' = .unlocking k) (hpc' : Working site pc)
    (hw : ∀ t : State, t.worker = s.worker → t.muts = s.muts → t.relabelMutex = s.relabelMutex →
      t.inProgress = s.inProgress → t.ownerId = s.ownerId → Works s (next t) i pc)
    (hbatch : ∀ t, (next t).batch = some c' ∧ (next t).batchLock = t.batchLock ∧ (next t).relabelId = t.relabelId ∧
      (next t).pendingId = t.pendingId)
    (hself : pc.inBatch = true ↔ c'.Runs i) (hothers : ∀ j, j ≠ i → (c'.Runs j ↔ c.Runs j)) (hsound : c'.Sound)
    (hrel : c.relabelling = true) (hrel' : c'.relabelling = true) :
    Locks p (s.relabel shl i o next) leader := by
  unfold State.relabel
  cases hr : (s.orders o).relabel shl with
  | none => exact h.relabelFails hi hpc
  | some omrd =>
      have hwork : Works s (next (s.setOrder o omrd)) i pc := hw (s.setOrder o omrd) rfl rfl rfl rfl rfl
      obtain ⟨hc', hlock', hid', hpid'⟩ := hbatch (s.setOrder o omrd)
      have hparity : s.relabelId % 2 = 1 := h.crew.parity.mpr ⟨c, hc, hrel⟩
      refine h.work hpc hwork hpc' ?_ ?_ ?_
      · refine h.crew.work hi hc hwork.toMoves hc' hself hothers hsound ?_
        rw [hid']
        exact ⟨fun _ => hrel', fun _ => hparity⟩
      · intro hlock
        refine hlock.goesOn hc hc' hlock' ?_ hnot'
        rintro ⟨k, rfl⟩
        cases hact
      · intro d _ _
        exact ⟨hpid', c, hc, hact⟩

end Relabel

/-- **A step of a worker in the batch.** One case for each place of the batch. From `.starting` to `.stopping` the
    batch stays active, and the two increments of `g_relabel_id` open and close the part in which the id is odd;
    `.terminating` stores the id, and from then on the leader may leave the loop while the last two stores are still
    to come. -/
theorem Locks.stepBusy (h : Locks p s leader) (hi : i < p) (hpc : s.pc i = .join site .busy) {c : Batch}
    (hc : s.batch = some c) (hstep : Batcher.stepBusy shl s i site c = some s') : Locks p s' leader := by
  have hsound := h.crew.sound c hc
  have hparity : s.relabelId % 2 = 1 ↔ c.relabelling = true := by
    rw [h.crew.parity, hc]
    exact ⟨fun ⟨b, hb, hrel⟩ => Option.some.inj hb ▸ hrel, fun hrel => ⟨c, rfl, hrel⟩⟩
  cases c with
  | starting k =>
      simp only [Batcher.stepBusy] at hstep
      split at hstep
      · rename_i hik
        subst hik
        cases hstep
        have hw : Works s { s with relabelId := s.relabelId + 1, batch := some (.spawned i) } i (.join site .busy) :=
          works_batch hpc rfl rfl rfl rfl rfl
        refine h.work hpc hw .busy ?_ (fun hlock => hlock.goesOn hc rfl rfl (by simp) (by simp)) ?_
        · refine h.crew.work hi hc hw.toMoves rfl (by simp [Pc.inBatch, Batch.Runs]) (fun _ _ => Iff.rfl) trivial ?_
          have heven : s.relabelId % 2 ≠ 1 := fun hodd => by cases hparity.mp hodd
          show (s.relabelId + 1) % 2 = 1 ↔ _
          simp only [Batch.relabelling, iff_true]
          omega
        · intro c' hc' hact
          exact ⟨rfl, _, hc, rfl⟩
      · cases hstep
  | spawned k =>
      simp only [Batcher.stepBusy] at hstep
      split at hstep
      · rename_i hik
        subst hik
        cases hstep
        exact h.relabel _ hi hpc hc rfl (by simp) .busy (fun t h1 h2 h3 h4 h5 => works_batch hpc h1 h2 h3 h4 h5)
          (fun t => ⟨rfl, rfl, rfl, rfl⟩) (by simp [Pc.inBatch, Batch.Runs]) (fun _ _ => Iff.rfl) trivial rfl rfl
      · cases hstep
  | continued k =>
      simp only [Batcher.stepBusy] at hstep
      split at hstep
      · rename_i hik
        subst hik
        cases hstep
        exact h.relabel _ hi hpc hc rfl (by simp) .busy (fun t h1 h2 h3 h4 h5 => works_batch hpc h1 h2 h3 h4 h5)
          (fun t => ⟨rfl, rfl, rfl, rfl⟩) (by simp [Pc.inBatch, Batch.Runs]) (fun _ _ => Iff.rfl) trivial rfl rfl
      · cases hstep
  | stolen k j english hebrew =>
      obtain ⟨hkj, hboth⟩ := hsound
      simp only [Batcher.stepBusy] at hstep
      split at hstep
      · rename_i hik
        obtain ⟨rfl, rfl⟩ := hik
        cases hstep
        cases hebrew with
        | true =>
            -- the thief is at the sync, and this worker goes on after it
            refine h.relabel (.stopping i) hi hpc hc rfl (by simp) .busy
              (fun t h1 h2 h3 h4 h5 => works_batch hpc h1 h2 h3 h4 h5) (fun t => ⟨rfl, rfl, rfl, rfl⟩)
              (by simp [Pc.inBatch, Batch.Runs]) (fun l hl => ?_) trivial rfl rfl
            simp [Batch.Runs, hl]
        | false =>
            refine h.relabel (.stolen i j true false) hi hpc hc rfl (by simp) .done
              (fun t h1 h2 h3 h4 h5 => works_goes (by simp [State.goes, h1]) h2 h3 h4 h5) (fun t => ⟨rfl, rfl, rfl, rfl⟩)
              (by simp [Pc.inBatch, Batch.Runs, hkj]) (fun l hl => ?_) ⟨hkj, rfl⟩ rfl rfl
            simp [Batch.Runs, hl]
      · rename_i hnot
        split at hstep
        · rename_i hij
          obtain ⟨rfl, rfl⟩ := hij
          cases hstep
          cases english with
          | true =>
              refine h.relabel (.stopping i) hi hpc hc rfl (by simp) .busy
                (fun t h1 h2 h3 h4 h5 => works_batch hpc h1 h2 h3 h4 h5) (fun t => ⟨rfl, rfl, rfl, rfl⟩)
                (by simp [Pc.inBatch, Batch.Runs]) (fun l hl => ?_) trivial rfl rfl
              simp [Batch.Runs, hl]
          | false =>
              refine h.relabel (.stolen k i false true) hi hpc hc rfl (by simp) .done
                (fun t h1 h2 h3 h4 h5 => works_goes (by simp [State.goes, h1]) h2 h3 h4 h5)
                (fun t => ⟨rfl, rfl, rfl, rfl⟩) (by simp [Pc.inBatch, Batch.Runs, hkj.symm]) (fun l hl => ?_)
                ⟨hkj, rfl⟩ rfl rfl
              simp [Batch.Runs, hl]
        · cases hstep
  | stopping k =>
      simp only [Batcher.stepBusy] at hstep
      split at hstep
      · rename_i hik
        subst hik
        cases hstep
        have hw : Works s { s with relabelId := s.relabelId + 1, batch := some (.terminating i) } i (.join site .busy) :=
          works_batch hpc rfl rfl rfl rfl rfl
        refine h.work hpc hw .busy ?_ (fun hlock => hlock.goesOn hc rfl rfl (by simp) (by simp)) ?_
        · refine h.crew.work hi hc hw.toMoves rfl (by simp [Pc.inBatch, Batch.Runs]) (fun _ _ => Iff.rfl) trivial ?_
          have hodd : s.relabelId % 2 = 1 := hparity.mpr rfl
          show (s.relabelId + 1) % 2 = 1 ↔ _
          simp only [Batch.relabelling, Bool.false_eq_true, iff_false]
          omega
        · intro c' hc' hact
          exact ⟨rfl, _, hc, rfl⟩
      · cases hstep
  | terminating k =>
      simp only [Batcher.stepBusy] at hstep
      split at hstep
      · rename_i hik
        subst hik
        cases hstep
        have hw : Works s { s with pendingId := s.pendingId + 1, batch := some (.releasing i) } i (.join site .busy) :=
          works_batch hpc rfl rfl rfl rfl rfl
        refine h.work hpc hw .busy ?_ (fun hlock => hlock.goesOn hc rfl rfl (by simp) (by simp)) ?_
        · exact h.crew.work hi hc hw.toMoves rfl (by simp [Pc.inBatch, Batch.Runs]) (fun _ _ => Iff.rfl) trivial hparity
        · intro c' hc' hact
          cases hc'
          cases hact
      · cases hstep
  | releasing k =>
      simp only [Batcher.stepBusy] at hstep
      split at hstep
      · rename_i hik
        subst hik
        cases hstep
        have hw : Works s { s with batchLock := { s.batchLock with owner := none }, batch := some (.unlocking i) } i
            (.join site .busy) := works_batch hpc rfl rfl rfl rfl rfl
        refine h.work hpc hw .busy ?_ ?_ ?_
        · exact h.crew.work hi hc hw.toMoves rfl (by simp [Pc.inBatch, Batch.Runs]) (fun _ _ => Iff.rfl) trivial hparity
        · intro hlock
          obtain ⟨hlocked, -, hboard⟩ := hlock.running _ hc
          refine ⟨?_, ?_⟩
          · rintro ⟨⟩
          · rintro c' ⟨⟩
            exact ⟨hlocked, by simp, hboard⟩
        · intro c' hc' hact
          cases hc'
          cases hact
      · cases hstep
  | unlocking k =>
      simp only [Batcher.stepBusy] at hstep
      split at hstep
      · rename_i hik
        subst hik
        cases hstep
        have hw : Works s { s.goes i (.join site .waitId) with
            batchLock := { s.batchLock with lock := false }, batch := none } i (.join site .waitId) :=
          works_goes rfl rfl rfl rfl rfl
        refine h.work hpc hw .done ?_ ?_ ?_
        · refine ⟨?_, ?_, ?_, ?_⟩
          · intro j hj
            rw [hw.elsewhere (by omega)]
            exact h.crew.workers j hj
          · intro j
            by_cases hji : j = i
            · subst hji
              rw [hw.here]
              simp [Pc.inBatch]
            · rw [hw.elsewhere hji, h.crew.runs j, hc]
              simp [Batch.Runs, hji]
          · rintro b ⟨⟩
          · show s.relabelId % 2 = 1 ↔ _
            rw [hparity]
            simp [Batch.relabelling]
        · intro hlock
          obtain ⟨-, howner, hboard⟩ := hlock.running _ hc
          refine ⟨?_, ?_⟩
          · intro _
            rw [hboard]
            simp [howner.mpr ⟨i, rfl⟩]
          · rintro c' ⟨⟩
        · rintro c' ⟨⟩
      · cases hstep

/-- **A steal.** The thief is in the loop of `execute_batch`, so it is another worker than the one that runs the
    spawned call, and the batch is sound: one of the two parts is still to be done by each of them. -/
theorem Locks.stepSteal (h : Locks p s leader) (hi : i < p) (hstep : Batcher.stepSteal s i = some s') :
    Locks p s' leader := by
  unfold Batcher.stepSteal at hstep
  split at hstep
  · rename_i k site hc hpc
    cases hstep
    have hparity : s.relabelId % 2 = 1 := h.crew.parity.mpr ⟨_, hc, rfl⟩
    have hki : k ≠ i := by
      rintro rfl
      have hin := (h.crew.runs k).mpr ⟨_, hc, rfl⟩
      rw [hpc] at hin
      cases hin
    have hm : Moves s { s.goes i (.join site .busy) with batch := some (.stolen k i false false) } i (.join site .busy) :=
      .of_update rfl rfl
    have hcrew : Crew p { s.goes i (.join site .busy) with batch := some (.stolen k i false false) } := by
      refine h.crew.work hi hc hm rfl (by simp [Pc.inBatch, Batch.Runs]) ?_ ⟨hki, rfl⟩ ?_
      · intro j hj
        simp [Batch.Runs, hj]
      · exact ⟨fun _ => rfl, fun _ => hparity⟩
    have hsame : State.board { s.goes i (.join site .busy) with batch := some (.stolen k i false false) } p leader =
        s.board p leader := by
      by_cases hl : leader = some i
      · subst hl
        rw [board_self hm]
        simp only [State.board]
        rw [hpc]
        rfl
      · exact board_other hm hl
    refine ⟨hcrew, ?_, ?_, ?_, ?_, ?_⟩
    · rw [hsame]
      exact ⟨h.shared.toMutexes.stay hm rfl (by rw [hpc]; rfl), h.shared.relabelMutex, h.shared.inProgress,
        h.shared.ownerId⟩
    · rw [hsame]
      exact h.batchLock.goesOn hc rfl rfl (by simp) (by simp)
    · intro j hj
      by_cases hji : j = i
      · subst hji
        rw [hm.here] at hj
        cases hj
      · rw [hm.elsewhere hji] at hj
        exact h.leads.leads j hj
    · intro l hl
      by_cases hli : l = i
      · subst hli
        rw [hm.here]
        rfl
      · rw [hm.elsewhere hli]
        exact h.leads.role l hl
    · intro c' hc' hact
      obtain ⟨l, hl, hj, hbid⟩ := h.leads.active _ hc rfl
      refine ⟨l, hl, ?_, ?_⟩
      · by_cases hli : l = i
        · subst hli
          rw [hm.here]
          rfl
        · rw [hm.elsewhere hli]
          exact hj
      · by_cases hli : l = i
        · subst hli
          simpa [State.goes] using hbid
        · rw [hm.others l hli]
          exact hbid
  · cases hstep

/-! ## The worker outside `join_batch` -/

/-- A worker locks or unlocks its own mutex. Before a lock the mutex is free, so it is not among those of the
    leader; before an unlock the worker is in its critical section, which is apart from those of the leader. -/
theorem Locks.setOwn (h : Locks p s leader) (hi : i < p) (hl : leader ≠ some i) {v : Bool} (hcrit : pc.critical = v)
    (hleads : pc.leads = false) (hin : pc.inBatch = (s.pc i).inBatch)
    (hbefore : if v then s.muts i = false else (s.pc i).critical = true) :
    Locks p ((s.setMut i v).goes i pc) leader := by
  have hm : Moves s ((s.setMut i v).goes i pc) i pc := Moves.goes fun _ _ => rfl
  have hsame := board_other (p := p) hm hl
  have hout : ¬((s.board p leader).lo ≤ i ∧ i < (s.board p leader).hi) := by
    intro hrange
    cases v with
    | true =>
        have hheld := (h.shared.held i).mpr (Or.inr hrange)
        rw [if_pos rfl] at hbefore
        rw [hbefore] at hheld
        cases hheld
    | false => exact h.shared.apart i hbefore hrange
  refine ⟨h.crew.move hm hi hin rfl rfl, ?_, ?_, h.leads.follow hm hl hleads rfl rfl⟩
  · rw [hsame]
    refine ⟨?_, h.shared.relabelMutex, h.shared.inProgress, h.shared.ownerId⟩
    refine h.shared.toMutexes.own hm ?_ ?_ fun _ => hout
    · intro j hj
      exact Function.update_of_ne hj v s.muts
    · show Function.update s.muts i v i = true ↔ _
      rw [Function.update_self, hcrit]
      simp [hout]
  · rw [hsame]
    exact h.batchLock.stay rfl rfl rfl

/-- The critical section is not the leader's: a worker that has become the leader is in `join_batch` until it has
    given the relabel mutex back. -/
theorem Locks.not_leader (h : Locks p s leader) (hcan : (s.pc i).canLead = false) : leader ≠ some i :=
  h.leads.not_leader hcan

/-- Whatever `checkAccepted` finds, the worker is still under its own mutex. -/
theorem checkAccepted_plain (s : State) (i : Nat) (path : Path) : (checkAccepted s i path).critical = true ∧
    (checkAccepted s i path).leads = false ∧ (checkAccepted s i path).inBatch = false := by
  generalize hpc : checkAccepted s i path = pc
  simp only [checkAccepted] at hpc
  split at hpc
  · split at hpc
    · subst hpc
      exact ⟨rfl, rfl, rfl⟩
    · split at hpc
      · subst hpc
        exact ⟨rfl, rfl, rfl⟩
      · split at hpc
        · subst hpc
          exact ⟨rfl, rfl, rfl⟩
        · split at hpc
          · subst hpc
            exact ⟨rfl, rfl, rfl⟩
          · subst hpc
            exact ⟨rfl, rfl, rfl⟩
  · subst hpc
    exact ⟨rfl, rfl, rfl⟩

/-- Behind `cas` and `add_heavy` the worker is still under its own mutex. -/
theorem caller_plain (c : Caller) : c.next.critical = true ∧ c.next.leads = false ∧ c.next.inBatch = false := by
  cases c <;> exact ⟨rfl, rfl, rfl⟩

/-- A step in the critical section that writes to a structure or to the worker. The invariant reads nothing of
    either but the place of the worker, and that stays in the critical section. -/
theorem Locks.inside (h : Locks p s leader) (hi : i < p) (hcrit : (s.pc i).critical = true) {t : State}
    (ht : ∀ j, j ≠ i → t.worker j = s.worker j) (hs : SameShared s t)
    (hpc : pc.critical = true ∧ pc.leads = false ∧ pc.inBatch = false) : Locks p (t.goes i pc) leader := by
  have hl : leader ≠ some i := by
    apply h.not_leader
    revert hcrit
    cases s.pc i with
    | failed a => cases a <;> simp [Pc.critical, Assertion.inside, Pc.canLead, Pc.leads, Pc.joined]
    | _ => simp [Pc.critical, Pc.canLead, Pc.leads, Pc.joined]
  have hin : (s.pc i).inBatch = false := by
    revert hcrit
    cases s.pc i with
    | failed a => cases a <;> simp [Pc.critical, Assertion.inside, Pc.inBatch]
    | _ => simp [Pc.critical, Pc.inBatch]
  refine h.follow (Moves.goes ht) hi hl ?_ hpc.2.1 (hpc.1.trans hcrit.symm) (hpc.2.2.trans hin.symm)
  exact ⟨hs.muts, hs.relabelMutex, hs.batchLock, hs.inProgress, hs.relabelId, hs.ownerId, hs.pendingId, hs.batch⟩

theorem sameShared_refl : SameShared s s := ⟨rfl, rfl, rfl, rfl, rfl, rfl, rfl, rfl⟩

theorem sameShared_setOrder {o : Order} {omrd : Omrd} : SameShared s (s.setOrder o omrd) :=
  ⟨rfl, rfl, rfl, rfl, rfl, rfl, rfl, rfl⟩

theorem sameShared_setFailed {v : Bool} : SameShared s (s.setFailed i v) := ⟨rfl, rfl, rfl, rfl, rfl, rfl, rfl, rfl⟩

theorem setFailed_others {v : Bool} {j : Nat} (hj : j ≠ i) : (s.setFailed i v).worker j = s.worker j := by
  simp only [State.setFailed]
  exact Function.update_of_ne hj _ _

theorem setBatchId_others {v : Option Nat} {j : Nat} (hj : j ≠ i) : (s.setBatchId i v).worker j = s.worker j := by
  simp only [State.setBatchId]
  exact Function.update_of_ne hj _ _

/-- **A step of a worker.** By its place: the lock and the unlock of its own mutex, the places between the two, and
    `join_batch`, which is `Locks.stepJoin`. -/
theorem Locks.stepWorker (h : Locks p s leader) (hi : i < p) {o : Option Label}
    (hstep : Batcher.stepWorker p s i = some (s', o)) : ∃ leader', Locks p s' leader' := by
  unfold Batcher.stepWorker at hstep
  cases hpc : s.pc i with
  | idle =>
      rw [hpc] at hstep
      cases hstep
  | trylock path =>
      have hl : leader ≠ some i := h.not_leader (by rw [hpc]; rfl)
      simp only [hpc] at hstep
      split at hstep
      · cases hstep
        refine ⟨leader, h.approach hi hl (by rw [hpc]; rfl) (by rw [hpc]; rfl) rfl rfl rfl⟩
      · rename_i hfree
        cases hstep
        exact ⟨leader, h.setOwn hi hl rfl rfl (by rw [hpc]; rfl) (by simpa using hfree)⟩
  | tryInsert path =>
      have hcrit : (s.pc i).critical = true := by rw [hpc]; rfl
      simp only [hpc] at hstep
      split at hstep
      · cases hstep
        exact ⟨leader, h.inside hi hcrit (fun _ _ => rfl) sameShared_refl ⟨rfl, rfl, rfl⟩⟩
      · split at hstep
        · cases hstep
          exact ⟨leader, h.inside hi hcrit (fun _ _ => rfl) sameShared_refl ⟨rfl, rfl, rfl⟩⟩
        · cases hstep
          exact ⟨leader, h.inside hi hcrit (fun _ _ => rfl) sameShared_refl ⟨rfl, rfl, rfl⟩⟩
        · cases hstep
          exact ⟨leader, h.inside hi hcrit (fun _ _ => rfl) sameShared_setOrder ⟨rfl, rfl, rfl⟩⟩
  | refused =>
      have hcrit : (s.pc i).critical = true := by rw [hpc]; rfl
      simp only [hpc] at hstep
      split at hstep
      · cases hstep
        exact ⟨leader, h.inside hi hcrit (fun _ _ => rfl) sameShared_refl ⟨rfl, rfl, rfl⟩⟩
      · rename_i heavy _
        cases hstep
        refine ⟨leader, h.inside hi hcrit (fun j hj => setFailed_others hj) sameShared_setFailed ?_⟩
        cases heavy <;> exact ⟨rfl, rfl, rfl⟩
  | cas c =>
      have hcrit : (s.pc i).critical = true := by rw [hpc]; rfl
      simp only [hpc] at hstep
      split at hstep
      · cases hstep
        exact ⟨leader, h.inside hi hcrit (fun _ _ => rfl) sameShared_refl ⟨rfl, rfl, rfl⟩⟩
      · split at hstep
        · cases hstep
          exact ⟨leader, h.inside hi hcrit (fun _ _ => rfl) sameShared_refl (caller_plain c)⟩
        · cases hstep
          exact ⟨leader, h.inside hi hcrit (fun _ _ => rfl) sameShared_setOrder ⟨rfl, rfl, rfl⟩⟩
  | addHeavy c =>
      have hcrit : (s.pc i).critical = true := by rw [hpc]; rfl
      simp only [hpc] at hstep
      split at hstep
      · cases hstep
        exact ⟨leader, h.inside hi hcrit (fun _ _ => rfl) sameShared_refl ⟨rfl, rfl, rfl⟩⟩
      · split at hstep
        · cases hstep
          exact ⟨leader, h.inside hi hcrit (fun _ _ => rfl) sameShared_refl ⟨rfl, rfl, rfl⟩⟩
        · cases hstep
          refine ⟨leader, h.inside hi hcrit (fun _ _ => rfl) sameShared_setOrder ?_⟩
          split
          · exact caller_plain c
          · exact ⟨rfl, rfl, rfl⟩
  | setBatchId =>
      have hcrit : (s.pc i).critical = true := by rw [hpc]; rfl
      simp only [hpc] at hstep
      cases hstep
      exact ⟨leader, h.inside hi hcrit (fun j hj => setBatchId_others hj) ⟨rfl, rfl, rfl, rfl, rfl, rfl, rfl, rfl⟩
        ⟨rfl, rfl, rfl⟩⟩
  | giveUp =>
      have hl : leader ≠ some i := h.not_leader (by rw [hpc]; rfl)
      simp only [hpc] at hstep
      cases hstep
      exact ⟨leader, h.setOwn hi hl rfl rfl (by rw [hpc]; rfl) (by rw [hpc]; rfl)⟩
  | join site j =>
      simp only [hpc] at hstep
      obtain ⟨t, ht, heq⟩ := Option.map_eq_some_iff.mp hstep
      cases heq
      exact h.stepJoin hi hpc ht
  | clearFailed =>
      have hl : leader ≠ some i := h.not_leader (by rw [hpc]; rfl)
      simp only [hpc] at hstep
      cases hstep
      refine ⟨leader, h.follow (Moves.goes fun j hj => setFailed_others hj) hi hl ?_ rfl (by rw [hpc]; rfl)
        (by rw [hpc]; rfl)⟩
      exact ⟨rfl, rfl, rfl, rfl, rfl, rfl, rfl, rfl⟩
  | accepted path =>
      have hcrit : (s.pc i).critical = true := by rw [hpc]; rfl
      simp only [hpc] at hstep
      cases hstep
      exact ⟨leader, h.inside hi hcrit (fun _ _ => rfl) sameShared_refl (checkAccepted_plain s i path)⟩
  | unlock =>
      have hl : leader ≠ some i := h.not_leader (by rw [hpc]; rfl)
      simp only [hpc] at hstep
      cases hstep
      exact ⟨leader, h.setOwn hi hl rfl rfl (by rw [hpc]; rfl) (by rw [hpc]; rfl)⟩
  | failed a =>
      rw [hpc] at hstep
      cases hstep

/-- **Every step keeps the invariant.** A call starts at `pthread_spin_trylock`, outside everything; the others are
    the lemmas above. -/
theorem Locks.step (h : Locks p s leader) {a : Action} {o : Option Label} (hstep : Batcher.step shl p s a = some (s', o)) :
    ∃ leader', Locks p s' leader' := by
  cases a with
  | insert i r =>
      simp only [Batcher.step] at hstep
      split at hstep
      · rename_i hcan
        obtain ⟨hi, hpc, -⟩ := hcan
        cases hstep
        have hl : leader ≠ some i := h.not_leader (by rw [hpc]; rfl)
        exact ⟨leader, h.follow (.of_update rfl rfl) hi hl ⟨rfl, rfl, rfl, rfl, rfl, rfl, rfl, rfl⟩ rfl (by rw [hpc]; rfl)
          (by rw [hpc]; rfl)⟩
      · cases hstep
  | worker i =>
      simp only [Batcher.step] at hstep
      split at hstep
      · rename_i hi
        exact h.stepWorker hi hstep
      · cases hstep
  | batch i =>
      simp only [Batcher.step] at hstep
      split at hstep
      · rename_i hi
        obtain ⟨t, ht, heq⟩ := Option.map_eq_some_iff.mp hstep
        cases heq
        unfold Batcher.stepBatch at ht
        split at ht
        · rename_i b site hb hpc
          exact ⟨leader, h.stepBusy hi hpc hb ht⟩
        · cases ht
      · cases hstep
  | steal i =>
      simp only [Batcher.step] at hstep
      split at hstep
      · rename_i hi
        obtain ⟨t, ht, heq⟩ := Option.map_eq_some_iff.mp hstep
        cases heq
        exact ⟨leader, h.stepSteal hi ht⟩
      · cases hstep

/-- **In every run** there is at most one leader, and the shared variables are what it has made them. Nothing is
    assumed of the structures, so this also holds in runs in which they would fail. -/
theorem locks_of_trace {orders : Orders} {tr : List Label} (h : Trace (step shl p) (init orders) tr s) :
    ∃ leader, Locks p s leader :=
  h.invariant (fun s => ∃ leader, Locks p s leader) ⟨none, locks_init p orders⟩
    fun _ _ _ _ ⟨_, hlocks⟩ hstep => hlocks.step hstep

end FOrder.Batcher
