import FOrder.OrderMaint.BatcherLists

/-!
# `OrderMaint.BatcherRuns` — inserts by many workers simulate abstract lists

Each step of a worker, of the batch and of a thief keeps what the lists are, and only the `om_insert` of a worker
changes them.

This module proves that `Batcher.step` is simulated by `Lists.step`, two lists into which every insert puts its node
at one instant. The relation `Rel` has three parts: the lock invariant of `BatcherLocks`, the relation `Data` of
`BatcherLists` between the structures and the abstract lists, and the bound `Fits` on the number of nodes.

## Which step is visible

- The action `.insert` is the call: the abstract list notes the request, and the structures stay as they are
  (`Data.call`).
- The `om_insert` of `try_insert`, when it is accepted, is the instant at which the insert takes effect:
  `Progress.called` becomes `Progress.done`, and the list gets the new node right after its base (`Data.stepTry`).
- The last `pthread_spin_unlock` is the return (`Lists.trace_returns`).
- Every other step is silent. It may write to a structure (a mark, an entry of the stack, a relabel), but no name is
  added and no two names change places, so the abstract lists do not move.

## Why the silent steps are harmless

A worker under its own mutex writes to the list of its base only, and no two inserts have the same base
(`Data.apart`), so what another worker has found out about its own base stays true (`Fact.keep`). A relabel changes
all lists at once, but only while the batch has every mutex: `Locks.no_critical` says that nobody is under its own
mutex then, and the facts of a worker outside its critical section survive a relabel (`Fact.relabel`).

The assertions come out of the same facts. `Data` allows one failed assertion only, the one on the lock of batches;
a step into any other `.failed` place would break the fact of the worker, so each lemma below shows that the place
is not reached.

The proofs follow the code: one lemma for each place of `Pc`, put together in `Data.stepWorker`; one for each step
of a batch, put together in `Data.stepBusy`; and `Rel.step` has a case for each action.
-/

namespace FOrder.Batcher

open OrderMaint
open Machine (Trace)

variable {p : Nat} {s s' : State} {leader : Option Nat} {i : Nat} {pc : Pc} {site : Site} {shl : Nat → Nat} {o : Order}
  {d d' : Lists}

/-! ## What the mutexes give -/

/-- **Under its own mutex** a worker sees no batch in progress. The leader sets `g_batch_in_progress` only when it
    has the mutexes of all workers, the one of this worker included, and gives none of them back before it has
    cleared the flag; a batch that has not been terminated has its leader in between. So
    `assert(g_batch_in_progress == 0)` holds wherever it stands in `try_insert` and `add_heavy`. -/
theorem Locks.inProgress_of_critical (h : Locks p s leader) (hcrit : (s.pc i).critical = true) :
    s.inProgress = false ∧ ∀ c, s.batch = some c → c.active = false := by
  have hi : i < p := by
    by_contra hge
    rw [h.crew.workers i (Nat.le_of_not_lt hge)] at hcrit
    cases hcrit
  have hout := h.shared.apart i hcrit
  rw [h.shared.inProgress]
  cases leader with
  | none =>
      refine ⟨rfl, ?_⟩
      intro c hc
      by_contra hact
      obtain ⟨k, hk, -⟩ := h.leads.active c hc (by simpa using hact)
      cases hk
  | some k =>
      have hboard : ((s.pc k).board p k).inProgress = true → ((s.pc k).board p k).lo = 0 ∧ ((s.pc k).board p k).hi = p := by
        cases s.pc k with
        | join _ j => cases j <;> simp [Pc.board, Board.free]
        | failed a => cases a <;> simp [Pc.board, Board.free]
        | _ => simp [Pc.board]
      have hnot : ((s.pc k).board p k).inProgress = false := by
        by_contra hyes
        obtain ⟨hlo, hhi⟩ := hboard (by simpa using hyes)
        apply hout
        simp only [State.board]
        rw [hlo, hhi]
        exact ⟨Nat.zero_le i, hi⟩
      refine ⟨hnot, ?_⟩
      intro c hc
      by_contra hact
      obtain ⟨l, hl, hjoined, -⟩ := h.leads.active c hc (by simpa using hact)
      cases hl
      have hyes : ((s.pc k).board p k).inProgress = true := by
        revert hjoined
        cases s.pc k with
        | join _ j => cases j <;> simp [Pc.joined, Pc.board]
        | failed a => cases a <;> simp [Pc.joined, Pc.board]
        | _ => simp [Pc.joined]
      rw [hnot] at hyes
      cases hyes

/-- During a batch nobody is under its own mutex: otherwise `Locks.inProgress_of_critical` would make the batch
    inactive. -/
theorem Locks.no_critical (h : Locks p s leader) {c : Batch} (hc : s.batch = some c) (hact : c.active = true) :
    ∀ j, (s.pc j).critical = false := by
  intro j
  by_contra hcrit
  rw [(h.inProgress_of_critical (by simpa using hcrit)).2 c hc] at hact
  cases hact

/-- What the lock invariant says of a failed assertion. A worker at `.failed .mutexOwner` or `.failed .batchOwnerId`
    would be the leader, but the leader is nowhere that `canLead` excludes. -/
theorem Locks.not_failed (h : Locks p s leader) : s.pc i ≠ .failed .mutexOwner ∧ s.pc i ≠ .failed .batchOwnerId := by
  constructor
  · intro hpc
    have hl := h.leads.leads i (by rw [hpc]; rfl)
    have hrole := h.leads.role i hl
    rw [hpc] at hrole
    cases hrole
  · intro hpc
    have hl := h.leads.leads i (by rw [hpc]; rfl)
    have hrole := h.leads.role i hl
    rw [hpc] at hrole
    cases hrole

/-! ## `join_batch` -/

/-- Where `join_batch` may lead. None of its steps writes to a structure; the worker keeps its request, and its
    place is another place of the same call of `join_batch`, a failed assertion on a mutex, or the place behind the
    call, `site.next`. The case split is the definition of `stepJoin`, one case for each constructor of `Join`. -/
theorem stepJoin_spec {j : Join} (hstep : stepJoin p s i site j = some s') :
    ∃ pc b, s'.orders = s.orders ∧ s'.worker = Function.update s.worker i { s.worker i with pc := pc, batchId := b } ∧
      ((∃ j', pc = .join site j') ∨ pc = site.next ∨
        ∃ a, pc = .failed a ∧ (a = .mutexOwner ∨ a = .nextBatchOwner ∨ a = .batchOwnerId)) := by
  have hgoes : ∀ (t : State) (pc : Pc), t.orders = s.orders → t.worker = (s.goes i pc).worker →
      ((∃ j', pc = .join site j') ∨ pc = site.next ∨
        ∃ a, pc = .failed a ∧ (a = .mutexOwner ∨ a = .nextBatchOwner ∨ a = .batchOwnerId)) →
      ∃ pc b, t.orders = s.orders ∧ t.worker = Function.update s.worker i { s.worker i with pc := pc, batchId := b } ∧
        ((∃ j', pc = .join site j') ∨ pc = site.next ∨
          ∃ a, pc = .failed a ∧ (a = .mutexOwner ∨ a = .nextBatchOwner ∨ a = .batchOwnerId)) := by
    intro t pc horders hworker hpc
    exact ⟨pc, (s.worker i).batchId, horders, hworker, hpc⟩
  have hsets : ∀ (t : State) (v : Option Nat) (pc : Pc), t.orders = s.orders →
      t.worker = ((s.setBatchId i v).goes i pc).worker → (∃ j', pc = .join site j') →
      ∃ pc b, t.orders = s.orders ∧ t.worker = Function.update s.worker i { s.worker i with pc := pc, batchId := b } ∧
        ((∃ j', pc = .join site j') ∨ pc = site.next ∨
          ∃ a, pc = .failed a ∧ (a = .mutexOwner ∨ a = .nextBatchOwner ∨ a = .batchOwnerId)) := by
    intro t v pc horders hworker hpc
    refine ⟨pc, v, horders, ?_, Or.inl hpc⟩
    rw [hworker]
    simp [State.goes, State.setBatchId]
  cases j with
  | batchify =>
      simp only [stepJoin] at hstep
      split at hstep
      · cases hstep
        exact hsets _ _ _ rfl rfl ⟨_, rfl⟩
      · cases hstep
        exact hgoes _ _ rfl rfl (Or.inl ⟨_, rfl⟩)
  | tryLockAll =>
      simp only [stepJoin] at hstep
      split at hstep
      · cases hstep
        exact hgoes _ _ rfl rfl (Or.inl ⟨_, rfl⟩)
      · cases hstep
        exact hgoes _ _ rfl rfl (Or.inl ⟨_, rfl⟩)
  | tryRelabelMutex =>
      simp only [stepJoin] at hstep
      split at hstep
      · cases hstep
        exact hgoes _ _ rfl rfl (Or.inl ⟨_, rfl⟩)
      · cases hstep
        exact hgoes _ _ rfl rfl (Or.inl ⟨_, rfl⟩)
  | ownRelabelMutex =>
      simp only [stepJoin] at hstep
      split at hstep
      · cases hstep
        exact hgoes _ _ rfl rfl (Or.inl ⟨_, rfl⟩)
      · cases hstep
        exact hgoes _ _ rfl rfl (Or.inr (Or.inr ⟨_, rfl, by simp⟩))
  | setNextBatchOwner =>
      simp only [stepJoin] at hstep
      split at hstep
      · cases hstep
        exact hgoes _ _ rfl rfl (Or.inr (Or.inr ⟨_, rfl, by simp⟩))
      · cases hstep
        exact hgoes _ _ rfl rfl (Or.inl ⟨_, rfl⟩)
  | ownBatchLock =>
      simp only [stepJoin] at hstep
      split at hstep
      · cases hstep
        exact hgoes _ _ rfl rfl (Or.inl ⟨_, rfl⟩)
      · cases hstep
        exact hgoes _ _ rfl rfl (Or.inr (Or.inr ⟨_, rfl, by simp⟩))
  | lockMutex n =>
      simp only [stepJoin] at hstep
      split at hstep
      · split at hstep
        · cases hstep
        · cases hstep
          exact hgoes _ _ rfl rfl (Or.inl ⟨_, rfl⟩)
      · cases hstep
        exact hgoes _ _ rfl rfl (Or.inl ⟨_, rfl⟩)
  | setBatchOwnerId =>
      simp only [stepJoin] at hstep
      split at hstep
      · cases hstep
        exact hgoes _ _ rfl rfl (Or.inl ⟨_, rfl⟩)
      · cases hstep
        exact hgoes _ _ rfl rfl (Or.inr (Or.inr ⟨_, rfl, by simp⟩))
  | invoke =>
      cases hstep
      exact hsets _ _ _ rfl rfl ⟨_, rfl⟩
  | busy => cases hstep
  | waitId =>
      simp only [stepJoin] at hstep
      split at hstep
      · split at hstep
        · cases hstep
          exact hgoes _ _ rfl rfl (Or.inl ⟨_, rfl⟩)
        · cases hstep
          exact hgoes _ _ rfl rfl (Or.inl ⟨_, rfl⟩)
      · cases hstep
        exact hgoes _ _ rfl rfl (Or.inl ⟨_, rfl⟩)
  | waitOwner =>
      simp only [stepJoin] at hstep
      split at hstep
      · cases hstep
        exact hgoes _ _ rfl rfl (Or.inl ⟨_, rfl⟩)
      · cases hstep
        exact hgoes _ _ rfl rfl (Or.inl ⟨_, rfl⟩)
  | steal =>
      cases hstep
      exact hgoes _ _ rfl rfl (Or.inl ⟨_, rfl⟩)
  | leave =>
      cases hstep
      exact hsets _ _ _ rfl rfl ⟨_, rfl⟩
  | compare =>
      simp only [stepJoin] at hstep
      split at hstep
      · cases hstep
        exact hgoes _ _ rfl rfl (Or.inl ⟨_, rfl⟩)
      · cases hstep
        exact hgoes _ _ rfl rfl (Or.inr (Or.inl rfl))
  | stop =>
      cases hstep
      exact hgoes _ _ rfl rfl (Or.inl ⟨_, rfl⟩)
  | disown =>
      cases hstep
      exact hgoes _ _ rfl rfl (Or.inl ⟨_, rfl⟩)
  | unlockMutex n =>
      simp only [stepJoin] at hstep
      split at hstep
      · cases hstep
        exact hgoes _ _ rfl rfl (Or.inl ⟨_, rfl⟩)
      · cases hstep
        exact hgoes _ _ rfl rfl (Or.inl ⟨_, rfl⟩)
  | disownRelabelMutex =>
      simp only [stepJoin] at hstep
      split at hstep
      · cases hstep
        exact hgoes _ _ rfl rfl (Or.inl ⟨_, rfl⟩)
      · cases hstep
        exact hgoes _ _ rfl rfl (Or.inr (Or.inr ⟨_, rfl, by simp⟩))
  | unlockRelabelMutex =>
      cases hstep
      exact hgoes _ _ rfl rfl (Or.inr (Or.inl rfl))

/-- **`join_batch`** leaves what the insert knows. By `stepJoin_spec` the structures are the same, and the fact of a
    worker in `join_batch` is the fact of the place behind it; the failed assertions on mutexes are excluded by the
    lock invariant of the next state. -/
theorem Data.stepJoin (h : Data s d) (hlocks : Locks p s' leader) {j : Join} (hpc : s.pc i = .join site j)
    (hstep : Batcher.stepJoin p s i site j = some s') : Data s' d := by
  obtain ⟨pc, b, horders, hworker, hcase⟩ := stepJoin_spec hstep
  have hw : s'.worker i = { s.worker i with pc := pc, batchId := b } := by rw [hworker, Function.update_self]
  have hothers : ∀ j, j ≠ i → s'.worker j = s.worker j := fun j hj => by rw [hworker, Function.update_of_ne hj]
  have hplain : (s.pc i).plain = true := by rw [hpc]; rfl
  have hold : (s.worker i).pc = .join site j := hpc
  have hfact := h.facts i
  unfold Fact at hfact
  rw [hold] at hfact
  have hprogress : progressOf (s.worker i) = .called (s.worker i).req := by
    unfold progressOf
    rw [hold]
  refine h.silent horders hothers hw rfl hplain ?_ ?_ ?_
  · rcases hcase with ⟨j', rfl⟩ | rfl | ⟨a, rfl, -⟩
    · rfl
    · cases site <;> rfl
    · rfl
  · rcases hcase with ⟨j', rfl⟩ | rfl | ⟨a, rfl, ha⟩
    · cases site <;> exact hfact
    · cases site with
      | fast => exact hfact
      | gaveUp => exact hfact
      | retry => exact hfact
    · have hpc' : s'.pc i = .failed a := congrArg Worker.pc hw
      rcases ha with rfl | rfl | rfl
      · exact absurd hpc' hlocks.not_failed.1
      · exact ⟨rfl, (h.facts i).base_mem (Pc.ne_idle_of_plain hplain)⟩
      · exact absurd hpc' hlocks.not_failed.2
  · rw [hprogress]
    rcases hcase with ⟨j', rfl⟩ | rfl | ⟨a, rfl, -⟩
    · rfl
    · cases site <;> rfl
    · rfl

/-! ## The other steps of a worker -/

/-- The end of `insert`: no assertion fails. The new node is in the list of its base (`Together`), so `om_get_tl`
    gives the same leaf for both. On the slow path the room behind the new node is `Light`, so `is_heavy` says no,
    and `insert_failed` has been cleared. -/
theorem checkAccepted_spec {path : Path} (hwf : WellFormed (s.omrd i).ds)
    (hfact : Fact (s.omrd i).ds { s.worker i with pc := .accepted path }) :
    checkAccepted s i path = .cas .last ∨ checkAccepted s i path = .unlock := by
  have htogether : (s.omrd i).ds.Together (s.worker i).req.base (s.worker i).req.new := by
    cases path with
    | fast => exact hfact
    | slow => exact hfact.1
  obtain ⟨b, hb, hbase, hnew⟩ := htogether
  obtain ⟨ab, hab, -, hablist, hbmem, -⟩ := getTl_spec hwf (mem_names.mpr ⟨b, hb, hbase⟩)
  obtain ⟨an, han, -, hanlist, hnmem, -⟩ := getTl_spec hwf (mem_names.mpr ⟨b, hb, hnew⟩)
  have hsame : an.list.above = ab.list.above := by
    rw [list_unique hwf hablist hb hbmem hbase, list_unique hwf hanlist hb hnmem hnew]
  obtain ⟨label, next, hfollow⟩ := follow_mem hnew
  have hheavy := isHeavy_eq hwf hb hnew hfollow
  simp only [checkAccepted, han, hab, hheavy, hsame, ne_eq, not_true_eq_false, if_false]
  cases path with
  | fast =>
      simp only [reduceCtorEq, false_and, if_false]
      split
      · exact Or.inl rfl
      · exact Or.inr rfl
  | slow =>
      obtain ⟨-, ⟨c, hc, label', next', hfollow', hlight⟩, hflag⟩ := hfact
      obtain rfl := list_unique hwf hb hc hnew (follow_names hfollow')
      have hlight' := not_isHeavy hwf hb hnew hfollow' hlight
      rw [hheavy] at hlight'
      simp only [Option.some.injEq] at hlight'
      have hflag : (s.worker i).insertFailed = false := hflag
      rw [hlight', hflag]
      simp

/-- A call, an insert that takes effect, and a return of the abstract lists. These are the three transitions of
    `Lists.step`, each as a run of one step; the simulation answers every visible step of the code with one of them.
    -/
theorem Lists.trace_takes {r : Req} (hprogress : d.progress i = .called r) (hbase : r.base ∈ d.lists r.order)
    (hnew : r.new ∉ d.lists r.order) :
    Trace Lists.step d [] ⟨Function.update d.lists r.order (insertAfter r.base r.new (d.lists r.order)),
      Function.update d.progress i .done⟩ := by
  apply Trace.single (a := Lists.Action.takes i) (o := none)
  simp [Lists.step, hprogress, hbase, hnew]

/-- The return of an insert that has taken effect. -/
theorem Lists.trace_returns (hprogress : d.progress i = .done) :
    Trace Lists.step d [.ret i] { d with progress := Function.update d.progress i .idle } := by
  have hstep : Lists.step d (.returns i) =
      some ({ d with progress := Function.update d.progress i .idle }, some (.ret i)) := by
    simp [Lists.step, hprogress]
  exact Trace.single hstep

/-- The call of an insert, by a worker that has none in progress. -/
theorem Lists.trace_call {r : Req} (hprogress : d.progress i = .idle) (hbase : r.base ∈ d.lists r.order) :
    Trace Lists.step d [.call i r] { d with progress := Function.update d.progress i (.called r) } := by
  have hstep : Lists.step d (.call i r) =
      some ({ d with progress := Function.update d.progress i (.called r) }, some (.call i r)) := by
    simp [Lists.step, hprogress, hbase]
  exact Trace.single hstep

/-- A step inside `insert` that leaves the structures alone, and of which the abstract list does not hear:
    `Data.goes` for a worker that is not idle before or after. -/
theorem Data.quiet (h : Data s d) (pc : Pc) (hplain : (s.pc i).plain = true) (hadd : pc.adding = false)
    (hfact : Fact (s.omrd i).ds { s.worker i with pc := pc })
    (hprogress : progressOf { s.worker i with pc := pc } = progressOf (s.worker i)) {t : State}
    (horders : t.orders = s.orders) (hworker : t.worker = (s.goes i pc).worker) :
    ∃ d', Trace Lists.step d [] d' ∧ Data t d' :=
  ⟨d, Trace.refl, h.goes pc hplain hadd hfact hprogress horders hworker⟩

/-- **`try_insert`.** A refusal leaves the structure alone and closes the room behind the base
    (`Omrd.tryInsert_refused`); an accepted insert adds the node (`Omrd.tryInsert_keeps`), and that is the instant
    at which the abstract list takes it. The other workers keep their facts by `Data.write`. A second try may be
    refused again, when no relabel has come in between: then the room behind the base is closed as before. -/
theorem Data.stepTry (h : Data s d) {path : Path} (hpc : s.pc i = .tryInsert path) (hprog : s.inProgress = false)
    {l : Option Label} (hstep : Batcher.stepWorker p s i = some (s', l)) :
    ∃ d', Trace Lists.step d l.toList d' ∧ Data s' d' := by
  have hold : (s.worker i).pc = .tryInsert path := hpc
  have hfact := h.facts i
  unfold Fact at hfact
  rw [hold] at hfact
  have hfresh : Fresh (s.omrd i).ds (s.worker i).req := by
    cases path with
    | fast => exact hfact
    | slow => exact hfact.1.toFresh
  have hcalled : d.progress i = .called (s.worker i).req := by
    rw [h.progress i]
    unfold progressOf
    rw [hold]
  have hplain : (s.pc i).plain = true := by rw [hpc]; rfl
  obtain ⟨rest, -, -, hok⟩ := h.stacked (s.worker i).req.order
  have hne := tryInsert_withRest_ne _ (Omrd.tryInsert_ne_none hok hfresh.base hfresh.new)
  unfold Batcher.stepWorker at hstep
  simp only [hpc, hprog, Bool.false_eq_true, if_false] at hstep
  split at hstep
  · rename_i htry
    exact absurd htry hne
  · rename_i htry
    cases hstep
    have hclosed := Omrd.tryInsert_refused hok hfresh.base hfresh.new (tryInsert_withRest_none _ htry)
    refine h.quiet .refused hplain rfl ?_ ?_ rfl rfl
    · exact ⟨hfresh, Or.inl hclosed⟩
    · rw [← h.progress i, hcalled]
      rfl
  · rename_i omrd htry
    cases hstep
    obtain ⟨-, -, hnames, hkeeps, htogether, hlight, hopen⟩ :=
      Omrd.tryInsert_keeps hok hfresh.base hfresh.new (tryInsert_withRest _ htry)
    have hlists := h.lists (s.worker i).req.order
    have hnames' : omrd.ds.root.names =
        insertAfter (s.worker i).req.base (s.worker i).req.new (d.lists (s.worker i).req.order) := by
      rw [hlists]
      exact hnames
    refine ⟨_, Lists.trace_takes hcalled ?_ ?_, ?_⟩
    · rw [hlists]
      exact hfresh.base
    · rw [hlists]
      exact hfresh.new
    · refine h.write (.accepted path) _ rfl ?_ ?_ (Pc.ne_idle_of_plain hplain) hkeeps ?_ ?_ (h.stack_insert hpc hfresh htry) ?_ ?_ rfl
      · intro j hj
        exact Function.update_of_ne hj _ _
      · exact Function.update_self i _ _
      · intro x hx
        exact (Option.some.inj hx).symm
      · intro x hx
        rw [hnames', hlists] at hx
        exact ((mem_insertAfter hfresh.base).mp hx).symm
      · cases path with
        | fast => exact htogether
        | slow =>
            refine ⟨htogether, ?_, hfact.2⟩
            rcases hfact.1.room with hclosed | hspaced
            · exact absurd hclosed hopen
            · exact hlight hspaced
      · rw [hnames']

/-- **Marking a list.** A list that is marked already is on the stack, or its worker is about to put it there; a
    list that is not gets the mark, and the worker joins those of `Adds`. The mark writes to no label and no name.
    -/
theorem Data.stepCas (h : Data s d) {c : Caller} (hpc : s.pc i = .cas c) {l : Option Label}
    (hstep : Batcher.stepWorker p s i = some (s', l)) : ∃ d', Trace Lists.step d l.toList d' ∧ Data s' d' := by
  have hold : (s.worker i).pc = .cas c := hpc
  have hfact := h.facts i
  have hprogress := h.progress i
  unfold Fact at hfact
  unfold progressOf at hprogress
  rw [hold] at hfact hprogress
  have hwf := (h.stacked (s.worker i).req.order).wellFormed
  have hbase : (s.worker i).req.base ∈ (s.omrd i).ds.root.names := by
    cases c with
    | slowPath => exact hfact.base
    | last =>
        obtain ⟨b, hb, hmem, -⟩ := hfact
        exact mem_names.mpr ⟨b, hb, hmem⟩
  have hplain : (s.pc i).plain = true := by rw [hpc]; rfl
  obtain ⟨a, ha, -⟩ := getTl_spec hwf hbase
  have ha : getTl (s.omrd i) (s.worker i).req.base = some a := ha
  unfold Batcher.stepWorker at hstep
  simp only [hpc, ha] at hstep
  split at hstep
  · cases hstep
    refine h.quiet c.next hplain ?_ ?_ ?_ rfl rfl
    · cases c <;> rfl
    · cases c with
      | slowPath => exact hfact
      | last => exact hfact
    · rw [← h.progress i, hprogress]
      cases c <;> rfl
  · rename_i hheavy
    cases hstep
    obtain ⟨hkeeps, hnames⟩ := setHeavy_keeps hwf a.list.above
    have hnames' : (setHeavy (s.omrd i) a).ds.root.names = (s.omrd i).ds.root.names := hnames
    refine ⟨d, Trace.refl, h.write (.addHeavy c) none rfl ?_ ?_ (Pc.ne_idle_of_plain hplain) hkeeps ?_ ?_
      (h.stack_mark hpc hbase ha (by simpa using hheavy)) ?_ ?_ ?_⟩
    · intro j hj
      exact Function.update_of_ne hj _ _
    · exact Function.update_self i _ _
    · rintro x ⟨⟩
    · intro x hx
      rw [hnames'] at hx
      exact Or.inl hx
    · cases c with
      | slowPath =>
          refine hfact.keep ⟨hnames ▸ hfact.base, hnames ▸ hfact.new⟩ ?_
          intro P hP
          exact Or.inl (hkeeps.room_none hP)
      | last => exact hkeeps.together hfact
    · have hlists : (s.omrd i).ds.root.names = d.lists (s.worker i).req.order := (h.lists _).symm
      rw [hnames', hlists, Function.update_eq_self]
    · have hsame : progressOf { s.worker i with pc := .addHeavy c } = d.progress i := by
        rw [hprogress]
        cases c <;> rfl
      rw [hsame, Function.update_eq_self]

/-- **`add_heavy`.** The list goes from `Adds` to the stack. The leaf of the base has the level `MAX_LEVEL`, as in
    every well-formed tree. -/
theorem Data.stepAdd (h : Data s d) {c : Caller} (hpc : s.pc i = .addHeavy c) (hprog : s.inProgress = false)
    {l : Option Label} (hstep : Batcher.stepWorker p s i = some (s', l)) :
    ∃ d', Trace Lists.step d l.toList d' ∧ Data s' d' := by
  have hold : (s.worker i).pc = .addHeavy c := hpc
  have hfact := h.facts i
  have hprogress := h.progress i
  unfold Fact at hfact
  unfold progressOf at hprogress
  rw [hold] at hfact hprogress
  have hwf := (h.stacked (s.worker i).req.order).wellFormed
  have hbase : (s.worker i).req.base ∈ (s.omrd i).ds.root.names := by
    cases c with
    | slowPath => exact hfact.base
    | last =>
        obtain ⟨b, hb, hmem, -⟩ := hfact
        exact mem_names.mpr ⟨b, hb, hmem⟩
  have hidle : s.pc i ≠ .idle := by simp [hpc]
  obtain ⟨a, ha, -, -, -, hlevel⟩ := getTl_spec hwf hbase
  have ha : getTl (s.omrd i) (s.worker i).req.base = some a := ha
  unfold Batcher.stepWorker at hstep
  simp only [hpc, hprog, ha, hlevel, if_true, Bool.false_eq_true, if_false] at hstep
  cases hstep
  have hkeeps : (s.omrd i).ds.Keeps (s.omrd i).ds none :=
    ⟨fun b hb => ⟨b, hb, rfl, fun _ hx => hx, fun _ _ _ => rfl⟩⟩
  refine ⟨d, Trace.refl, h.write c.next none rfl ?_ ?_ hidle hkeeps ?_ ?_ (h.stack_add hpc hbase ha) ?_ ?_ ?_⟩
  · intro j hj
    exact Function.update_of_ne hj _ _
  · exact Function.update_self i _ _
  · rintro x ⟨⟩
  · intro x hx
    exact Or.inl hx
  · cases c with
    | slowPath => exact hfact
    | last => exact hfact
  · have hlists : (s.omrd i).ds.root.names = d.lists (s.worker i).req.order := (h.lists _).symm
    show d.lists = Function.update d.lists (s.worker i).req.order (s.omrd i).ds.root.names
    rw [hlists, Function.update_eq_self]
  · have hsame : progressOf { s.worker i with pc := c.next } = d.progress i := by
      rw [hprogress]
      cases c <;> rfl
    rw [hsame, Function.update_eq_self]

/-- **A step of a worker**, by the place it is at. The four places that write to a structure or the abstract list
    have lemmas of their own above; all others are `Data.quiet`, with the fact of the next place. -/
theorem Data.stepWorker (h : Data s d) (hlocks : Locks p s leader) {leader' : Option Nat} (hlocks' : Locks p s' leader')
    {l : Option Label} (hstep : Batcher.stepWorker p s i = some (s', l)) :
    ∃ d', Trace Lists.step d l.toList d' ∧ Data s' d' := by
  have hfact := h.facts i
  have hprogress := h.progress i
  have hwf := (h.stacked (s.worker i).req.order).wellFormed
  cases hpc : s.pc i with
  | idle =>
      unfold Batcher.stepWorker at hstep
      rw [hpc] at hstep
      cases hstep
  | trylock path =>
      have hold : (s.worker i).pc = .trylock path := hpc
      unfold Fact at hfact
      unfold progressOf at hprogress
      rw [hold] at hfact hprogress
      have hplain : (s.pc i).plain = true := by rw [hpc]; rfl
      unfold Batcher.stepWorker at hstep
      simp only [hpc] at hstep
      split at hstep
      · cases hstep
        refine h.quiet (.join path.site .batchify) hplain rfl ?_ ?_ rfl rfl
        · cases path <;> exact hfact
        · rw [← h.progress i, hprogress]
          cases path <;> rfl
      · cases hstep
        refine h.quiet (.tryInsert path) hplain rfl ?_ ?_ rfl rfl
        · cases path <;> exact hfact
        · rw [← h.progress i, hprogress]
          cases path <;> rfl
  | tryInsert path =>
      have hcrit : (s.pc i).critical = true := by rw [hpc]; rfl
      exact h.stepTry hpc (hlocks.inProgress_of_critical hcrit).1 hstep
  | refused =>
      have hold : (s.worker i).pc = .refused := hpc
      unfold Fact at hfact
      unfold progressOf at hprogress
      rw [hold] at hfact hprogress
      have hplain : (s.pc i).plain = true := by rw [hpc]; rfl
      obtain ⟨a, ha, -⟩ := getTl_spec hwf hfact.base
      obtain ⟨node, hlocate⟩ := locate_of_getTl ha
      have hheavy : heavyList (s.omrd i) (s.worker i).req.base = some a.list.heavy := by
        show (locate (s.orders (s.worker i).req.order).ds _).map _ = _
        rw [hlocate]
        rfl
      unfold Batcher.stepWorker at hstep
      simp only [hpc, hheavy] at hstep
      cases hstep
      refine ⟨d, Trace.refl, h.silent (i := i)
        (w := { s.worker i with pc := if a.list.heavy then .setBatchId else .cas .slowPath, insertFailed := true }) rfl
        ?_ ?_ rfl hplain ?_ ?_ ?_⟩
      · intro j hj
        simp [State.goes, State.setFailed, Function.update_of_ne hj]
      · simp [State.goes, State.setFailed]
      · cases a.list.heavy <;> rfl
      · cases a.list.heavy with
        | false => exact hfact
        | true => exact hfact
      · rw [← h.progress i, hprogress]
        cases a.list.heavy <;> rfl
  | cas c => exact h.stepCas hpc hstep
  | addHeavy c =>
      have hcrit : (s.pc i).critical = true := by rw [hpc]; rfl
      exact h.stepAdd hpc (hlocks.inProgress_of_critical hcrit).1 hstep
  | setBatchId =>
      have hold : (s.worker i).pc = .setBatchId := hpc
      unfold Fact at hfact
      unfold progressOf at hprogress
      rw [hold] at hfact hprogress
      have hplain : (s.pc i).plain = true := by rw [hpc]; rfl
      unfold Batcher.stepWorker at hstep
      simp only [hpc] at hstep
      cases hstep
      refine ⟨d, Trace.refl, h.silent (i := i) (w := { s.worker i with pc := .giveUp, batchId := some s.pendingId }) rfl
        ?_ ?_ rfl hplain rfl hfact ?_⟩
      · intro j hj
        simp [State.goes, State.setBatchId, Function.update_of_ne hj]
      · simp [State.goes, State.setBatchId]
      · rw [← h.progress i, hprogress]
        rfl
  | giveUp =>
      have hold : (s.worker i).pc = .giveUp := hpc
      unfold Fact at hfact
      unfold progressOf at hprogress
      rw [hold] at hfact hprogress
      unfold Batcher.stepWorker at hstep
      simp only [hpc] at hstep
      cases hstep
      refine h.quiet (.join .gaveUp .batchify) (by rw [hpc]; rfl) rfl hfact ?_ rfl rfl
      · rw [← h.progress i, hprogress]
        rfl
  | join site j =>
      unfold Batcher.stepWorker at hstep
      simp only [hpc] at hstep
      obtain ⟨t, ht, heq⟩ := Option.map_eq_some_iff.mp hstep
      cases heq
      exact ⟨d, Trace.refl, h.stepJoin hlocks' hpc ht⟩
  | clearFailed =>
      have hold : (s.worker i).pc = .clearFailed := hpc
      unfold Fact at hfact
      unfold progressOf at hprogress
      rw [hold] at hfact hprogress
      have hplain : (s.pc i).plain = true := by rw [hpc]; rfl
      unfold Batcher.stepWorker at hstep
      simp only [hpc] at hstep
      cases hstep
      refine ⟨d, Trace.refl, h.silent (i := i) (w := { s.worker i with pc := .trylock .slow, insertFailed := false }) rfl
        ?_ ?_ rfl hplain rfl ⟨hfact, rfl⟩ ?_⟩
      · intro j hj
        simp [State.goes, State.setFailed, Function.update_of_ne hj]
      · simp [State.goes, State.setFailed]
      · rw [← h.progress i, hprogress]
        rfl
  | accepted path =>
      have hold : (s.worker i).pc = .accepted path := hpc
      have hfact' : Fact (s.omrd i).ds { s.worker i with pc := .accepted path } := by
        rw [← hold]
        exact hfact
      have htogether : (s.omrd i).ds.Together (s.worker i).req.base (s.worker i).req.new := by
        cases path with
        | fast => exact hfact'
        | slow => exact hfact'.1
      unfold progressOf at hprogress
      rw [hold] at hprogress
      have hplain : (s.pc i).plain = true := by rw [hpc]; rfl
      unfold Batcher.stepWorker at hstep
      simp only [hpc] at hstep
      cases hstep
      rcases checkAccepted_spec hwf hfact' with hcheck | hcheck
      · rw [hcheck]
        refine h.quiet (.cas .last) hplain rfl htogether ?_ rfl rfl
        rw [← h.progress i, hprogress]
        rfl
      · rw [hcheck]
        refine h.quiet .unlock hplain rfl htogether ?_ rfl rfl
        rw [← h.progress i, hprogress]
        rfl
  | unlock =>
      have hold : (s.worker i).pc = .unlock := hpc
      unfold progressOf at hprogress
      rw [hold] at hprogress
      unfold Batcher.stepWorker at hstep
      simp only [hpc] at hstep
      cases hstep
      refine ⟨_, Lists.trace_returns hprogress, ?_⟩
      refine h.move (i := i) (w := { s.worker i with pc := .idle }) rfl ?_ ?_ rfl (fun hc => absurd rfl hc)
        rfl (by rw [hpc]; rfl) trivial rfl rfl
      · intro j hj
        exact Function.update_of_ne hj _ _
      · exact Function.update_self i _ _
  | failed a =>
      unfold Batcher.stepWorker at hstep
      rw [hpc] at hstep
      cases hstep

/-! ## The batch -/

/-- A worker that runs the batch goes on, and no structure is written. It stays in the batch or goes back to the
    loop of `execute_batch`; either way it is in the same call of `join_batch`, with the same fact. -/
theorem Data.work (h : Data s d) (hpc : s.pc i = .join site .busy) (horders : s'.orders = s.orders)
    (hworker : s'.worker = s.worker ∨ s'.worker = (s.goes i (.join site .waitId)).worker) : Data s' d := by
  have hold : (s.worker i).pc = .join site .busy := hpc
  have hplain : (s.pc i).plain = true := by rw [hpc]; rfl
  have hfact := h.facts i
  unfold Fact at hfact
  rw [hold] at hfact
  rcases hworker with hworker | hworker
  · refine h.silent (i := i) (w := s.worker i) horders (fun j _ => by rw [hworker]) (by rw [hworker]) rfl hplain ?_
      (h.facts i) rfl
    exact Pc.adding_of_plain hplain
  · refine h.goes (.join site .waitId) hplain rfl ?_ ?_ horders hworker
    · cases site <;> exact hfact
    · unfold progressOf
      rw [hold]

/-- Few nodes are few leaves: no list is empty, and a relabel makes at most one leaf for each node. -/
theorem Fits.leaves (h : Fits s) (hok : (s.orders o).Ok) : leavesAfter (s.orders o).ds (s.orders o).heavyNodes < 2 ^ 31 :=
  Nat.lt_of_le_of_lt (leavesAfter_le _ hok.nonempty) (h.order o)

/-- **A structure is relabelled.** Nobody is between its `CAS` and `add_heavy`, so the stack holds all marked lists
    and the structure is `Omrd.Ok`; then `Omrd.relabel_spec` keeps the names in their order, and `Omrd.relabel_room`
    says what becomes of the room behind the base of every insert that waits. -/
theorem Data.relabel (h : Data s d) (hnone : ∀ j, (s.pc j).critical = false) {omrd : Omrd} (hfits : Fits s)
    (hrelabel : (s.orders o).relabel shl = some omrd) : Data (s.setOrder o omrd) d := by
  have hok := (h.stacked o).ok hnone
  obtain ⟨omrd', hrelabel', hok', hnames, -⟩ := Omrd.relabel_spec shl hok (hfits.leaves hok)
  rw [hrelabel] at hrelabel'
  cases hrelabel'
  have hself : (s.setOrder o omrd).orders o = omrd := Function.update_self _ _ _
  have hother : ∀ o', o' ≠ o → (s.setOrder o omrd).orders o' = s.orders o' := fun o' ho => Function.update_of_ne ho _ _
  refine ⟨?_, ?_, h.apart, ?_, h.progress⟩
  · intro o'
    by_cases ho : o' = o
    · subst ho
      exact Stacked.of_ok (by rw [hself]; exact hok') hnone
    · apply (h.stacked o').same (hother o' ho)
      intro j t
      unfold Adds
      rw [hother o' ho]
      exact Iff.rfl
  · intro j
    show Fact ((s.setOrder o omrd).orders (s.worker j).req.order).ds (s.worker j)
    by_cases ho : (s.worker j).req.order = o
    · rw [ho, hself]
      have hfact := h.facts j
      unfold State.omrd at hfact
      rw [ho] at hfact
      exact hfact.relabel (hnone j) hnames fun P hP => Omrd.relabel_room shl hok (hfits.leaves hok) hrelabel hP
    · rw [hother _ ho]
      exact h.facts j
  · intro o'
    rw [h.lists o']
    by_cases ho : o' = o
    · subst ho
      rw [hself, hnames]
    · rw [hother o' ho]

/-- A relabel in the batch, and what comes after it. The relabel does not fail, so `State.relabel` goes on with
    `next`, which writes to no structure and may only send the worker back to the loop. -/
theorem Data.relabelThen (h : Data s d) (hlocks : Locks p s leader) (hpc : s.pc i = .join site .busy) {c : Batch}
    (hc : s.batch = some c) (hact : c.active = true) (hfits : Fits s) {next : State → State}
    (hnext : ∀ t : State, t.worker = s.worker → (next t).orders = t.orders ∧
      ((next t).worker = t.worker ∨ (next t).worker = (t.goes i (.join site .waitId)).worker)) :
    Data (s.relabel shl i o next) d := by
  have hnone := hlocks.no_critical hc hact
  have hok := (h.stacked o).ok hnone
  obtain ⟨omrd, hrelabel, -⟩ := Omrd.relabel_spec shl hok (hfits.leaves hok)
  unfold State.relabel
  rw [hrelabel]
  obtain ⟨horders, hworker⟩ := hnext (s.setOrder o omrd) rfl
  exact (h.relabel hnone hfits hrelabel).work hpc horders hworker

/-- **A step of a worker in the batch**, by where the batch is. Each of the two structures is relabelled at two
    places of the code, after a steal or without one; the other steps write to counters and locks that the lists do
    not depend on. -/
theorem Data.stepBusy (h : Data s d) (hlocks : Locks p s leader) (hpc : s.pc i = .join site .busy) {c : Batch}
    (hc : s.batch = some c) (hfits : Fits s) (hstep : Batcher.stepBusy shl s i site c = some s') : Data s' d := by
  cases c with
  | starting k =>
      simp only [Batcher.stepBusy] at hstep
      split at hstep
      · cases hstep
        exact h.work hpc rfl (Or.inl rfl)
      · cases hstep
  | spawned k =>
      simp only [Batcher.stepBusy] at hstep
      split at hstep
      · cases hstep
        exact h.relabelThen hlocks hpc hc rfl hfits fun t _ => ⟨rfl, Or.inl rfl⟩
      · cases hstep
  | continued k =>
      simp only [Batcher.stepBusy] at hstep
      split at hstep
      · cases hstep
        exact h.relabelThen hlocks hpc hc rfl hfits fun t _ => ⟨rfl, Or.inl rfl⟩
      · cases hstep
  | stolen k j english hebrew =>
      simp only [Batcher.stepBusy] at hstep
      split at hstep
      · cases hstep
        cases hebrew with
        | true => exact h.relabelThen hlocks hpc hc rfl hfits fun t _ => ⟨rfl, Or.inl rfl⟩
        | false => exact h.relabelThen hlocks hpc hc rfl hfits fun t _ => ⟨rfl, Or.inr rfl⟩
      · split at hstep
        · cases hstep
          cases english with
          | true => exact h.relabelThen hlocks hpc hc rfl hfits fun t _ => ⟨rfl, Or.inl rfl⟩
          | false => exact h.relabelThen hlocks hpc hc rfl hfits fun t _ => ⟨rfl, Or.inr rfl⟩
        · cases hstep
  | stopping k =>
      simp only [Batcher.stepBusy] at hstep
      split at hstep
      · cases hstep
        exact h.work hpc rfl (Or.inl rfl)
      · cases hstep
  | terminating k =>
      simp only [Batcher.stepBusy] at hstep
      split at hstep
      · cases hstep
        exact h.work hpc rfl (Or.inl rfl)
      · cases hstep
  | releasing k =>
      simp only [Batcher.stepBusy] at hstep
      split at hstep
      · cases hstep
        exact h.work hpc rfl (Or.inl rfl)
      · cases hstep
  | unlocking k =>
      simp only [Batcher.stepBusy] at hstep
      split at hstep
      · cases hstep
        exact h.work hpc rfl (Or.inr rfl)
      · cases hstep

/-- A steal moves the second call of the batch to another worker, and neither of them is in a critical section. -/
theorem Data.stepSteal (h : Data s d) (hstep : Batcher.stepSteal s i = some s') : Data s' d := by
  unfold Batcher.stepSteal at hstep
  split at hstep
  · rename_i k site hc hpc
    cases hstep
    have hold : (s.worker i).pc = .join site .steal := hpc
    have hfact := h.facts i
    unfold Fact at hfact
    rw [hold] at hfact
    refine h.goes (.join site .busy) (by rw [hpc]; rfl) rfl ?_ ?_ rfl rfl
    · cases site <;> exact hfact
    · unfold progressOf
      rw [hold]
  · cases hstep

/-! ## Runs -/

/-- The concurrent structures, and the abstract lists they stand for. `locks` is an invariant of the code alone, for
    some leader or none; `fits` is the bound that the run is assumed to keep. -/
structure Rel (p : Nat) (s : State) (d : Lists) : Prop where
  locks : ∃ leader, Locks p s leader
  data : Data s d
  fits : Fits s

/-- A call. The structures stay; the worker gets a fact, `Fresh`, from the condition under which its caller may
    insert, and stays apart from all other inserts in progress by the same condition. The abstract list notes the
    request. -/
theorem Data.call (h : Data s d) (hidle : s.pc i = .idle) {r : Req} (hcan : CanInsert p s r)
    (hworkers : ∀ j, p ≤ j → s.pc j = .idle)
    (hworker : s'.worker = Function.update s.worker i { s.worker i with pc := .trylock .fast, req := r })
    (horders : s'.orders = s.orders) :
    Data s' { d with progress := Function.update d.progress i (.called r) } := by
  obtain ⟨hbase, hnew, hothers⟩ := hcan
  have hw : s'.worker i = { s.worker i with pc := .trylock .fast, req := r } := by rw [hworker, Function.update_self]
  have hws : ∀ j, j ≠ i → s'.worker j = s.worker j := fun j hj => by rw [hworker, Function.update_of_ne hj]
  -- what the others insert after, and what they insert, is not what this one does
  have hclash : ∀ j, j ≠ i → s'.pc j ≠ .idle → (s.worker j).req.order = r.order →
      (s.worker j).req.base ≠ r.base ∧ (s.worker j).req.new ≠ r.base ∧ (s.worker j).req.new ≠ r.new ∧
        (s.worker j).req.base ≠ r.new := by
    intro j hj hidlej ho
    have hidlej : s.pc j ≠ .idle := by
      unfold State.pc at hidlej ⊢
      rwa [← hws j hj]
    have hjp : j < p := by
      by_contra hge
      exact hidlej (hworkers j (Nat.le_of_not_lt hge))
    obtain ⟨h1, h2, h3⟩ := hothers j hjp hidlej ho
    refine ⟨h1, h2, h3, ?_⟩
    intro heq
    apply hnew
    rw [← heq, ← ho]
    exact (h.facts j).base_mem hidlej
  refine ⟨?_, ?_, ?_, ?_, ?_⟩
  · intro o
    apply (h.stacked o).same (congrFun horders o)
    intro j t
    unfold Adds State.pc
    rw [horders]
    by_cases hj : j = i
    · subst hj
      unfold State.pc at hidle
      rw [hw, hidle]
      constructor
      · rintro ⟨⟨c, hc⟩, -⟩
        cases hc
      · rintro ⟨⟨c, hc⟩, -⟩
        cases hc
    · rw [hws j hj]
  · intro j
    unfold State.omrd
    rw [horders]
    by_cases hj : j = i
    · subst hj
      rw [hw]
      exact ⟨hbase, hnew⟩
    · rw [hws j hj]
      exact h.facts j
  · intro k j hkj hk hj ho
    by_cases hki : k = i
    · have hji : j ≠ i := fun hji => hkj (hki.trans hji.symm)
      rw [hki, hw, hws j hji] at ho
      obtain ⟨h1, h2, h3, h4⟩ := hclash j hji hj ho.symm
      rw [hki, hw, hws j hji]
      exact ⟨h1.symm, h4.symm, h3.symm⟩
    · by_cases hji : j = i
      · rw [hji, hw, hws k hki] at ho
        obtain ⟨h1, h2, h3, h4⟩ := hclash k hki hk ho
        rw [hji, hw, hws k hki]
        exact ⟨h1, h2, h3⟩
      · have hks : s.pc k ≠ .idle := by
          unfold State.pc at hk ⊢
          rwa [← hws k hki]
        have hjs : s.pc j ≠ .idle := by
          unfold State.pc at hj ⊢
          rwa [← hws j hji]
        rw [hws k hki, hws j hji] at ho ⊢
        exact h.apart k j hkj hks hjs ho
  · intro o
    rw [horders]
    exact h.lists o
  · intro j
    by_cases hj : j = i
    · subst hj
      rw [hw]
      exact Function.update_self _ _ _
    · rw [hws j hj, ← h.progress j]
      exact Function.update_of_ne hj _ _

/-- **One step**, against a run of the abstract lists. The lock invariant of the next state comes first
    (`Locks.step`), since the data lemmas of `join_batch` and of the batch use it to exclude failed assertions. -/
theorem Rel.step (h : Rel p s d) {a : Action} {l : Option Label} (hstep : Batcher.step shl p s a = some (s', l))
    (hfits : Fits s') : ∃ d', Trace Lists.step d l.toList d' ∧ Rel p s' d' := by
  obtain ⟨leader, hlocks⟩ := h.locks
  obtain ⟨leader', hlocks'⟩ := hlocks.step hstep
  have hdata : ∃ d', Trace Lists.step d l.toList d' ∧ Data s' d' := by
    cases a with
    | insert i r =>
        simp only [Batcher.step] at hstep
        split at hstep
        · rename_i hcan
          obtain ⟨hi, hidle, hcan⟩ := hcan
          cases hstep
          have hprogress : d.progress i = .idle := by
            rw [h.data.progress i]
            unfold progressOf
            unfold State.pc at hidle
            rw [hidle]
          refine ⟨_, Lists.trace_call hprogress ?_, h.data.call hidle hcan hlocks.crew.workers rfl rfl⟩
          rw [h.data.lists]
          exact hcan.1
        · cases hstep
    | worker i =>
        simp only [Batcher.step] at hstep
        split at hstep
        · exact h.data.stepWorker hlocks hlocks' hstep
        · cases hstep
    | batch i =>
        simp only [Batcher.step] at hstep
        split at hstep
        · obtain ⟨t, ht, heq⟩ := Option.map_eq_some_iff.mp hstep
          cases heq
          unfold Batcher.stepBatch at ht
          split at ht
          · rename_i c site hc hpc
            exact ⟨d, Trace.refl, h.data.stepBusy hlocks hpc hc h.fits ht⟩
          · cases ht
        · cases hstep
    | steal i =>
        simp only [Batcher.step] at hstep
        split at hstep
        · obtain ⟨t, ht, heq⟩ := Option.map_eq_some_iff.mp hstep
          cases heq
          exact ⟨d, Trace.refl, h.data.stepSteal ht⟩
        · cases hstep
  obtain ⟨d', htr, hdata⟩ := hdata
  exact ⟨d', htr, ⟨leader', hlocks'⟩, hdata, hfits⟩

/-- **The workers simulate the abstract lists**, as long as the structures stay below `2 ^ 31` nodes. With
    `Machine.Simulates` this carries over to whole runs, which `BatcherTraces` uses for all its results. -/
theorem simulates (shl : Nat → Nat) (p : Nat) :
    Machine.Simulates (Machine.within Fits (Batcher.step shl p)) Lists.step (Rel p) where
  sim s a s' l d hrel hstep := by
    obtain ⟨hstep, hfits⟩ := Machine.within_eq_some.mp hstep
    exact hrel.step hstep hfits

end FOrder.Batcher
