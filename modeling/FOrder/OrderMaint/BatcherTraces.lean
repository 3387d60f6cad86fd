import FOrder.OrderMaint.BatcherRuns

/-!
# `OrderMaint.BatcherTraces` — what inserts by many workers guarantee over whole runs

Whatever the workers do and whoever runs the batches, the inserts are those of an abstract list, no insert meets a
relabel, and the only assertion that can fail is the one on the lock of batches.

Two inductions over runs carry everything here, and both were done in the modules before: `locks_of_trace` for the
mutexes, in every run from any structures, and `simulates` for the lists, in every run in which the structures stay
below `2 ^ 31` nodes (`Machine.within Fits`). Each result reads something off the relation at the end of a run:

- `inserts_linearizable`: the calls and returns are those of the abstract lists, and outside a relabel the queries
  follow these lists;
- `insert_excludes_relabel`: what the mutexes keep apart;
- `heavy_lists_kept`: the structures are well formed, and which lists are on the stacks;
- `batch_asserts_hold`: which assertion can fail;
- `handover_exact`: when it fails;
- `batch_no_deadlock`: some step always goes on.

The last one is not an invariant but a count of turns. A worker that waits does not advance by itself: it goes
around a loop until what it waits for is free. `Pc.turns` is how far it is from its next `pthread_spin_trylock`;
either somebody who holds something can take a step, or nothing is held at all, and then each turn brings the worker
nearer to a mutex that is free.
-/

namespace FOrder.Batcher

open OrderMaint
open Machine (Trace)

variable {p : Nat} {s s' : State} {leader : Option Nat} {i k : Nat} {pc : Pc} {site : Site} {shl : Nat → Nat} {o : Order}
  {d d' : Lists}

/-- `omrd_t::omrd_t`, twice. -/
def Created (orders : Orders) (bases : Order → Name) : Prop := ∀ o, Omrd.new (bases o) = some (orders o)

/-- At the start both lists have one node, everything is free, and the structures are small. -/
theorem rel_init {orders : Orders} {bases : Order → Name} (hnew : Created orders bases) :
    Rel p (init orders) (Lists.init bases) where
  locks := ⟨none, locks_init p orders⟩
  data := by
    have hok : ∀ o, ((init orders).orders o).Ok ∧ ((init orders).orders o).ds.root.names = [bases o] :=
      fun o => new_ok (hnew o)
    refine ⟨fun o => Stacked.of_ok (hok o).1 fun _ => rfl, fun _ => trivial, ?_, fun o => (hok o).2.symm, fun _ => rfl⟩
    intro i j _ hi
    exact absurd rfl hi
  fits := by
    have hlen : ∀ o, (orders o).ds.root.names.length < 2 ^ 31 := by
      intro o
      rw [(new_ok (hnew o)).2]
      exact Nat.one_lt_two_pow (by decide)
    exact ⟨hlen .english, hlen .hebrew⟩

section Runs

variable {orders : Orders} {bases : Order → Name} {tr : List Label}

/-- The simulation, over a whole run. -/
theorem rel_of_trace (hnew : Created orders bases)
    (h : Trace (Machine.within Fits (Batcher.step shl p)) (init orders) tr s) :
    ∃ d, Trace Lists.step (Lists.init bases) tr d ∧ Rel p s d := (simulates shl p).trace (rel_init hnew) h

/-- **Inserts by many workers are those of an abstract list.** The calls and returns of every run are those of two
lists into which each insert puts its node at one instant, right after its base; and outside a relabel the queries
follow these lists. -/
theorem inserts_linearizable (hnew : Created orders bases)
    (h : Trace (Machine.within Fits (Batcher.step shl p)) (init orders) tr s) :
    ∃ d, Trace Lists.step (Lists.init bases) tr d ∧ ∀ o, (s.orders o).ds.root.names = d.lists o ∧
      (s.relabelId % 2 = 0 → ∀ x ∈ d.lists o, ∀ y ∈ d.lists o, ∃ answer,
        precedes (s.orders o).ds (some x) (some y) = some answer ∧ (answer = true ↔ Before (d.lists o) x y)) := by
  obtain ⟨d, htr, hrel⟩ := rel_of_trace hnew h
  refine ⟨d, htr, ?_⟩
  intro o
  have hlists := (hrel.data.lists o).symm
  refine ⟨hlists, ?_⟩
  intro _ x hx y hy
  rw [← hlists] at hx hy ⊢
  exact precedes_spec (hrel.data.stacked o).wellFormed hx hy

/-- Worker `0` inserts after one node until there is no room; the thirty-third insert marks the list. -/
def fillGap : List Action :=
  (List.range 64).flatMap fun j => .insert 0 ⟨.english, 7, 8 + j⟩ :: List.replicate (if j = 32 then 6 else 4) (.worker 0)

/-- Its next insert is refused, and it starts a batch. Worker `1` waits with an insert of its own, and steals the second
    call of the batch. -/
def refusedInsert : List Action :=
  .insert 0 ⟨.english, 7, 72⟩ :: List.replicate 16 (.worker 0) ++
    .insert 1 ⟨.hebrew, 17, 18⟩ :: List.replicate 5 (.worker 1) ++ [.batch 0, .steal 1]

/-- Both relabel, worker `1` ends the batch, and both inserts return. -/
def relabelAndRetry : List Action :=
  .batch 0 :: List.replicate 5 (.batch 1) ++ List.replicate 15 (.worker 0) ++ List.replicate 7 (.worker 1)

/-- What the callers see after the first sixty-four inserts. -/
def lastCalls : List Label := [.call 0 ⟨.english, 7, 72⟩, .call 1 ⟨.hebrew, 17, 18⟩, .ret 0, .ret 1]

/-- The structures of the examples are what the constructor makes. -/
theorem created_first : Created firstOrders firstNames := fun _ => rfl

/-- The run: sixty-four inserts, a refusal, a batch of both workers, and both inserts return. -/
theorem trace_relabelled : ∃ tr, ∃ s : State, Trace (Machine.within Fits (Batcher.step (fun h => 2 ^ h) 2)) (init firstOrders) tr s ∧
    s.relabelId = 2 ∧ (∀ i < 2, s.pc i = .idle) ∧
    tr.drop 128 = lastCalls :=
  Trace.of_schedule (fillGap ++ refusedInsert ++ relabelAndRetry) (fun tr (s : State) => s.relabelId = 2 ∧
    (∀ i < 2, s.pc i = .idle) ∧ tr.drop 128 = lastCalls)
    (by decide +kernel)

/-- The run above is one of two lists, the relabel included. -/
theorem inserts_linearizable_relabelled : ∃ (tr : List Label) (s : State) (d : Lists), s.relabelId = 2 ∧
    tr.drop 128 = lastCalls ∧
    Trace Lists.step (Lists.init firstNames) tr d ∧ ∀ o, (s.orders o).ds.root.names = d.lists o ∧
      (s.relabelId % 2 = 0 → ∀ x ∈ d.lists o, ∀ y ∈ d.lists o, ∃ answer,
        precedes (s.orders o).ds (some x) (some y) = some answer ∧ (answer = true ↔ Before (d.lists o) x y)) := by
  obtain ⟨tr, s, h, hid, -, hlast⟩ := trace_relabelled
  obtain ⟨d, htr, hlists⟩ := inserts_linearizable created_first h
  exact ⟨tr, s, d, hid, hlast, htr, hlists⟩

/-! ## No insert meets a relabel -/

/-- While a structure is relabelled the batch has all mutexes, and under its own mutex a worker sees no batch. -/
structure Exclusive (p : Nat) (s : State) : Prop where
  relabel : s.relabelId % 2 = 1 → s.inProgress = true ∧ ∀ j < p, s.muts j = true ∧ (s.pc j).critical = false
  insert : ∀ i, (s.pc i).critical = true → s.muts i = true ∧ s.inProgress = false ∧ s.relabelId % 2 = 0
  /-- one leader, one batch -/
  leader : ∀ i j, (s.pc i).leads = true → (s.pc j).leads = true → i = j
  batch : ∀ i, s.ownerId = some i → s.relabelMutex.lock = true ∧ ∀ j, (s.pc j).leads = true → j = i

/-- Read off the boards: `g_relabel_id` is odd only in an active batch, whose leader has every mutex; a worker in
    its critical section has its own. -/
theorem Locks.exclusive (h : Locks p s leader) : Exclusive p s where
  relabel hodd := by
    obtain ⟨c, hc, hrel⟩ := h.crew.parity.mp hodd
    have hact : c.active = true := by
      revert hrel
      cases c <;> simp [Batch.relabelling, Batch.active]
    obtain ⟨k, rfl, hjoined, -⟩ := h.leads.active c hc hact
    have hboard : s.board p (some k) = ⟨⟨true, some k⟩, 0, p, true, some k, ⟨false, none⟩⟩ := by
      simp only [State.board]
      revert hjoined
      cases s.pc k with
      | join _ j => cases j <;> simp [Pc.joined, Pc.board]
      | failed a => cases a <;> simp [Pc.joined, Pc.board]
      | _ => simp [Pc.joined]
    refine ⟨?_, ?_⟩
    · rw [h.shared.inProgress, hboard]
    · intro j hj
      refine ⟨?_, h.no_critical hc hact j⟩
      rw [h.shared.held j, hboard]
      exact Or.inr ⟨Nat.zero_le j, hj⟩
  insert i hcrit := by
    obtain ⟨hprogress, hactive⟩ := h.inProgress_of_critical hcrit
    refine ⟨(h.shared.held i).mpr (Or.inl hcrit), hprogress, ?_⟩
    by_contra hodd
    obtain ⟨c, hc, hrel⟩ := h.crew.parity.mp (by omega)
    have hnot := hactive c hc
    revert hrel hnot
    cases c <;> simp [Batch.relabelling, Batch.active]
  leader i j hi hj := by
    have hli := h.leads.leads i hi
    rw [h.leads.leads j hj] at hli
    exact (Option.some.inj hli).symm
  batch i howner := by
    obtain rfl := h.ownerId_leader howner
    refine ⟨?_, ?_⟩
    · rw [h.shared.relabelMutex]
      have hrole := h.leads.role i rfl
      simp only [State.board]
      revert hrole
      cases s.pc i with
      | join _ j => cases j <;> simp [Pc.canLead, Pc.leads, Pc.joined, Pc.board, Board.free]
      | failed a => cases a <;> simp [Pc.canLead, Pc.leads, Pc.joined, Pc.board, Board.free]
      | _ => simp [Pc.canLead, Pc.leads, Pc.joined]
    · intro j hj
      exact (Option.some.inj (h.leads.leads j hj)).symm

/-- **No insert meets a relabel, and batches do not overlap**, in every run from any structures. -/
theorem insert_excludes_relabel (h : Trace (Batcher.step shl p) (init orders) tr s) : Exclusive p s := by
  obtain ⟨leader, hlocks⟩ := locks_of_trace h
  exact hlocks.exclusive

def Pc.failure : Pc → Option Assertion
  | .failed a => some a
  | _ => none

/-- Two nodes with nothing between them. -/
def crowdedOrders (o : Order) : Omrd := ⟨oneLeaf 0 1 [⟨firstNames o, 0⟩, ⟨firstNames o + 1, 1⟩], []⟩

/-- Worker `0` starts a batch, and worker `1` waits for it. -/
def startBatch : List Action :=
  .insert 0 ⟨.english, 7, 9⟩ :: List.replicate 18 (.worker 0) ++ .insert 1 ⟨.english, 8, 10⟩ :: List.replicate 5 (.worker 1) ++
    [.batch 0]

theorem trace_startBatch : ∃ tr, ∃ s : State, Trace (Batcher.step (fun h => 2 ^ h) 2) (init crowdedOrders) tr s ∧
    s.batch = some (.spawned 0) ∧ s.relabelId = 1 ∧ s.pc 1 = .join .fast .steal ∧ ∀ i < 2, (s.pc i).failure = none :=
  Trace.of_schedule startBatch (fun _ (s : State) => s.batch = some (.spawned 0) ∧ s.relabelId = 1 ∧
    s.pc 1 = .join .fast .steal ∧ ∀ i < 2, (s.pc i).failure = none) (by decide +kernel)

theorem insert_excludes_relabel_start : ∃ s : State, s.relabelId = 1 ∧ Exclusive 2 s := by
  obtain ⟨tr, s, h, -, hid, -⟩ := trace_startBatch
  exact ⟨s, hid, insert_excludes_relabel h⟩

/-! ## The stacks and the assertions -/

/-- The stack of a structure, said of the marks. -/
structure StackInStep (s : State) (o : Order) : Prop where
  nodup : (s.orders o).heavyNodes.Nodup
  /-- a marked list is on the stack, or its worker is about to put it there, and not both -/
  marked : ∀ t, (∃ b ∈ (s.orders o).ds.root.lists, b.above = t ∧ b.heavy = true) ↔
    t ∈ (s.orders o).heavyNodes ∨ ∃ i, Adds s o i t
  once : ∀ i t, Adds s o i t → t ∉ (s.orders o).heavyNodes
  /-- a relabel finds all of them -/
  batch : s.relabelId % 2 = 1 → (s.orders o).InStep

theorem Stacked.inStep (h : Stacked s o) (hodd : s.relabelId % 2 = 1 → ∀ i, (s.pc i).critical = false) :
    StackInStep s o where
  nodup := by
    obtain ⟨rest, -, -, hok⟩ := h
    exact (List.nodup_append.mp hok.nodup).1
  marked t := by
    obtain ⟨rest, -, hmem, hok⟩ := h
    have hheavy := hok.mem_heavy t
    show (∃ b ∈ (s.withRest o rest).ds.root.lists, _) ↔ _
    rw [← hheavy]
    show t ∈ (s.orders o).heavyNodes ++ rest.map Prod.snd ↔ _
    rw [List.mem_append, List.mem_map]
    constructor
    · rintro (hin | ⟨⟨i, u⟩, hiu, rfl⟩)
      · exact Or.inl hin
      · exact Or.inr ⟨i, (hmem i u).mp hiu⟩
    · rintro (hin | ⟨i, hi⟩)
      · exact Or.inl hin
      · exact Or.inr ⟨(i, t), (hmem i t).mpr hi, rfl⟩
  once i t hadds hin := by
    obtain ⟨rest, -, hmem, hok⟩ := h
    have hrest : t ∈ rest.map Prod.snd := List.mem_map.mpr ⟨(i, t), (hmem i t).mpr hadds, rfl⟩
    exact (List.nodup_append.mp hok.nodup).2.2 t hin t hrest rfl
  batch hrel := (h.ok (hodd hrel)).toInStep

/-- **No heavy list is lost**: in every run the structures are well formed, each stack holds the marked lists, each once,
but for those between `CAS` and `add_heavy`, and a batch finds all of them on it. -/
theorem heavy_lists_kept (hnew : Created orders bases)
    (h : Trace (Machine.within Fits (Batcher.step shl p)) (init orders) tr s) (o : Order) :
    WellFormed (s.orders o).ds ∧ StackInStep s o := by
  obtain ⟨d, -, hrel⟩ := rel_of_trace hnew h
  obtain ⟨leader, hlocks⟩ := hrel.locks
  refine ⟨(hrel.data.stacked o).wellFormed, (hrel.data.stacked o).inStep ?_⟩
  intro hodd i
  have hexcl := hlocks.exclusive
  by_contra hcrit
  have heven := (hexcl.insert i (by simpa using hcrit)).2.2
  omega

/-- A relabel runs, and the stack still holds the list of the refused insert. -/
theorem heavy_lists_kept_refused : ∃ s : State, s.relabelId = 1 ∧ (s.orders .english).heavyNodes = [0] ∧
    WellFormed (s.orders .english).ds ∧ StackInStep s .english := by
  obtain ⟨tr, s, h, hid, hheavy⟩ : ∃ tr, ∃ s : State,
      Trace (Machine.within Fits (Batcher.step (fun h => 2 ^ h) 2)) (init firstOrders) tr s ∧ s.relabelId = 1 ∧
        (s.orders .english).heavyNodes = [0] :=
    Trace.of_schedule (fillGap ++ refusedInsert) (fun _ (s : State) => s.relabelId = 1 ∧
      (s.orders .english).heavyNodes = [0]) (by decide +kernel)
  exact ⟨s, hid, hheavy, heavy_lists_kept created_first h .english⟩

/-- **The assertions hold**, but for the one on the lock of batches: no insert runs during a batch, `om_insert` and
`om_relabel` do not fail, a second try after a relabel gives a node that is not heavy, the mutexes are given back by
their owners. -/
theorem batch_asserts_hold (hnew : Created orders bases)
    (h : Trace (Machine.within Fits (Batcher.step shl p)) (init orders) tr s) (i : Nat) :
    (s.pc i).failure = none ∨ (s.pc i).failure = some .nextBatchOwner := by
  obtain ⟨d, -, hrel⟩ := rel_of_trace hnew h
  have hfact := hrel.data.facts i
  unfold Fact at hfact
  unfold State.pc
  cases hpc : (s.worker i).pc with
  | failed a =>
      rw [hpc] at hfact
      obtain rfl : a = .nextBatchOwner := hfact.1
      exact Or.inr rfl
  | _ => exact Or.inl rfl

theorem batch_asserts_hold_relabelled : ∃ s : State, s.relabelId = 2 ∧ ∀ i,
    (s.pc i).failure = none ∨ (s.pc i).failure = some .nextBatchOwner := by
  obtain ⟨tr, s, h, hid, -⟩ := trace_relabelled
  exact ⟨s, hid, fun i => batch_asserts_hold created_first h i⟩

/-! ## The lock of batches -/

/-- **`cilk_set_next_batch_owner` fails** exactly as long as another worker, to which the last batch has moved, is in
the last stores of `terminate_batch`. -/
theorem handover_exact (h : Trace (Batcher.step shl p) (init orders) tr s) (hi : i < p)
    (hpc : s.pc i = .join site .setNextBatchOwner) :
    Batcher.step shl p s (.worker i) = some (s.goes i (.failed .nextBatchOwner), none) ↔
      ∃ k, k ≠ i ∧ (s.pc k).inBatch = true ∧ (s.batch = some (.releasing k) ∨ s.batch = some (.unlocking k)) := by
  obtain ⟨leader, hlocks⟩ := locks_of_trace h
  obtain ⟨rfl, hlocks, hshared, hlock⟩ := hlocks.atBoard (i := i) (by rw [hpc]; rfl)
  have hjoined : (s.pc i).joined = false := by rw [hpc]; rfl
  have hstep : Batcher.step shl p s (.worker i) = (stepJoin p s i site .setNextBatchOwner).map fun s' => (s', none) := by
    simp [Batcher.step, hi, Batcher.stepWorker, hpc]
  rw [hstep]
  cases hbatch : s.batch with
  | none =>
      have hfree : s.batchLock.lock = false := by
        rw [hlock.quiet hbatch, hpc]
        rfl
      have hpcs : (Option.map (fun s' => (s', (none : Option Label))) (stepJoin p s i site .setNextBatchOwner)) ≠
          some (s.goes i (.failed .nextBatchOwner), none) := by
        intro heq
        simp only [stepJoin, hfree, Bool.false_eq_true, if_false, Option.map_some, Option.some.injEq, Prod.mk.injEq] at heq
        have hpc' := congrArg (fun t => State.pc t i) heq.1
        simp [State.pc, State.goes] at hpc'
      simp [hpcs]
  | some c =>
      have hlocked := (hlock.running c hbatch).1
      have hnot := hlocks.leads.not_active hjoined hbatch
      have htail : ∃ k, c = .releasing k ∨ c = .unlocking k := by
        revert hnot
        cases c <;> simp [Batch.active]
      obtain ⟨k, hk⟩ := htail
      have hruns : c.Runs k := by
        rcases hk with rfl | rfl <;> rfl
      have hin := (hlocks.crew.runs k).mpr ⟨c, hbatch, hruns⟩
      have hki : k ≠ i := by
        rintro rfl
        rw [hpc] at hin
        cases hin
      constructor
      · intro _
        refine ⟨k, hki, hin, ?_⟩
        rcases hk with rfl | rfl
        · exact Or.inl rfl
        · exact Or.inr rfl
      · intro _
        simp [stepJoin, hlocked]

/-- Worker `1` takes the second call over and ends the batch; worker `0` finishes its insert, and the next one of it is
    refused. -/
def lateRelease : List Action :=
  startBatch ++ [.steal 1, .batch 0, .batch 1, .batch 1, .batch 1] ++ List.replicate 15 (.worker 0) ++
    .insert 0 ⟨.hebrew, 17, 19⟩ :: List.replicate 11 (.worker 0)

theorem handover_exact_late : ∃ s, Batcher.step (fun h => 2 ^ h) 2 s (.worker 0) =
    some (s.goes 0 (.failed .nextBatchOwner), none) := by
  obtain ⟨tr, s, h, hpc, hbatch, hin⟩ : ∃ tr, ∃ s : State, Trace (Batcher.step (fun h => 2 ^ h) 2) (init crowdedOrders) tr s ∧
      s.pc 0 = .join .gaveUp .setNextBatchOwner ∧ s.batch = some (.releasing 1) ∧ (s.pc 1).inBatch = true :=
    Trace.of_schedule lateRelease (fun _ (s : State) => s.pc 0 = .join .gaveUp .setNextBatchOwner ∧
      s.batch = some (.releasing 1) ∧ (s.pc 1).inBatch = true) (by decide +kernel)
  exact ⟨s, (handover_exact h (by decide) hpc).mpr ⟨1, by decide, hin, Or.inl hbatch⟩⟩

/-! ## Nobody is stuck -/

/-- A step that is not the turn of a waiting loop: of the batch, of the leader, under the own mutex, or at a mutex that
is free. -/
def Advances (s : State) : Action → Prop
  | .batch _ => True
  | .worker i => (s.pc i).critical = true ∨ (s.pc i).leads = true ∨ (s.batch = none ∧ s.ownerId = some i) ∨
      ((∃ path, s.pc i = .trylock path) ∧ s.muts i = false)
  | _ => False

/-- Some step goes on with what has begun. -/
def CanGoOn (shl : Nat → Nat) (p : Nat) (s : State) : Prop :=
  ∃ a, Advances s a ∧ (Batcher.step shl p s a).isSome = true

/-- Under its own mutex a worker waits for nobody. -/
theorem canGoOn_critical (hi : i < p) (hcrit : (s.pc i).critical = true) (hfail : ∀ a, s.pc i ≠ .failed a) :
    CanGoOn shl p s := by
  refine ⟨.worker i, Or.inl hcrit, ?_⟩
  simp only [Batcher.step, hi, if_true, Batcher.stepWorker]
  cases hpc : s.pc i with
  | tryInsert path =>
      simp only
      split
      · rfl
      · split <;> rfl
  | refused =>
      simp only
      split <;> rfl
  | cas c =>
      simp only
      split
      · rfl
      · split <;> rfl
  | addHeavy c =>
      simp only
      split
      · rfl
      · split <;> rfl
  | setBatchId => rfl
  | giveUp => rfl
  | accepted path => rfl
  | unlock => rfl
  | failed a => exact absurd hpc (hfail a)
  | idle =>
      rw [hpc] at hcrit
      cases hcrit
  | trylock path =>
      rw [hpc] at hcrit
      cases hcrit
  | join site j =>
      rw [hpc] at hcrit
      cases hcrit
  | clearFailed =>
      rw [hpc] at hcrit
      cases hcrit

/-- Whoever runs the batch can go on. -/
theorem canGoOn_batch (h : Locks p s leader) (hfail : ∀ i a, s.pc i ≠ .failed a) {c : Batch} (hc : s.batch = some c) :
    CanGoOn shl p s := by
  have hruns : ∃ i, c.Runs i := by
    have hsound := h.crew.sound c hc
    cases c with
    | stolen k j english hebrew =>
        obtain ⟨-, hboth⟩ := hsound
        cases english with
        | false => exact ⟨k, Or.inl ⟨rfl, rfl⟩⟩
        | true => exact ⟨j, Or.inr ⟨rfl, hboth⟩⟩
    | starting k => exact ⟨k, rfl⟩
    | spawned k => exact ⟨k, rfl⟩
    | continued k => exact ⟨k, rfl⟩
    | stopping k => exact ⟨k, rfl⟩
    | terminating k => exact ⟨k, rfl⟩
    | releasing k => exact ⟨k, rfl⟩
    | unlocking k => exact ⟨k, rfl⟩
  obtain ⟨i, hrun⟩ := hruns
  have hin := (h.crew.runs i).mpr ⟨c, hc, hrun⟩
  have hi : i < p := by
    by_contra hge
    rw [h.crew.workers i (Nat.le_of_not_lt hge)] at hin
    cases hin
  obtain ⟨site, hpc⟩ : ∃ site, s.pc i = .join site .busy := by
    cases hpc : s.pc i with
    | join site j =>
        rw [hpc] at hin
        cases j with
        | busy => exact ⟨site, rfl⟩
        | _ => cases hin
    | failed a => exact absurd hpc (hfail i a)
    | _ =>
        rw [hpc] at hin
        cases hin
  refine ⟨.batch i, trivial, ?_⟩
  simp only [Batcher.step, hi, if_true, Batcher.stepBatch, hc, hpc, Option.isSome_map]
  cases c with
  | stolen k j english hebrew =>
      simp only [Batcher.stepBusy]
      split
      · rfl
      · rename_i hnot
        rw [if_pos (hrun.resolve_left hnot)]
        rfl
  | starting k => simp [Batcher.stepBusy, show i = k from hrun]
  | spawned k => simp [Batcher.stepBusy, show i = k from hrun]
  | continued k => simp [Batcher.stepBusy, show i = k from hrun]
  | stopping k => simp [Batcher.stepBusy, show i = k from hrun]
  | terminating k => simp [Batcher.stepBusy, show i = k from hrun]
  | releasing k => simp [Batcher.stepBusy, show i = k from hrun]
  | unlocking k => simp [Batcher.stepBusy, show i = k from hrun]

/-- Without a batch the leader can go on, wherever it is: the mutexes that it locks are held by workers in their
    critical sections, and these can go on themselves. -/
theorem canGoOn_leader (h : Locks p s (some k)) (hbatch : s.batch = none) (hfail : ∀ i a, s.pc i ≠ .failed a) :
    CanGoOn shl p s := by
  have hrole := h.leads.role k rfl
  have hk : k < p := by
    by_contra hge
    rw [h.crew.workers k (Nat.le_of_not_lt hge)] at hrole
    cases hrole
  by_cases hlock : ∃ site n, s.pc k = .join site (.lockMutex n) ∧ n < p ∧ s.muts n = true
  · -- the mutexes below `n` are its own, so this one is the worker's
    obtain ⟨site, n, hpc, hn, hheld⟩ := hlock
    have hcrit : (s.pc n).critical = true := by
      refine ((h.shared.held n).mp hheld).resolve_right ?_
      simp only [State.board, hpc, Pc.board]
      omega
    exact canGoOn_critical hn hcrit (hfail n)
  · have howner : (s.pc k).leads = true ∨ s.ownerId = some k := by
      rw [h.shared.ownerId]
      simp only [State.board]
      revert hrole
      cases s.pc k with
      | join _ j => cases j <;> simp [Pc.canLead, Pc.leads, Pc.joined, Pc.board]
      | failed a => cases a <;> simp [Pc.canLead, Pc.leads, Pc.joined, Pc.board]
      | _ => simp [Pc.canLead, Pc.leads, Pc.joined]
    refine ⟨.worker k, ?_, ?_⟩
    · rcases howner with hleads | howner
      · exact Or.inr (Or.inl hleads)
      · exact Or.inr (Or.inr (Or.inl ⟨hbatch, howner⟩))
    · simp only [Batcher.step, hk, if_true, Batcher.stepWorker]
      cases hpc : s.pc k with
      | join site j =>
          simp only [Option.isSome_map]
          cases j with
          | lockMutex n =>
              simp only [stepJoin]
              split
              · rename_i hn
                rw [if_neg (fun hheld => hlock ⟨site, n, hpc, hn, hheld⟩)]
                rfl
              · rfl
          | busy =>
              have hin : (s.pc k).inBatch = true := by
                rw [hpc]
                rfl
              obtain ⟨c, hc, -⟩ := (h.crew.runs k).mp hin
              rw [hbatch] at hc
              cases hc
          | waitId =>
              simp only [stepJoin]
              split
              · split <;> rfl
              · rfl
          | batchify | steal | leave | stop | disown | invoke | unlockRelabelMutex => rfl
          | _ =>
              simp only [stepJoin]
              split <;> rfl
      | failed a => exact absurd hpc (hfail k a)
      | _ =>
          rw [hpc] at hrole
          cases hrole

/-- Nothing is held, and so the next turn of every waiting loop is its last. -/
structure AllFree (s : State) : Prop where
  muts : ∀ j, s.muts j = false
  relabelMutex : s.relabelMutex.lock = false
  batchLock : s.batchLock.owner = none
  ownerId : s.ownerId = none

/-- Nobody leads, no batch runs and nobody is in a critical section: then nothing is held. -/
theorem Locks.allFree (h : Locks p s none) (hbatch : s.batch = none) (hcrit : ∀ i, (s.pc i).critical = false) :
    AllFree s where
  muts j := by
    have hnot : ¬s.muts j = true := by
      rw [h.shared.held j, hcrit j]
      simp [State.board, Board.free]
    simpa using hnot
  relabelMutex := congrArg Mutex.lock h.shared.relabelMutex
  batchLock := congrArg Mutex.owner (h.batchLock.quiet hbatch)
  ownerId := h.shared.ownerId

/-- How many turns before its next `pthread_spin_trylock`, when nothing is held. -/
def Pc.turns : Pc → Nat
  | .clearFailed => 1
  | .join _ .compare => 2
  | .join _ .leave => 3
  | .join _ .waitOwner => 4
  | .join _ .waitId => 5
  | .join _ .steal => 6
  | .join _ .tryRelabelMutex => 6
  | .join _ .tryLockAll => 7
  | .join _ .batchify => 8
  | _ => 0

/-- Outside its own mutex, and not the leader. -/
def Pc.waits : Pc → Bool
  | .idle | .failed _ => false
  | pc => !pc.critical && !pc.leads && !pc.inBatch

/-- A place in the code is not a mutex. -/
theorem AllFree.goes (h : AllFree s) (pc : Pc) : AllFree (s.goes i pc) := ⟨h.muts, h.relabelMutex, h.batchLock, h.ownerId⟩

/-- A turn of a waiting worker, when nothing is held. It tries a mutex that is free, and goes on, or it comes nearer
    to it, by one case for each place at which a worker waits. -/
theorem AllFree.turn (shl : Nat → Nat) (h : AllFree s) (hi : i < p) (hwaits : (s.pc i).waits = true) :
    CanGoOn shl p s ∨ ∃ s', Batcher.step shl p s (.worker i) = some (s', none) ∧
      (s'.pc i).turns < (s.pc i).turns ∧ (CanGoOn shl p s' ∨ (AllFree s' ∧ (s'.pc i).waits = true)) := by
  have hlater : ∀ (t : State) (pc : Pc), Batcher.step shl p s (.worker i) = some (t.goes i pc, none) → AllFree t →
      pc.waits = true → pc.turns < (s.pc i).turns →
      ∃ s', Batcher.step shl p s (.worker i) = some (s', none) ∧
        (s'.pc i).turns < (s.pc i).turns ∧ (CanGoOn shl p s' ∨ (AllFree s' ∧ (s'.pc i).waits = true)) := by
    intro t pc hstep hfree hpc hlt
    have hhere : (t.goes i pc).pc i = pc := by simp [State.pc, State.goes]
    exact ⟨_, hstep, hhere.symm ▸ hlt, Or.inr ⟨hfree.goes pc, hhere.symm ▸ hpc⟩⟩
  have hstep : Batcher.step shl p s (.worker i) = Batcher.stepWorker p s i := by simp [Batcher.step, hi]
  cases hpc : s.pc i with
  | trylock path =>
      refine Or.inl ⟨.worker i, Or.inr (Or.inr (Or.inr ⟨⟨path, hpc⟩, h.muts i⟩)), ?_⟩
      simp [hstep, Batcher.stepWorker, hpc, h.muts i]
  | clearFailed =>
      refine Or.inr (hpc ▸ hlater (s.setFailed i false) (.trylock .slow) ?_ ?_ rfl ?_)
      · simp [hstep, Batcher.stepWorker, hpc]
      · exact ⟨h.muts, h.relabelMutex, h.batchLock, h.ownerId⟩
      · simp [hpc, Pc.turns]
  | join site j =>
      have hjoin : Batcher.step shl p s (.worker i) = (stepJoin p s i site j).map fun s' => (s', none) := by
        simp [hstep, Batcher.stepWorker, hpc]
      right
      rw [← hpc]
      cases j with
      | compare =>
          refine hlater (s) (site.next) ?_ h ?_ ?_
          · simp [hjoin, stepJoin, h.ownerId]
          · cases site <;> rfl
          · cases site <;> simp [hpc, Site.next, Pc.turns]
      | leave =>
          refine hlater (s.setBatchId i none) (.join site .compare) ?_ ?_ rfl ?_
          · simp [hjoin, stepJoin]
          · exact ⟨h.muts, h.relabelMutex, h.batchLock, h.ownerId⟩
          · simp [hpc, Pc.turns]
      | waitOwner =>
          refine hlater (s) (.join site .leave) ?_ h rfl ?_
          · simp [hjoin, stepJoin, h.batchLock]
          · simp [hpc, Pc.turns]
      | waitId =>
          by_cases hid : ∃ b, (s.worker i).batchId = some b ∧ s.pendingId ≤ b
          · obtain ⟨b, hb, hle⟩ := hid
            refine hlater (s) (.join site .waitOwner) ?_ h rfl ?_
            · simp [hjoin, stepJoin, hb, hle]
            · simp [hpc, Pc.turns]
          · refine hlater (s) (.join site .leave) ?_ h rfl ?_
            · rw [hjoin]
              simp only [stepJoin]
              split
              · rename_i b hb
                rw [if_neg (fun hle => hid ⟨b, hb, hle⟩)]
                rfl
              · rfl
            · simp [hpc, Pc.turns]
      | steal =>
          refine hlater (s) (.join site .waitId) ?_ h rfl ?_
          · simp [hjoin, stepJoin]
          · simp [hpc, Pc.turns]
      | tryRelabelMutex =>
          refine ⟨{ s.goes i (.join site .ownRelabelMutex) with relabelMutex := { s.relabelMutex with lock := true } },
            ?_, ?_, Or.inl ⟨.worker i, Or.inr (Or.inl ?_), ?_⟩⟩
          · simp [hjoin, stepJoin, h.relabelMutex]
          · rw [hpc]
            simp [State.pc, State.goes, Pc.turns]
          · simp [State.pc, State.goes, Pc.leads]
          · simp only [Batcher.step, hi, if_true, Batcher.stepWorker, State.pc, State.goes, Function.update_self,
              Option.isSome_map, stepJoin]
            split <;> rfl
      | tryLockAll =>
          by_cases hwait : (s.worker i).insertFailed = false ∨ s.relabelId % 2 = 1
          · refine hlater (s) (.join site .waitId) ?_ h rfl ?_
            · simp [hjoin, stepJoin, hwait]
            · simp [hpc, Pc.turns]
          · refine hlater (s) (.join site .tryRelabelMutex) ?_ h rfl ?_
            · simp [hjoin, stepJoin, hwait]
            · simp [hpc, Pc.turns]
      | batchify =>
          refine hlater (if (s.worker i).batchId = none then s.setBatchId i (some s.pendingId) else s)
            (.join site .tryLockAll) ?_ ?_ rfl ?_
          · simp [hjoin, stepJoin]
          · split
            · exact ⟨h.muts, h.relabelMutex, h.batchLock, h.ownerId⟩
            · exact h
          · simp [hpc, Pc.turns]
      | _ =>
          rw [hpc] at hwaits
          cases hwaits
  | _ =>
      rw [hpc] at hwaits
      cases hwaits

/-- By induction on the number of turns. -/
theorem AllFree.turns (shl : Nat → Nat) (h : AllFree s) (hi : i < p) (hwaits : (s.pc i).waits = true) :
    ∃ turns ≤ (s.pc i).turns, ∃ s' tr', Machine.run (Batcher.step shl p) s (List.replicate turns (.worker i)) =
      some (s', tr') ∧ CanGoOn shl p s' := by
  induction hn : (s.pc i).turns using Nat.strong_induction_on generalizing s with
  | _ n ih =>
      subst hn
      rcases h.turn shl hi hwaits with hgo | ⟨s', hstep, hlt, hgo | ⟨hfree, hwaits'⟩⟩
      · exact ⟨0, Nat.zero_le _, s, [], rfl, hgo⟩
      · refine ⟨1, by omega, s', [], ?_, hgo⟩
        simp [Machine.run, hstep]
      · obtain ⟨turns, hle, t, tr', hrun, hgo⟩ := ih _ hlt hfree hwaits' rfl
        refine ⟨turns + 1, by omega, t, tr', ?_, hgo⟩
        simp [List.replicate_succ, Machine.run, hstep, hrun]

/-- **Nobody is stuck.** As long as some insert has not returned, within eight turns of one waiting worker something
goes on: the batch, the leader, an insert under its own mutex, or a worker gets its mutex. -/
theorem batch_no_deadlock (h : Trace (Batcher.step shl p) (init orders) tr s) (hnone : ∀ i < p, (s.pc i).failure = none)
    (hbusy : s.pc i ≠ .idle) :
    ∃ turns ≤ 8, ∃ s' tr', Machine.run (Batcher.step shl p) s (List.replicate turns (.worker i)) = some (s', tr') ∧
      CanGoOn shl p s' := by
  obtain ⟨leader, hlocks⟩ := locks_of_trace h
  have hworker : ∀ j, s.pc j ≠ .idle → j < p := by
    intro j hj
    by_contra hge
    exact hj (hlocks.crew.workers j (Nat.le_of_not_lt hge))
  have hfail : ∀ j a, s.pc j ≠ .failed a := by
    intro j a hpc
    have hj := hnone j (hworker j (by simp [hpc]))
    rw [hpc] at hj
    cases hj
  have hnow : CanGoOn shl p s → ∃ turns ≤ 8, ∃ s' tr',
      Machine.run (Batcher.step shl p) s (List.replicate turns (.worker i)) = some (s', tr') ∧ CanGoOn shl p s' :=
    fun hgo => ⟨0, Nat.zero_le 8, s, [], rfl, hgo⟩
  cases hbatch : s.batch with
  | some c => exact hnow (canGoOn_batch hlocks hfail hbatch)
  | none =>
      cases leader with
      | some k => exact hnow (canGoOn_leader hlocks hbatch hfail)
      | none =>
          by_cases hcrit : ∃ j, (s.pc j).critical = true
          · obtain ⟨j, hj⟩ := hcrit
            have hidle : s.pc j ≠ .idle := by
              intro heq
              rw [heq] at hj
              cases hj
            exact hnow (canGoOn_critical (hworker j hidle) hj (hfail j))
          · have hout : ∀ j, (s.pc j).critical = false := by simpa using hcrit
            have hleads : (s.pc i).leads = false := by
              by_contra hl
              have := hlocks.leads.leads i (by simpa using hl)
              cases this
            have hin : (s.pc i).inBatch = false := by
              by_contra hb
              obtain ⟨c, hc, -⟩ := (hlocks.crew.runs i).mp (by simpa using hb)
              rw [hbatch] at hc
              cases hc
            have hwaits : (s.pc i).waits = true := by
              unfold Pc.waits
              split
              · rename_i hpc
                exact absurd hpc hbusy
              · rename_i a hpc
                exact absurd hpc (hfail i a)
              · rw [hout i, hleads, hin]
                rfl
            obtain ⟨turns, hle, hrest⟩ := (hlocks.allFree hbatch hout).turns shl (hworker i hbusy) hwaits
            refine ⟨turns, hle.trans ?_, hrest⟩
            cases s.pc i with
            | join _ j => cases j <;> simp [Pc.turns]
            | _ => simp [Pc.turns]

theorem batch_no_deadlock_start : ∃ s : State, s.batch = some (.spawned 0) ∧ ∃ turns ≤ 8, ∃ s' tr',
    Machine.run (Batcher.step (fun h => 2 ^ h) 2) s (List.replicate turns (.worker 1)) = some (s', tr') ∧
      CanGoOn (fun h => 2 ^ h) 2 s' := by
  obtain ⟨tr, s, h, hbatch, -, hpc, hnone⟩ := trace_startBatch
  exact ⟨s, hbatch, batch_no_deadlock h hnone (by simp [hpc])⟩

end Runs

end FOrder.Batcher
