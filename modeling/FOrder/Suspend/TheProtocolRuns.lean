import FOrder.Suspend.TheProtocolThief
import Mathlib.Data.List.Nodup
import Mathlib.Data.List.Perm.Basic

/-!
# `Suspend.TheProtocolRuns` — what the THE protocol guarantees over whole runs

Whatever the worker and any number of thieves do, and whenever stores reach memory: the calls and returns are those of
an atomic deque, no frame is lost or handed out twice, the assertions hold and nobody is stuck.

All of it comes from one relation. `Rel` ties the state to a deque, and `simulates` says that a step of the protocol is
one of the deque, or none. What is said of calls and returns, and of which frames were handed out, is true of the deque
and goes over to the protocol by its trace; what is said of memory and of who can go on is read off `Rel` in the state
that is reached. So neither kind of result needs an induction over runs of its own, but for the counting of frames.
-/

namespace FOrder.The

open Machine (Trace)

/-- **The protocol implements a deque.** The calls and returns of every run are those of an atomic deque. -/
theorem the_linearizable {ltqsize : Nat} {tr : List Label} {s : State} (h : Trace (step ltqsize) (init ltqsize) tr s) :
    ∃ d, Trace Deque.step Deque.init tr d := by
  obtain ⟨d, htr, -⟩ := (simulates ltqsize).trace ⟨0, rel_init ltqsize⟩ h
  exact ⟨d, htr⟩

/-- The worker pushes a frame and pops while thief `0` steals it: the thief has raised `exc` and seen `tail` before the
    worker's store is flushed. -/
def raceForLast : List Action :=
  [.detach 7, .owner, .flush none, .flush none, .steal 0, .thief 0, .thief 0, .flush (some 0), .thief 0, .thief 0, .undo,
    .thief 0, .flush none, .owner, .owner, .thief 0, .thief 0, .flush (some 0), .thief 0, .owner, .owner, .flush none,
    .owner, .owner, .flush none, .owner]

/-- The thief gets it, and the worker finds it stolen. -/
def lastStolen : List Label := [.pushed 7, .steal 0, .undo, .stolen 0 (some 7), .undone none]

/-- The run ends with everybody outside. -/
theorem trace_lastStolen : ∃ s, Trace (step 4) (init 4) lastStolen s ∧ s.owner = .away ∧ ∀ i, s.thief i = .idle := by
  have hrun : ((Machine.run (step 4) (init 4) raceForLast).map fun r => (r.2, r.1.owner, r.1.thief 0)) =
      some (lastStolen, .away, .idle) := by decide
  obtain ⟨⟨s, tr⟩, hs, heq⟩ := Option.map_eq_some_iff.mp hrun
  simp only [Prod.mk.injEq] at heq
  obtain ⟨rfl, howner, hthief⟩ := heq
  refine ⟨s, Trace.of_run hs, howner, ?_⟩
  intro i
  cases i with
  | zero => exact hthief
  | succ i =>
      -- no other thief has moved
      have hother : ((Machine.run (step 4) (init 4) raceForLast).map fun r => r.1.thief (i + 1)) = some .idle := rfl
      rw [hs] at hother
      exact Option.some.inj hother

theorem the_linearizable_lastStolen : ∃ d, Trace Deque.step Deque.init lastStolen d := by
  obtain ⟨s, h, -⟩ := trace_lastStolen
  exact the_linearizable h

/-! ## No frame is lost or taken twice

Read off the deque, by way of the simulation: on an atomic deque the frames are counted step by step (`Balanced`), and
the trace of the protocol is a trace of the deque. At rest nothing is on its way out, and when the buffers are empty
the frames of the deque are what lies between `head` and `tail` in memory. -/

/-- The frame that a label says was pushed. -/
def Label.pushed? : Label → Option Nat
  | .pushed sf => some sf
  | _ => none

/-- The frame that a return hands out. -/
def Label.taken? : Label → Option Nat
  | .undone sf => sf
  | .popped sf => if sf = 0 then none else some sf
  | .stolen _ sf => sf
  | _ => none

/-- The frames pushed in a run, in order. -/
def pushes (tr : List Label) : List Nat := tr.filterMap Label.pushed?

/-- The frames handed out in a run, in order. -/
def takes (tr : List Label) : List Nat := tr.filterMap Label.taken?

/-- The frame of an operation that has taken effect and not returned. -/
def undoHolds : Progress (Option Nat) → List Nat
  | .done (some sf) => [sf]
  | _ => []

/-- The frame that a pop has taken off the deque and not yet returned. -/
def popHolds : Progress Nat → List Nat
  | .done sf => if sf = 0 then [] else [sf]
  | _ => []

/-- What was pushed was handed out, is on its way out, or is on the deque; `loot` is what the thieves hold. -/
structure Balanced (tr : List Label) (d : Deque) (loot : List (Nat × Nat)) : Prop where
  thieves : (loot.map Prod.fst).Nodup
  held : ∀ i sf, (i, sf) ∈ loot ↔ d.steal i = .done sf
  frames : ∀ sf ∈ d.items, sf ≠ 0
  count : ∀ x, (pushes tr).count x = (takes tr).count x + (undoHolds d.undo).count x + (popHolds d.pop).count x +
    (loot.map Prod.snd).count x + d.items.count x

/-- Nothing pushed, nothing handed out. -/
theorem balanced_init : Balanced [] Deque.init [] where
  thieves := by simp
  held i sf := by simp [Deque.init]
  frames := by simp [Deque.init]
  count x := by simp [pushes, takes, Deque.init, undoHolds, popHolds]

section Step

variable {tr : List Label} {d d' : Deque} {loot : List (Nat × Nat)} {o : Option Label}

/-- One label more. -/
theorem pushes_concat (tr : List Label) (o : Option Label) :
    pushes (tr ++ o.toList) = pushes tr ++ (o.bind Label.pushed?).toList := by
  cases o with
  | none => simp [pushes]
  | some l => cases hl : l.pushed? <;> simp [pushes, hl]

/-- One label more. -/
theorem takes_concat (tr : List Label) (o : Option Label) :
    takes (tr ++ o.toList) = takes tr ++ (o.bind Label.taken?).toList := by
  cases o with
  | none => simp [takes]
  | some l => cases hl : l.taken? <;> simp [takes, hl]

/-- A step that leaves the thieves' loot alone. -/
theorem Balanced.same (h : Balanced tr d loot) (hsteal : d'.steal = d.steal) (hframes : ∀ sf ∈ d'.items, sf ≠ 0)
    (hcount : ∀ x, (o.bind Label.pushed?).toList.count x + (undoHolds d.undo).count x + (popHolds d.pop).count x +
      d.items.count x = (o.bind Label.taken?).toList.count x + (undoHolds d'.undo).count x + (popHolds d'.pop).count x +
      d'.items.count x) : Balanced (tr ++ o.toList) d' loot where
  thieves := h.thieves
  held i sf := by
    rw [hsteal]
    exact h.held i sf
  frames := hframes
  count x := by
    have h1 := h.count x
    have h2 := hcount x
    rw [pushes_concat, takes_concat, List.count_append, List.count_append]
    omega

/-- The newest frame, counted apart. -/
theorem count_dropLast (items : List Nat) (x : Nat) :
    items.count x = items.dropLast.count x + items.getLast?.toList.count x := by
  rcases List.eq_nil_or_concat items with rfl | ⟨older, sf, rfl⟩
  · simp
  · simp [List.count_append]

/-- **The step.** A push adds a frame on both sides; a frame that leaves the deque is held by somebody until it is
    handed out. -/
theorem Balanced.step (h : Balanced tr d loot) {a : Deque.Action} (hs : Deque.step d a = some (d', o)) :
    ∃ loot', Balanced (tr ++ o.toList) d' loot' := by
  have hdrop : ∀ sf ∈ d.items.dropLast, sf ≠ 0 := fun sf hsf => h.frames sf ((List.dropLast_prefix _).subset hsf)
  cases a with
  | push sf =>
      simp only [Deque.step] at hs
      split at hs
      · rename_i hc
        cases hs
        refine ⟨loot, h.same rfl ?_ ?_⟩
        · intro x hx
          rcases List.mem_append.mp hx with hx | hx
          · exact h.frames x hx
          · rw [List.mem_singleton.mp hx]
            exact hc.2.2
        · intro x
          simp [Label.pushed?, Label.taken?, List.count_append]
          omega
      · cases hs
  | undo =>
      simp only [Deque.step] at hs
      split at hs
      · rename_i hc
        cases hs
        exact ⟨loot, h.same rfl h.frames (fun x => by simp [Label.pushed?, Label.taken?, hc.1, undoHolds])⟩
      · cases hs
  | undoTakes =>
      simp only [Deque.step] at hs
      split at hs
      · rename_i hc
        cases hs
        refine ⟨loot, h.same rfl hdrop ?_⟩
        intro x
        have hlast := count_dropLast d.items x
        cases hl : d.items.getLast? with
        | none =>
            rw [hl] at hlast
            simp [hc, undoHolds] at hlast ⊢
            omega
        | some sf =>
            rw [hl] at hlast
            simp [hc, undoHolds] at hlast ⊢
            omega
      · cases hs
  | undoReturns =>
      simp only [Deque.step] at hs
      split at hs
      · rename_i r hr
        cases hs
        refine ⟨loot, h.same rfl h.frames ?_⟩
        intro x
        cases r <;> simp [Label.pushed?, Label.taken?, hr, undoHolds]
      · cases hs
  | pop =>
      simp only [Deque.step] at hs
      split at hs
      · rename_i hc
        cases hs
        exact ⟨loot, h.same rfl h.frames (fun x => by simp [Label.pushed?, Label.taken?, hc.2, popHolds])⟩
      · cases hs
  | popTakes =>
      simp only [Deque.step] at hs
      split at hs
      · rename_i hc
        cases hs
        refine ⟨loot, h.same rfl hdrop ?_⟩
        intro x
        have hlast := count_dropLast d.items x
        cases hl : d.items.getLast? with
        | none =>
            rw [hl] at hlast
            simp [hc, popHolds] at hlast ⊢
            omega
        | some sf =>
            have hne : sf ≠ 0 := h.frames sf (List.mem_of_getLast? hl)
            rw [hl] at hlast
            simp [hc, popHolds, hne] at hlast ⊢
            omega
      · cases hs
  | popReturns =>
      simp only [Deque.step] at hs
      split at hs
      · rename_i sf hsf
        cases hs
        refine ⟨loot, h.same rfl h.frames ?_⟩
        intro x
        by_cases hz : sf = 0
        · simp [Label.pushed?, Label.taken?, hsf, popHolds, hz]
        · simp [Label.pushed?, Label.taken?, hsf, popHolds, hz]
          omega
      · cases hs
  | setup =>
      simp only [Deque.step] at hs
      split at hs
      · cases hs
        exact ⟨loot, h.same rfl h.frames (fun x => by simp [Label.pushed?, Label.taken?])⟩
      · cases hs
  | steal i =>
      simp only [Deque.step] at hs
      split at hs
      · rename_i hc
        cases hs
        refine ⟨loot, h.thieves, ?_, h.frames, ?_⟩
        · intro j sf
          rw [h.held]
          by_cases hj : j = i
          · simp [hj, hc]
          · simp [hj]
        · intro x
          rw [pushes_concat, takes_concat]
          simpa [Label.pushed?, Label.taken?] using h.count x
      · cases hs
  | stealTakes i =>
      simp only [Deque.step] at hs
      split at hs
      · rename_i sf rest hitems
        split at hs
        · rename_i hc
          cases hs
          have hnew : i ∉ loot.map Prod.fst := by
            intro hmem
            obtain ⟨⟨j, sf'⟩, hin, rfl⟩ := List.mem_map.mp hmem
            have := (h.held j sf').mp hin
            simp [hc] at this
          refine ⟨(i, sf) :: loot, by simpa using ⟨by simpa using hnew, h.thieves⟩, ?_, ?_, ?_⟩
          · intro j sf'
            by_cases hj : j = i
            · subst hj
              have hno : (j, sf') ∉ loot := fun hin => hnew (List.mem_map.mpr ⟨_, hin, rfl⟩)
              simp [hno, eq_comm]
            · simp [hj, h.held]
          · intro x hx
            apply h.frames
            rw [hitems]
            exact List.mem_cons_of_mem _ hx
          · intro x
            have hcount := h.count x
            rw [hitems, List.count_cons] at hcount
            simp [pushes, takes, List.count_cons] at hcount ⊢
            omega
        · cases hs
      · cases hs
  | stealReturns i =>
      simp only [Deque.step] at hs
      split at hs
      · rename_i sf hsf
        cases hs
        have hin : (i, sf) ∈ loot := (h.held i sf).mpr hsf
        have hperm := List.perm_cons_erase hin
        refine ⟨loot.erase (i, sf), ?_, ?_, h.frames, ?_⟩
        · have hnodup := (hperm.map Prod.fst).nodup_iff.mp h.thieves
          rw [List.map_cons, List.nodup_cons] at hnodup
          exact hnodup.2
        · intro j sf'
          have hnodup : loot.Nodup := List.Nodup.of_map _ h.thieves
          rw [hnodup.mem_erase_iff, h.held]
          by_cases hj : j = i
          · subst hj
            simp [hsf, eq_comm]
          · simp [hj]
        · intro x
          have hcount := h.count x
          have hsplit := (hperm.map Prod.snd).count_eq x
          rw [List.map_cons, List.count_cons] at hsplit
          rw [pushes_concat, takes_concat]
          simp [Label.pushed?, Label.taken?, List.count_append, List.count_cons] at hcount hsplit ⊢
          omega
      · cases hs
  | stealFails i =>
      simp only [Deque.step] at hs
      split at hs
      · rename_i hc
        cases hs
        refine ⟨loot, h.thieves, ?_, h.frames, ?_⟩
        · intro j sf
          rw [h.held]
          by_cases hj : j = i
          · simp [hj, hc]
          · simp [hj]
        · intro x
          rw [pushes_concat, takes_concat]
          simpa [Label.pushed?, Label.taken?] using h.count x
      · cases hs

/-- **The run**, by induction on the trace. -/
theorem balanced_of_trace (h : Trace Deque.step Deque.init tr d) : ∃ loot, Balanced tr d loot := by
  refine h.history (fun tr d => ∃ loot, Balanced tr d loot) ?_ ?_
  · exact ⟨[], balanced_init⟩
  · rintro tr s a s' o ⟨loot, hb⟩ hs
    exact hb.step hs

end Step

/-- No operation is in progress. -/
def AtRest (s : State) : Prop := (s.owner = .running ∨ s.owner = .away) ∧ ∀ i, s.thief i = .idle

/-- The frames between `head` and `tail`. -/
def onDeque (s : State) : List Nat :=
  (List.range (s.load .tail - s.load .head)).map fun k => s.load (.slot (s.load .head + k))

variable {s : State} {d : Deque} {hd : Nat}

/-- At rest nobody holds the lock: each thread that does is inside an operation. -/
theorem Rel.lock_of_atRest (h : Rel s d hd) (hrest : AtRest s) : s.lock = none := by
  cases hl : s.lock with
  | none => rfl
  | some t =>
      exfalso
      cases t with
      | none =>
          have howner := h.owner
          rcases hrest.1 with hpc | hpc
          · rw [hpc] at howner
            exact howner.1.1 hl
          · rw [hpc] at howner
            exact howner.1.1 hl
      | some i =>
          have ht := h.thief i
          rw [hrest.2 i] at ht
          exact ht.1 hl

/-- What lies between `head` and `tail` at rest are the frames of the deque. -/
theorem Rel.onDeque_eq (h : Rel s d hd) (hrest : AtRest s) : onDeque s = d.items ∧ d.undo = .idle ∧ d.pop = .idle := by
  have hlock := h.lock_of_atRest hrest
  have howner := h.owner
  have hout := (h.owner.outside (by simp [hlock])).2
  have hhead : s.load .head = hd := by
    rw [← (h.free hlock).1]
    exact StoreBuffer.commit_of_not_mem fun w hw => (hout w hw).1
  have htail : s.load .tail - hd = d.items.length ∧ d.undo = .idle ∧ d.pop = .idle := by
    rcases hrest.1 with hpc | hpc
    · rw [hpc] at howner
      obtain ⟨-, ht, hu, hp⟩ := howner
      refine ⟨?_, hu, hp⟩
      rw [load_eq, ht]
      omega
    · rw [hpc] at howner
      obtain ⟨-, -, hnil, hu, hp⟩ := howner
      refine ⟨?_, hu, hp⟩
      have hle := h.view_tail_le
      rw [hnil, List.length_nil] at hle ⊢
      rw [load_eq]
      omega
  refine ⟨?_, htail.2⟩
  apply List.ext_getElem?
  intro k
  unfold onDeque
  rw [hhead, htail.1, List.getElem?_map]
  cases hk : d.items[k]? with
  | none =>
      rw [List.getElem?_eq_none (by simpa using List.getElem?_eq_none_iff.mp hk)]
      simp
  | some sf =>
      rw [List.getElem?_range (List.getElem?_eq_some_iff.mp hk).1]
      simp [load_eq, h.slots k sf hk]

/-- At rest nobody holds a frame. -/
theorem loot_nil (hrest : AtRest s) (h : Rel s d hd) {tr : List Label} {loot : List (Nat × Nat)}
    (hb : Balanced tr d loot) : loot = [] := by
  apply List.eq_nil_iff_forall_not_mem.mpr
  rintro ⟨i, sf⟩ hin
  have hdone := (hb.held i sf).mp hin
  have ht := h.thief i
  rw [hrest.2 i] at ht
  rw [ht.2.2] at hdone
  cases hdone

/-- **No frame is lost or taken twice.** No frame is handed out more often than it was pushed; and when nothing is in
    progress, every frame that was not handed out lies on the deque. -/
theorem frames_conserved {ltqsize : Nat} {tr : List Label} (h : Trace (step ltqsize) (init ltqsize) tr s) :
    (takes tr).Subperm (pushes tr) ∧ (AtRest s → (pushes tr).Perm (takes tr ++ onDeque s)) := by
  obtain ⟨d, htr, hd, hrel⟩ := (simulates ltqsize).trace ⟨0, rel_init ltqsize⟩ h
  obtain ⟨loot, hb⟩ := balanced_of_trace htr
  constructor
  · apply List.subperm_ext_iff.mpr
    intro x _
    have := hb.count x
    omega
  · intro hrest
    obtain ⟨hitems, hundo, hpop⟩ := hrel.onDeque_eq hrest
    have hloot := loot_nil hrest hrel hb
    rw [hitems]
    apply List.perm_iff_count.mpr
    intro x
    have hcount := hb.count x
    rw [hloot, hundo, hpop] at hcount
    simp [undoHolds, popHolds] at hcount
    rw [List.count_append]
    exact hcount

/-- The run of `raceForLast`: one frame pushed, and it is the thief's. -/
theorem frames_conserved_lastStolen : ∃ s, Trace (step 4) (init 4) lastStolen s ∧ AtRest s ∧
    (takes lastStolen).Subperm (pushes lastStolen) ∧ (pushes lastStolen).Perm (takes lastStolen ++ onDeque s) := by
  obtain ⟨s, h, howner, hthief⟩ := trace_lastStolen
  have hrest : AtRest s := ⟨Or.inr howner, hthief⟩
  have hkept := frames_conserved h
  exact ⟨s, h, hrest, hkept.1, hkept.2 hrest⟩

/-! ## The assertions

These are read off the invariant `Rel` and not off the trace, for they are about memory. They hold at every step, with
stores still waiting. -/

/-- What the comments and assertions of `deque.c` say. `CILK_ASSERT(tail < *w->ltq_limit)` of `__cilkrts_detach` is not
    among them: that the deque has room is up to the caller, and a condition of `detach` in `step`. -/
structure Asserts (s : State) : Prop where
  /-- `CILK_ASSERT(*h)` -/
  loot : ∀ i, s.thief i ≠ .inside .failed
  /-- `ASSERT(E >= H)`, as long as the worker does not hold its lock -/
  excHead : s.lock ≠ some none → s.mem.mem .head ≤ s.mem.mem .exc
  /-- `ASSERT(E >= H + 1)`, from the fence of `increment_E` to the result of `dekker_protocol` -/
  excAbove : ∀ i, s.thief i = .inside .fenced ∨ s.thief i = .inside .belowTail ∨ s.thief i = .inside .success →
    s.mem.mem .head + 1 ≤ s.mem.mem .exc
  /-- `H <= T`, in user code -/
  headTail : s.owner = .running → s.load .head ≤ s.load .tail
  /-- the exception handler is entered only when the frame is stolen or a thief holds the lock -/
  handler : s.owner = .undone → s.load .tail < s.load .exc → s.load .tail < s.load .head ∨ ∃ i, s.lock = some (some i)

/-- While the worker does not hold the lock `head` in memory is not beyond the frames that are taken. -/
theorem Rel.head_le (h : Rel s d hd) (hl : s.lock ≠ some none) : s.mem.mem .head ≤ hd := by
  cases hlock : s.lock with
  | none => exact Nat.le_of_eq (h.free hlock).1
  | some t =>
      cases t with
      | none => exact absurd hlock hl
      | some i =>
          have ht := h.thief i
          cases hpc : s.thief i with
          | idle =>
              rw [hpc] at ht
              exact absurd hlock ht.1
          | trying =>
              rw [hpc] at ht
              exact absurd hlock ht.1
          | inside p =>
              rw [hpc] at ht
              have hp := ht.2
              cases p with
              | locked => exact Nat.le_of_eq hp.2.1.1
              | leaving => exact Nat.le_of_eq hp.2.1.1
              | detached k => exact hp.2.2.1
              | taken sf => exact hp.2.1
              | failed => exact hp.elim
              | _ => exact Nat.le_of_eq hp.2.1

/-- The conditions of the code, each from its part of `Rel`. -/
theorem Rel.asserts (h : Rel s d hd) : Asserts s where
  loot i hpc := (h.holds hpc).2.elim
  excHead hl := Nat.le_trans (h.head_le hl) (h.exc hl)
  excAbove i hpc := by
    rcases hpc with hpc | hpc | hpc
    · obtain ⟨-, -, hhead, hexc, -⟩ := h.holds hpc
      omega
    · obtain ⟨-, -, hhead, hexc, -⟩ := h.holds hpc
      omega
    · obtain ⟨-, -, hhead, hexc, -⟩ := h.holds hpc
      omega
  headTail hpc := by
    have howner := h.owner
    rw [hpc] at howner
    obtain ⟨hout, htail, -⟩ := howner
    have hhead : s.load .head = s.mem.mem .head := StoreBuffer.commit_of_not_mem fun w hw => (hout.2 w hw).1
    have hle := h.head_le hout.1
    rw [hhead, load_eq, htail]
    omega
  handler hpc hlt := by
    have howner := h.owner
    rw [hpc] at howner
    obtain ⟨hout, hb, -⟩ := howner
    have hload : ∀ l, s.load l = s.mem.mem l := fun l => congrFun (StoreBuffer.view_of_drained hb) l
    cases hlock : s.lock with
    | none =>
        have hlevel := h.free hlock
        rw [hload .exc, hlevel.2] at hlt
        rw [hload .head, hlevel.1]
        exact Or.inl hlt
    | some t =>
        cases t with
        | none => exact absurd hlock hout.1
        | some i => exact Or.inr ⟨i, rfl⟩

/-- **The assertions hold** in every run. -/
theorem asserts_hold {ltqsize : Nat} {tr : List Label} (h : Trace (step ltqsize) (init ltqsize) tr s) : Asserts s := by
  obtain ⟨d, -, hd, hrel⟩ := (simulates ltqsize).trace ⟨0, rel_init ltqsize⟩ h
  exact hrel.asserts

/-- The run of `raceForLast`. -/
theorem asserts_hold_lastStolen : ∃ s, Trace (step 4) (init 4) lastStolen s ∧ Asserts s := by
  obtain ⟨s, h, -⟩ := trace_lastStolen
  exact ⟨s, h, asserts_hold h⟩

/-! ## Nobody is stuck

A thread that holds the lock waits for nobody: what it still has to do are loads, stores, and fences that its own
store buffer lets through once it is drained. So a thread that waits for the lock waits for one that can go on, and
when nobody holds the lock, any thread in an operation can go on itself. -/

/-- Going on with what thread `t` has begun: its next step, or one of its own stores reaching memory. -/
def ContinuesFor (t : Thread) : Action → Prop
  | .owner => t = none
  | .thief i => t = some i
  | .flush u => u = t
  | _ => False

/-- Thread `t` can go on. -/
def CanGoOn (ltqsize : Nat) (s : State) (t : Thread) : Prop :=
  ∃ a, ContinuesFor t a ∧ (step ltqsize s a).isSome = true

variable {n : Nat}

/-- A thread with stores in its buffer can drain it. -/
theorem canGoOn_of_waiting {t : Thread} (h : ¬Drained s.mem t) : CanGoOn n s t := by
  refine ⟨.flush t, rfl, ?_⟩
  cases hb : s.mem.buf t with
  | nil => exact absurd hb h
  | cons w ws => simp [step, StoreBuffer.flush, hb]

/-- The worker inside its lock. -/
theorem canGoOn_owner {p : OwnerInside} (hb : Drained s.mem none) (hpc : s.owner = .inside p) : CanGoOn n s none := by
  have hb' : s.mem.buf none = [] := hb
  refine ⟨.owner, rfl, ?_⟩
  simp only [step, stepOwner, hpc]
  cases p with
  | checkFenced => by_cases hlt : s.load .head < s.load .tail + 1 <;> simp [stepOwnerInside, hlt]
  | popEnter => by_cases hlt : s.load .head < s.load .tail <;> simp [stepOwnerInside, hlt]
  | _ => simp [stepOwnerInside, State.fenceOwner, State.unlockOwner, hb']

/-- A thief inside the lock. It has not failed its assertion, so it has a next step. -/
theorem canGoOn_thief {i : Nat} {p : ThiefInside} (h : Rel s d hd) (hb : Drained s.mem (some i))
    (hpc : s.thief i = .inside p) : CanGoOn n s (some i) := by
  have hb' : s.mem.buf (some i) = [] := hb
  refine ⟨.thief i, rfl, ?_⟩
  simp only [step, stepThief, hpc]
  cases p with
  | fenced => by_cases hlt : s.loadThief i .head < s.loadThief i .tail <;> simp [stepThiefInside, hlt]
  | belowTail =>
      by_cases hlt : s.loadThief i .head < s.loadThief i .protectedTail <;> simp [stepThiefInside, hlt]
  | success =>
      by_cases hz : s.loadThief i (.slot (s.loadThief i .head)) = 0 <;> simp [stepThiefInside, hz]
  | failed => exact (h.holds hpc).2.elim
  | _ => simp [stepThiefInside, State.fenceThief, State.unlockThief, hb']

/-- **Whoever holds the lock can go on**: it drains its buffer, or it takes its next step. -/
theorem Rel.canGoOn_of_locked (h : Rel s d hd) {t : Thread} (hlock : s.lock = some t) : CanGoOn n s t := by
  by_cases hb : Drained s.mem t
  · cases t with
    | none =>
        have howner := h.owner
        cases hpc : s.owner with
        | inside p => exact canGoOn_owner hb hpc
        | _ =>
            rw [hpc] at howner
            exact absurd hlock howner.1.1
    | some i =>
        have ht := h.thief i
        cases hpc : s.thief i with
        | inside p => exact canGoOn_thief h hb hpc
        | _ =>
            rw [hpc] at ht
            exact absurd hlock ht.1
  · exact canGoOn_of_waiting hb

/-- **While the lock is free**, every thread in an operation can go on: a worker that waits for the lock can take it, and
    so can a thief that tries. -/
theorem Rel.canGoOn_of_free (h : Rel s d hd) (hlock : s.lock = none) {t : Thread}
    (hbusy : match t with
      | none => s.owner ≠ .running ∧ s.owner ≠ .away
      | some i => s.thief i ≠ .idle) : CanGoOn n s t := by
  by_cases hb : Drained s.mem t
  · have hb' : s.mem.buf t = [] := hb
    cases t with
    | none =>
        refine ⟨.owner, rfl, ?_⟩
        have howner := h.owner
        simp only [step, stepOwner]
        cases hpc : s.owner with
        | running => exact absurd hpc hbusy.1
        | away => exact absurd hpc hbusy.2
        | undone => by_cases hlt : s.load .tail < s.load .exc <;> simp [hlt]
        | inside p =>
            rw [hpc, hlock] at howner
            cases howner.1
        | _ => simp [State.fenceOwner, State.lockOwner, hb', hlock]
    | some i =>
        have ht := h.thief i
        cases hpc : s.thief i with
        | idle => exact absurd hpc hbusy
        | trying => exact ⟨.thief i, rfl, by simp [step, stepThief, hpc, hb', hlock]⟩
        | inside p =>
            rw [hpc, hlock] at ht
            cases ht.1
  · exact canGoOn_of_waiting hb

/-- **No deadlock.** As long as an operation is in progress, some thread can go on; and in every reachable state the
    thread that holds the lock, for which the others may be waiting, can go on itself. -/
theorem no_deadlock {ltqsize : Nat} {tr : List Label} (h : Trace (step ltqsize) (init ltqsize) tr s) :
    (¬AtRest s → ∃ t, CanGoOn ltqsize s t) ∧ ∀ t, s.lock = some t → CanGoOn ltqsize s t := by
  obtain ⟨d, -, hd, hrel⟩ := (simulates ltqsize).trace ⟨0, rel_init ltqsize⟩ h
  refine ⟨?_, fun t hlock => hrel.canGoOn_of_locked hlock⟩
  intro hbusy
  cases hlock : s.lock with
  | some t => exact ⟨t, hrel.canGoOn_of_locked hlock⟩
  | none =>
      by_cases hthieves : ∀ i, s.thief i = .idle
      · -- the worker is in an operation
        refine ⟨none, hrel.canGoOn_of_free hlock ⟨?_, ?_⟩⟩
        · exact fun hpc => hbusy ⟨Or.inl hpc, hthieves⟩
        · exact fun hpc => hbusy ⟨Or.inr hpc, hthieves⟩
      · obtain ⟨i, hi⟩ : ∃ i, s.thief i ≠ .idle := by simpa using hthieves
        exact ⟨some i, hrel.canGoOn_of_free hlock hi⟩

/-- The worker waits for its lock in `__cilkrts_pop_tail` while thief `0` holds it, with its store to `exc` still in the
    buffer. -/
def waitsForThief : List Action := [.detach 7, .owner, .flush none, .flush none, .steal 0, .thief 0, .thief 0, .pop]

/-- The worker waits for the lock in `pop_tail`, and the thief that holds it can go on. -/
theorem no_deadlock_contended : ∃ s, Trace (step 4) (init 4) [.pushed 7, .steal 0, .pop] s ∧ s.owner = .popWait ∧
    s.lock = some (some 0) ∧ (∃ t, CanGoOn 4 s t) ∧ CanGoOn 4 s (some 0) := by
  have hrun : ((Machine.run (step 4) (init 4) waitsForThief).map fun r => (r.2, r.1.owner, r.1.lock)) =
      some ([.pushed 7, .steal 0, .pop], .popWait, some (some 0)) := by decide
  obtain ⟨⟨s, tr⟩, hs, heq⟩ := Option.map_eq_some_iff.mp hrun
  simp only [Prod.mk.injEq] at heq
  obtain ⟨rfl, howner, hlock⟩ := heq
  have hd := no_deadlock (Trace.of_run hs)
  refine ⟨s, Trace.of_run hs, howner, hlock, hd.1 ?_, hd.2 _ hlock⟩
  rintro ⟨hpc | hpc, -⟩
  · rw [hpc] at howner
    cases howner
  · rw [hpc] at howner
    cases howner

end FOrder.The
