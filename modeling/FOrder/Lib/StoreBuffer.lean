import Mathlib.Logic.Function.Basic
import Mathlib.Tactic.Common

/-!
# `Lib.StoreBuffer` — shared memory with a store buffer for each thread

The memory of a machine with total store order: a store waits in a first-in first-out buffer of its thread until it
is flushed; a load sees the newest store of its own buffer, or else memory. A fence, and a locked instruction, can
be passed only when the thread's buffer is empty.
-/

namespace FOrder

/-- `buf i` holds the waiting stores of thread `i`, oldest first. -/
structure StoreBuffer (ι L V : Type) where
  mem : L → V
  buf : ι → List (L × V)

namespace StoreBuffer

variable {ι L V : Type}

section Store

variable [DecidableEq ι] {m : StoreBuffer ι L V} {i j : ι} {l : L} {v : V}

/-- A store waits at the end of the buffer of its thread. -/
def store (m : StoreBuffer ι L V) (i : ι) (l : L) (v : V) : StoreBuffer ι L V :=
  { m with buf := Function.update m.buf i (m.buf i ++ [(l, v)]) }

@[simp] theorem mem_store : (m.store i l v).mem = m.mem := rfl

/-- The buffer of the thread that stores. -/
@[simp] theorem buf_store_self : (m.store i l v).buf i = m.buf i ++ [(l, v)] := by simp [store]

/-- The buffers of the others. -/
theorem buf_store_ne (h : j ≠ i) : (m.store i l v).buf j = m.buf j := by simp [store, h]

end Store

variable [DecidableEq L]

/-- Memory after some waiting stores. -/
def commit (mem : L → V) (ws : List (L × V)) : L → V := ws.foldl (fun m w => Function.update m w.1 w.2) mem

/-- What thread `i` loads. -/
def view (m : StoreBuffer ι L V) (i : ι) : L → V := commit m.mem (m.buf i)

/-- The oldest waiting store of thread `i` reaches memory. -/
def flush [DecidableEq ι] (m : StoreBuffer ι L V) (i : ι) : Option (StoreBuffer ι L V) :=
  match m.buf i with
  | [] => none
  | (l, v) :: ws => some ⟨Function.update m.mem l v, Function.update m.buf i ws⟩

variable {m m' : StoreBuffer ι L V} {i j : ι} {l : L} {v : V} {mem : L → V} {ws : List (L × V)}

@[simp] theorem commit_nil : commit mem [] = mem := rfl

@[simp] theorem commit_cons : commit mem ((l, v) :: ws) = commit (Function.update mem l v) ws := rfl

/-- The last store of a buffer is the last to reach memory. -/
theorem commit_concat : commit mem (ws ++ [(l, v)]) = Function.update (commit mem ws) l v := by
  simp [commit]

/-- A location that no waiting store is for. -/
theorem commit_of_not_mem (h : ∀ w ∈ ws, w.1 ≠ l) : commit mem ws l = mem l := by
  induction ws generalizing mem with
  | nil => simp
  | cons w ws ih =>
      have hw : l ≠ w.1 := (h w (by simp)).symm
      have hrest := @ih (Function.update mem w.1 w.2) (fun x hx => h x (by simp [hx]))
      rw [Function.update_of_ne hw] at hrest
      exact hrest

/-- Without waiting stores a thread sees memory. -/
theorem view_of_drained (h : m.buf i = []) : m.view i = m.mem := by
  simp [view, h]

/-! ## What a thread sees -/

section View

variable [DecidableEq ι]

/-- A thread sees its own store at once. -/
@[simp] theorem view_store_self : (m.store i l v).view i = Function.update (m.view i) l v := by
  simp [view, commit_concat]

/-- `flush` as a relation. -/
theorem flush_cases (h : m.flush i = some m') : ∃ l v ws, m.buf i = (l, v) :: ws ∧
    m'.mem = Function.update m.mem l v ∧ m'.buf i = ws ∧ ∀ j, j ≠ i → m'.buf j = m.buf j := by
  unfold flush at h
  split at h
  · cases h
  · rename_i l v ws hbuf
    cases h
    exact ⟨l, v, ws, hbuf, rfl, by simp, fun j hj => by simp [hj]⟩

/-- A thread does not notice its own flushes. -/
theorem view_flush_self (h : m.flush i = some m') : m'.view i = m.view i := by
  obtain ⟨l, v, ws, hbuf, hmem, hself, -⟩ := flush_cases h
  simp [view, hbuf, hmem, hself]

end View

/-! ## What holds at every flush -/

/-- `P` holds of memory now and after each of the waiting stores. -/
def Always (P : (L → V) → Prop) : (L → V) → List (L × V) → Prop
  | mem, [] => P mem
  | mem, (l, v) :: ws => P mem ∧ Always P (Function.update mem l v) ws

variable {P Q : (L → V) → Prop}

/-- What holds all along holds before the first store. -/
theorem Always.now (h : Always P mem ws) : P mem := by
  cases ws with
  | nil => exact h
  | cons w ws => exact h.1

/-- What holds all along still does when the first store has reached memory. -/
theorem Always.flush (h : Always P mem ((l, v) :: ws)) : Always P (Function.update mem l v) ws := h.2

/-- What holds all along holds of what the thread sees. -/
theorem Always.commit (h : Always P mem ws) : P (commit mem ws) := by
  induction ws generalizing mem with
  | nil => exact h
  | cons w ws ih => exact ih h.2

/-- One more store. -/
theorem Always.concat (h : Always P mem ws) (hp : P (Function.update (StoreBuffer.commit mem ws) l v)) :
    Always P mem (ws ++ [(l, v)]) := by
  induction ws generalizing mem with
  | nil => exact ⟨h, hp⟩
  | cons w ws ih => exact ⟨h.1, ih h.2 hp⟩

/-- A weaker condition holds all along, too. -/
theorem Always.mono (h : Always P mem ws) (hpq : ∀ m, P m → Q m) : Always Q mem ws := by
  induction ws generalizing mem with
  | nil => exact hpq _ h
  | cons w ws ih => exact ⟨hpq _ h.1, ih h.2⟩

/-- Another thread's store to a location that `P` does not look at. -/
theorem Always.other (h : Always P mem ws) (hp : ∀ m, P m → P (Function.update m l v)) (hl : ∀ w ∈ ws, w.1 ≠ l) :
    Always P (Function.update mem l v) ws := by
  induction ws generalizing mem with
  | nil => exact hp _ h
  | cons w ws ih =>
      have hw : w.1 ≠ l := hl w (by simp)
      refine ⟨hp _ h.1, ?_⟩
      rw [Function.update_comm hw.symm]
      exact ih h.2 (fun x hx => hl x (by simp [hx]))

/-- A location that no waiting store is for keeps its value. -/
theorem always_of_not_mem (h : ∀ w ∈ ws, w.1 ≠ l) : Always (fun μ => μ l = mem l) mem ws := by
  induction ws generalizing mem with
  | nil => exact rfl
  | cons w ws ih =>
      have hw : l ≠ w.1 := (h w (by simp)).symm
      have hrest := @ih (Function.update mem w.1 w.2) (fun x hx => h x (by simp [hx]))
      rw [Function.update_of_ne hw] at hrest
      exact ⟨rfl, hrest⟩

/-- `Q` holds of memory and each store that waits then, now and after each of the waiting stores. -/
def Waiting (Q : (L → V) → L × V → Prop) : (L → V) → List (L × V) → Prop
  | _, [] => True
  | mem, (l, v) :: ws => (∀ w ∈ (l, v) :: ws, Q mem w) ∧ Waiting Q (Function.update mem l v) ws

variable {R : (L → V) → L × V → Prop}

/-- Every waiting store may be made in memory as it is. -/
theorem Waiting.now (h : Waiting R mem ws) : ∀ w ∈ ws, R mem w := by
  cases ws with
  | nil => simp
  | cons w ws => exact h.1

/-- And still may when the first one has reached memory. -/
theorem Waiting.flush (h : Waiting R mem ((l, v) :: ws)) : Waiting R (Function.update mem l v) ws := h.2

/-- One more store. -/
theorem Waiting.concat (h : Waiting R mem ws) (hr : Always (fun μ => R μ (l, v)) mem ws) :
    Waiting R mem (ws ++ [(l, v)]) := by
  induction ws generalizing mem with
  | nil =>
      have hnow : R mem (l, v) := hr
      exact ⟨by simpa using hnow, trivial⟩
  | cons w ws ih =>
      refine ⟨?_, ih h.2 hr.2⟩
      intro x hx
      have hx' : x ∈ (w :: ws) ++ [(l, v)] := hx
      rcases List.mem_append.mp hx' with hx | hx
      · exact h.1 x hx
      · rw [List.mem_singleton.mp hx]
        exact hr.1

/-- Another thread's store to a location that `R` does not look at. -/
theorem Waiting.other (h : Waiting R mem ws) (hr : ∀ μ w, R μ w → R (Function.update μ l v) w)
    (hl : ∀ w ∈ ws, w.1 ≠ l) : Waiting R (Function.update mem l v) ws := by
  induction ws generalizing mem with
  | nil => trivial
  | cons w ws ih =>
      have hw : w.1 ≠ l := hl w (by simp)
      refine ⟨fun x hx => hr _ _ (h.1 x hx), ?_⟩
      rw [Function.update_comm hw.symm]
      exact ih h.2 (fun x hx => hl x (by simp [hx]))

end StoreBuffer
end FOrder
