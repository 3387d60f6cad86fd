import FOrder.Lib.LinkChain
import FOrder.Lib.Run
import Mathlib.Data.Fintype.Basic
import Mathlib.Logic.Function.Basic

/-!
# `Suspend.FutureBase` — the waiting list of a future

`future_base.h`: a deque that gets an unfinished future pushes the one link it has onto the list at the future's
`tail` and suspends itself; `put` takes the list away and makes the deques on it resumable one after the other.
Every read, write, exchange and compare-exchange of shared memory is a step of its own, and the steps of any
number of deques and puts interleave freely. A deque that was made resumable runs on at once.
-/

namespace FOrder.Suspend

/-- A `__cilkrts_deque_link`: the `head` of a future, or the link inside a deque. -/
inductive Link (F D : Type) where
  | head (f : F)
  | deque (d : D)
  deriving DecidableEq

/-- Where a deque stands in `get`; `t` is its local variable. -/
inductive Getter (F D : Type) where
  | running
  | entering (f : F)
  | linking (f : F) (t : Link F D)
  | swapping (f : F) (t : Link F D)
  | enqueued (f : F)
  | suspended (f : F)
  deriving DecidableEq

/-- Where `put` stands in `resume_deques`; `t` is its local variable. -/
inductive Putter (F D : Type) where
  | idle
  | testing (t : Link F D)
  | resuming (t : Link F D)
  | advancing (t : Link F D)
  | last (t : Link F D)
  | done
  deriving DecidableEq

/-- What a run is judged by: a compare-exchange has put `d` on the list of `f`; the put of `f` has made `d`
resumable, which was waiting on `g`. -/
inductive Event (F D : Type) where
  | enqueued (d : D) (f : F)
  | resumed (f : F) (d : D) (g : F)
  deriving DecidableEq

structure State (F D : Type) where
  tail : F → Option (Link F D)
  next : D → Option (Link F D)
  deque : D → Getter F D
  put : F → Putter F D
  log : List (Event F D)

inductive Action (F D : Type) where
  | get (d : D) (f : F)
  | readTail (d : D)
  | writeLink (d : D)
  | compareExchange (d : D)
  | suspend (d : D)
  | exchange (f : F)
  | test (f : F)
  | resume (f : F)
  | advance (f : F)
  | finish (f : F)
  deriving DecidableEq

variable {F D : Type}

/-- Every `tail` points to the `head` of its future, nothing has happened. -/
def init : State F D where
  tail := fun f => some (.head f)
  next := fun _ => none
  deque := fun _ => .running
  put := fun _ => .idle
  log := []

/-- `t->next`; that of a head is never written. -/
def State.nextOf (s : State F D) : Link F D → Option (Link F D)
  | .head _ => none
  | .deque d => s.next d

/-- The deque is on the list of `f`, or about to suspend itself for it. -/
def WaitsOn (s : State F D) (d : D) (f : F) : Prop :=
  s.deque d = .enqueued f ∨ s.deque d = .suspended f

/-! ## Updates -/

/-- A deque goes on to another place of the code. -/
def State.setDeque [DecidableEq D] (s : State F D) (d : D) (pc : Getter F D) : State F D :=
  { s with deque := Function.update s.deque d pc }

/-- The put of a future goes on. -/
def State.setPut [DecidableEq F] (s : State F D) (f : F) (pc : Putter F D) : State F D :=
  { s with put := Function.update s.put f pc }

/-- A store to `tail` of a future. -/
def State.setTail [DecidableEq F] (s : State F D) (f : F) (t : Option (Link F D)) : State F D :=
  { s with tail := Function.update s.tail f t }

/-- A store to `next` of a deque. -/
def State.setNext [DecidableEq D] (s : State F D) (d : D) (t : Link F D) : State F D :=
  { s with next := Function.update s.next d (some t) }

/-- Something that the outside can see. -/
def State.record (s : State F D) (e : Event F D) : State F D :=
  { s with log := s.log ++ [e] }

section

variable [DecidableEq D]

@[simp] theorem setDeque_deque_self (s : State F D) (d : D) (pc : Getter F D) :
    (s.setDeque d pc).deque d = pc := by
  simp [State.setDeque]

@[simp] theorem setDeque_deque_ne (s : State F D) {d e : D} (pc : Getter F D) (h : e ≠ d) :
    (s.setDeque d pc).deque e = s.deque e := by
  simp [State.setDeque, h]

@[simp] theorem setNext_next_self (s : State F D) (d : D) (t : Link F D) :
    (s.setNext d t).next d = some t := by
  simp [State.setNext]

@[simp] theorem setNext_next_ne (s : State F D) {d e : D} (t : Link F D) (h : e ≠ d) :
    (s.setNext d t).next e = s.next e := by
  simp [State.setNext, h]

end

section

variable [DecidableEq F]

@[simp] theorem setPut_put_self (s : State F D) (f : F) (pc : Putter F D) :
    (s.setPut f pc).put f = pc := by
  simp [State.setPut]

@[simp] theorem setPut_put_ne (s : State F D) {f g : F} (pc : Putter F D) (h : g ≠ f) :
    (s.setPut f pc).put g = s.put g := by
  simp [State.setPut, h]

@[simp] theorem setTail_tail_self (s : State F D) (f : F) (t : Option (Link F D)) :
    (s.setTail f t).tail f = t := by
  simp [State.setTail]

@[simp] theorem setTail_tail_ne (s : State F D) {f g : F} (t : Option (Link F D)) (h : g ≠ f) :
    (s.setTail f t).tail g = s.tail g := by
  simp [State.setTail, h]

end

/-! ## Steps -/

variable [DecidableEq F] [DecidableEq D]

instance (s : State F D) (d : D) (f : F) : Decidable (WaitsOn s d f) :=
  inferInstanceAs (Decidable (_ ∨ _))

/-- `if (!this->ready()) suspend_deque();` -/
def get (s : State F D) (d : D) (f : F) : Option (State F D) :=
  match s.deque d with
  | .running => some (if s.tail f = none then s else s.setDeque d (.entering f))
  | _ => none

/-- `t = tail;`, and the test of the loop. -/
def readTail (s : State F D) (d : D) : Option (State F D) :=
  match s.deque d with
  | .entering f =>
      match s.tail f with
      | some t => some (s.setDeque d (.linking f t))
      | none => some (s.setDeque d .running)
  | _ => none

/-- `l->next = t;` -/
def writeLink (s : State F D) (d : D) : Option (State F D) :=
  match s.deque d with
  | .linking f t => some ((s.setNext d t).setDeque d (.swapping f t))
  | _ => none

/-- `__atomic_compare_exchange_n(&tail, &t, l)`; when it fails, `t = tail;` comes next. -/
def compareExchange (s : State F D) (d : D) : Option (State F D) :=
  match s.deque d with
  | .swapping f t =>
      if s.tail f = some t then
        some (((s.setTail f (some (.deque d))).setDeque d (.enqueued f)).record (.enqueued d f))
      else some (s.setDeque d (.entering f))
  | _ => none

/-- `__cilkrts_suspend_deque();` -/
def suspend (s : State F D) (d : D) : Option (State F D) :=
  match s.deque d with
  | .enqueued f => some (s.setDeque d (.suspended f))
  | _ => none

/-- `t = __atomic_exchange_n(&tail, NULL);` -/
def exchange (s : State F D) (f : F) : Option (State F D) :=
  match s.put f with
  | .idle => (s.tail f).map fun t => (s.setTail f none).setPut f (.testing t)
  | _ => none

/-- `while (t->next != NULL)` -/
def test (s : State F D) (f : F) : Option (State F D) :=
  match s.put f with
  | .testing t => some (s.setPut f (if s.nextOf t = none then .last t else .resuming t))
  | _ => none

/-- `__cilkrts_make_resumable(t->d);`: it waits until the deque is suspended. A head has no deque. -/
def makeResumable (s : State F D) (f : F) : Link F D → Option (State F D)
  | .head _ => none
  | .deque d =>
      match s.deque d with
      | .suspended g => some ((s.setDeque d .running).record (.resumed f d g))
      | _ => none

omit [DecidableEq F] in
/-- A deque is made resumable only when it is suspended, and then it runs again. -/
theorem makeResumable_deque {s s' : State F D} {f : F} {d : D} (h : makeResumable s f (.deque d) = some s') :
    ∃ g, s.deque d = .suspended g ∧ s' = (s.setDeque d .running).record (.resumed f d g) := by
  cases hpc : s.deque d with
  | suspended g =>
      simp only [makeResumable, hpc, Option.some.injEq] at h
      exact ⟨g, rfl, h.symm⟩
  | _ => simp [makeResumable, hpc] at h

def resume (s : State F D) (f : F) : Option (State F D) :=
  match s.put f with
  | .resuming t => (makeResumable s f t).map fun s' => s'.setPut f (.advancing t)
  | _ => none

/-- `t = t->next;` -/
def advance (s : State F D) (f : F) : Option (State F D) :=
  match s.put f with
  | .advancing t => (s.nextOf t).map fun u => s.setPut f (.testing u)
  | _ => none

/-- `if (t->d) __cilkrts_resume_suspended(t->d, 2);` -/
def finish (s : State F D) (f : F) : Option (State F D) :=
  match s.put f with
  | .last (.head _) => some (s.setPut f .done)
  | .last t => (makeResumable s f t).map fun s' => s'.setPut f .done
  | _ => none

def step (s : State F D) : Action F D → Option (State F D)
  | .get d f => get s d f
  | .readTail d => readTail s d
  | .writeLink d => writeLink s d
  | .compareExchange d => compareExchange s d
  | .suspend d => suspend s d
  | .exchange f => exchange s f
  | .test f => test s f
  | .resume f => resume s f
  | .advance f => advance s f
  | .finish f => finish s f

/-! ## What a run should do -/

/-- The steps of the put of `f`, and the suspensions it may have to wait for. -/
def putStep (f : F) (s : State F D) : Action F D → Prop
  | .exchange g | .test g | .resume g | .advance g | .finish g => g = f
  | .suspend d => s.deque d = .enqueued f
  | _ => False

/-- **Exactly the right waiters are woken**: a put wakes only deques that wait on its own future, which were
enqueued on it, and none twice; when it is done, it has woken all of them; and once begun it can always be
brought to its end by its own steps and the suspensions of deques that wait for it. -/
structure RightWakeups (s : State F D) : Prop where
  own : ∀ f d g, .resumed f d g ∈ s.log → g = f ∧ .enqueued d f ∈ s.log
  atMostOnce : ∀ f d, s.log.count (.resumed f d f) ≤ 1
  all : ∀ f d, s.put f = .done → .enqueued d f ∈ s.log → .resumed f d f ∈ s.log
  finishes : ∀ f, s.put f ≠ .idle → ∃ s', Reaches step (putStep f) s s' ∧ s'.put f = .done

/-- No deque writes its link while a put that has made it resumable has still to read it. -/
def LinkFree (s : State F D) : Action F D → Prop
  | .writeLink d => ∀ f, s.put f ≠ .advancing (.deque d)
  | _ => True

instance [Fintype F] (s : State F D) (a : Action F D) : Decidable (LinkFree s a) :=
  match a with
  | .writeLink d => inferInstanceAs (Decidable (∀ f, s.put f ≠ .advancing (.deque d)))
  | .get _ _ | .readTail _ | .compareExchange _ | .suspend _ | .exchange _ | .test _ | .resume _ | .advance _
  | .finish _ => isTrue trivial

end FOrder.Suspend
