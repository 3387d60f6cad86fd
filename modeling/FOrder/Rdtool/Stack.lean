import Mathlib.Algebra.Group.Nat.Defs
import Mathlib.Tactic.Common

/-!
# `Rdtool.Stack` — the shadow deque

`stack.h`: an array of frames with a head, a tail up to which it has been stolen from, and a capacity that
doubles and halves. The indices are `uint32_t` and the head of an empty stack is all ones. Where nothing has been
stored the array holds `default`, of which nothing is assumed. The lock is left out: a call runs alone.
-/

namespace FOrder.Rdtool

/-- Why an operation does not return: an assertion fails, or the access is outside the array or a signed index
    overflows. -/
inductive Fault where
  | assertion
  | undefined
  deriving DecidableEq

def check (p : Prop) [Decidable p] : Except Fault Unit := if p then .ok () else .error .assertion

/-- `FrameData_t`: its flags and the other fields. -/
structure Frame (D : Type) where
  flags : BitVec 32
  rest : D
  deriving DecidableEq, Inhabited

/-- `FRAME_HELPER_MASK`. -/
def frameHelperMask : BitVec 32 := 1

/-- `FRAME_FULL_MASK`. -/
def frameFullMask : BitVec 32 := 2

variable {D : Type}

def Frame.helper (f : Frame D) : Bool := f.flags &&& frameHelperMask != 0

def Frame.markFull (f : Frame D) : Frame D := { f with flags := f.flags ||| frameFullMask }

/-! ## `uint32_t` -/

/-- `(uint32_t)-1`. -/
def noHead : Nat := 2 ^ 32 - 1

def inc (x : Nat) : Nat := if x = noHead then 0 else x + 1

def dec (x : Nat) : Nat := if x = 0 then noHead else x - 1

/-! ## `Stack_t` -/

/-- `_stack` has `_capacity` entries. -/
structure Stack (D : Type) where
  stack : List (Frame D)
  capacity : Nat
  head : Nat
  tail : Nat
  deriving DecidableEq

namespace Stack

def defaultCapacity : Nat := 128

section Plain

variable [Inhabited D]

def new : Stack D := ⟨List.replicate defaultCapacity default, defaultCapacity, noHead, 0⟩

/-- `_resize`. -/
def resize (σ : Stack D) (newCapacity : Nat) : Stack D :=
  let copyEnd := if newCapacity < σ.capacity then newCapacity else σ.capacity
  { σ with
    stack := σ.stack.take copyEnd ++ List.replicate (newCapacity - copyEnd) default
    capacity := newCapacity }

def doubleCap (σ : Stack D) : Stack D := σ.resize (σ.capacity * 2 % 2 ^ 32)

def halveCap (σ : Stack D) : Stack D := σ.resize (σ.capacity / 2)

def push (σ : Stack D) : Stack D :=
  let σ := { σ with head := inc σ.head }
  if σ.head = σ.capacity then σ.doubleCap else σ

/-- `Stack_t::pop`. -/
def popPlain (σ : Stack D) : Stack D :=
  let σ := { σ with head := dec σ.head }
  if defaultCapacity < σ.capacity ∧ σ.head < σ.capacity / 2 then σ.halveCap else σ

end Plain

def size (σ : Stack D) : Nat := inc σ.head

def read (σ : Stack D) (i : Nat) : Except Fault (Frame D) :=
  match σ.stack[i]? with
  | some f => .ok f
  | none => .error .undefined

def write (σ : Stack D) (i : Nat) (f : Frame D) : Except Fault (Stack D) :=
  if i < σ.stack.length then .ok { σ with stack := σ.stack.set i f } else .error .undefined

/-- `ancestor(i)`, as an index. -/
def ancestor (σ : Stack D) (i : Nat) : Except Fault Nat := do
  check (i ≤ σ.head)
  check (σ.head < σ.capacity)
  .ok (σ.head - i)

/-- `at(i)`, as an index. -/
def atIndex (σ : Stack D) (i : Nat) : Except Fault Nat := do
  check (i ≤ σ.head)
  check (σ.head < σ.capacity)
  .ok i

/-- `*head()`. -/
def headFrame (σ : Stack D) : Except Fault (Frame D) := do
  let i ← σ.ancestor 0
  σ.read i

/-- `*head() = f`. -/
def setHead (σ : Stack D) (f : Frame D) : Except Fault (Stack D) := do
  let i ← σ.ancestor 0
  σ.write i f

/-- A caller writes through the pointer that `at(i)` returns. -/
def setAt (σ : Stack D) (i : Nat) (f : Frame D) : Except Fault (Stack D) := do
  let i ← σ.atIndex i
  σ.write i f

/-! ## `AtomicStack_t` -/

variable [Inhabited D]

def pushHelper (σ : Stack D) : Except Fault (Stack D) := do
  check (σ.head ≠ noHead)
  let f ← σ.headFrame
  check (f.helper = false)
  let σ := σ.push
  let f ← σ.headFrame
  σ.setHead { f with flags := frameHelperMask }

def add (σ : Stack D) (item : Frame D) : Except Fault (Stack D) := σ.push.setHead item

/-- `reset`, with its `memset`. -/
def reset (σ : Stack D) : Stack D :=
  { σ with
    stack := List.replicate (min σ.size σ.stack.length) default ++ σ.stack.drop σ.size
    head := noHead
    tail := 0 }

def pop (σ : Stack D) : Except Fault (Stack D) := do
  check (σ.tail ≤ σ.head)
  let σ := σ.popPlain
  let σ ← if σ.head < σ.tail then do
      let σ := { σ with tail := dec σ.tail }
      check (σ.tail = σ.head)
      .ok σ
    else .ok σ
  check (σ.tail ≤ σ.head)
  .ok σ

/-- The first loop of `steal_top`: the frames from `i` on, as many as there are below the tail. -/
def copyBelow (victim : Stack D) : Nat → Nat → Stack D → Except Fault (Stack D)
  | 0, _, thief => .ok thief
  | n + 1, i, thief => do
      let thief := thief.push
      let f ← victim.read i
      let thief ← thief.setHead f
      let f ← thief.headFrame
      let thief ← thief.setHead f.markFull
      copyBelow victim n (i + 1) thief

/-- The second loop of `steal_top`: up to the next helper. Each round reads one frame further on, so there are at
    most as many as the array has entries. -/
def copyToHelper : Nat → Stack D → Frame D → Stack D → Except Fault (Stack D × Frame D × Stack D)
  | 0, _, _, _ => .error .undefined
  | n + 1, victim, f, thief =>
      if f.helper then .ok (victim, f, thief)
      else do
        check (victim.tail ≤ victim.head)
        let thief ← thief.push.setHead f
        let victim := { victim with tail := inc victim.tail }
        let f ← victim.read victim.tail
        copyToHelper n victim f thief

/-- `victim.steal_top(thief)`: the new victim and the new thief. -/
def stealTop (victim thief : Stack D) : Except Fault (Stack D × Stack D) := do
  check (victim.tail ≠ noHead)
  check (victim.tail ≤ victim.head)
  check (thief.size = 0)
  let thief := { thief with tail := victim.tail }
  let thief ← copyBelow victim victim.tail 0 thief
  let f ← victim.read victim.tail
  let thief ← thief.push.setHead f
  let victim := { victim with tail := inc victim.tail }
  let f ← victim.read victim.tail
  let (victim, f, thief) ← copyToHelper victim.stack.length victim f thief
  let victim := if victim.head < victim.tail then { victim with tail := victim.head } else victim
  check (f.helper = true)
  check (victim.tail ≤ victim.head)
  let g ← thief.headFrame
  check (g.helper = false)
  .ok (victim, thief)

/-- The loop of `transfer`: `int i` is compared with the unsigned head, and overflows at `2 ^ 31`. Each round reads
    one frame further on. -/
def copyAll (this : Stack D) : Nat → Nat → Stack D → Except Fault (Stack D)
  | 0, _, _ => .error .undefined
  | n + 1, i, orig =>
      if i ≤ this.head then do
        let orig := orig.push
        let f ← this.read i
        let orig ← orig.setHead f
        if i + 1 < 2 ^ 31 then copyAll this n (i + 1) orig else .error .undefined
      else .ok orig

/-- `this.transfer(orig)`: the new `orig`; `this` is only read. -/
def transfer (this orig : Stack D) : Except Fault (Stack D) := do
  let orig ← copyAll this (this.stack.length + 1) 0 orig.reset
  .ok { orig with tail := this.tail }

end Stack
end FOrder.Rdtool
