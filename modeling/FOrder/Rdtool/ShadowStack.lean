import FOrder.Lib.Order
import FOrder.Rdtool.NodeList
import FOrder.Serial.Machine
import Mathlib.Algebra.Group.Nat.Defs

/-!
# `Rdtool.ShadowStack` — F-Order's callbacks

`shadow_stack.cpp` on one worker: the two orders, the frames, the predecessor lists and `current`. An om insert
puts the new node immediately after its base. The english and the hebrew node of a strand are always made,
copied and cleared together; one number names both. Lists are known by their place in `lists`, since the
callbacks compare their addresses and `Merge` writes to one in place. `none` is a failed assertion or a null
pointer.

The stack is a list with the head frame first. Its array doubles when it is full and halves when it is nearly
empty; `CilkFutureCreate` holds a pointer to a frame across a push, and a write through it is lost when the
push moves the array.

`Tool.step` is the callbacks of one event and `Exec` runs them beside the program; `past` keeps every `Current`
there has been, since shadow memory may hold any of them. What is proved of the runs is spread over `Rdtool.Linked`
(the frames of the tool and of the program), `Rdtool.OrderOk` and `Rdtool.SpOrder` (the orders), `Rdtool.OwnFuture`
and `Rdtool.ListsSound` (futures and lists), and comes together in `Rdtool.PrecedesSound`.
-/

namespace FOrder.Rdtool

open Serial (Event FutId Strand)

abbrev ListPtr := Nat

/-- `FrameData_t`, without the fields for steals. -/
structure FrameData where
  current : Option OmNode
  cont : Option OmNode
  sync : Option OmNode
  currentList : ListPtr
  syncList : Option ListPtr
  oriList : Option ListPtr
  helper : Bool
  futureId : Nat
  deriving DecidableEq

/-- `Current`. -/
structure Current where
  node : OmNode
  list : ListPtr
  futureId : Nat
  deriving DecidableEq

/-- The two orders; `fresh` is the name of the next node. -/
structure Orders where
  english : List OmNode
  hebrew : List OmNode
  deriving DecidableEq

def Orders.fresh (o : Orders) : OmNode := o.english.length

/-- `handles` holds what `CilkFutureFinish` returned for each future. -/
structure Tool where
  orders : Orders
  lists : List NodeList
  stack : List FrameData
  capacity : Nat
  nextFutureId : Nat
  current : Current
  handles : List (Option ListPtr)
  deriving DecidableEq

namespace Tool

/-- `om_precedes` in the two orders. -/
def precE (t : Tool) (x y : OmNode) : Bool := decide (Before t.orders.english x y)
def precH (t : Tool) (x y : OmNode) : Bool := decide (Before t.orders.hebrew x y)

/-! ## The stack -/

def defaultCapacity : Nat := 128

/-- The capacity after a push onto `size` frames. -/
def pushCapacity (capacity size : Nat) : Nat := if size = capacity then capacity * 2 else capacity

/-- The capacity after a pop that leaves `size` frames. -/
def popCapacity (capacity size : Nat) : Nat :=
  if defaultCapacity < capacity ∧ size - 1 < capacity / 2 then capacity / 2 else capacity

/-! ## Lists -/

/-- A new `List` object. -/
def newList (t : Tool) (l : NodeList) : Tool × ListPtr := ({ t with lists := t.lists ++ [l] }, t.lists.length)

/-- `this->Merge(*ori)`. -/
def mergeList (t : Tool) (this ori : ListPtr) : Option Tool := do
  let l ← t.lists[this]?
  let l' ← t.lists[ori]?
  some { t with lists := t.lists.set this (l.merge t.precE t.precH l') }

/-- `new Current(f->current_english, f->current_hebrew, f->current_list, f->future_id)`. -/
def newCurrent (t : Tool) (f : FrameData) : Option Tool := do
  let node ← f.current
  some { t with current := ⟨node, f.currentList, f.futureId⟩ }

/-! ## The callbacks -/

/-- `init_strand` of the first frame. -/
def init : Tool where
  orders := ⟨[0], [0]⟩
  lists := [.new]
  stack := [⟨some 0, none, none, 0, none, none, false, 0⟩]
  capacity := defaultCapacity
  nextFutureId := 1
  current := ⟨0, 0, 0⟩
  handles := []

/-- `do_enter_begin`. -/
def enterBegin (t : Tool) : Option Tool :=
  match t.stack with
  | parent :: rest =>
      some { t with
        stack := ⟨parent.current, none, none, parent.currentList, none, none, false, parent.futureId⟩ ::
          parent :: rest
        capacity := pushCapacity t.capacity (rest.length + 1) }
  | [] => none

/-- The first spawn of a group makes the sync node and the sync list. -/
def openGroup (t : Tool) (parent : FrameData) (base : OmNode) : Tool × FrameData :=
  match parent.sync with
  | some _ => (t, parent)
  | none =>
      let sync := t.orders.fresh
      let (t, syncList) := t.newList .new
      ({ t with orders := ⟨insertAfter base sync t.orders.english, insertAfter base sync t.orders.hebrew⟩ },
        { parent with sync := some sync, syncList := some syncList, oriList := some parent.currentList })

/-- The child and the continuation: after the base in this order in the english list, and the other way
    round in the hebrew one. -/
def insertFork (o : Orders) (base child cont : OmNode) : Orders :=
  ⟨insertAfter child cont (insertAfter base child o.english),
    insertAfter cont child (insertAfter base cont o.hebrew)⟩

/-- `do_detach_begin`. -/
def detachBegin (t : Tool) : Option Tool :=
  match t.stack with
  | parent :: rest =>
      if parent.helper then none
      else do
        let base ← parent.current
        let (t, parent) := t.openGroup parent base
        let child := t.orders.fresh
        let cont := t.orders.fresh + 1
        let f : FrameData := ⟨some child, none, none, parent.currentList, none, none, true, parent.futureId⟩
        let t := { t with
          orders := insertFork t.orders base child cont
          stack := f :: { parent with current := none, cont := some cont } :: rest
          capacity := pushCapacity t.capacity (rest.length + 1) }
        t.newCurrent f
  | [] => none

/-- `do_sync_begin`. -/
def syncBegin (t : Tool) : Option Tool :=
  match t.stack with
  | f :: rest =>
      if f.helper ∨ f.current = none ∨ f.cont ≠ none then none
      else
        match f.sync with
        | none => some t
        | some sync => do
            let t ← if some f.currentList ≠ f.oriList then do
                let syncList ← f.syncList
                t.mergeList syncList f.currentList
              else some t
            some { t with stack := { f with current := some sync, sync := none } :: rest }
  | [] => none

/-- `do_sync_end`. -/
def syncEnd (t : Tool) : Option Tool :=
  match t.stack with
  | f :: rest => do
      let f ← match f.syncList with
        | none => some f
        | some syncList => do
            let l ← t.lists[syncList]?
            some { f with currentList := if l.isEmpty then f.currentList else syncList, syncList := none }
      let t := { t with stack := f :: rest }
      t.newCurrent f
  | [] => none

/-- `do_leave_end` of a frame that is not the last one. -/
def leaveEnd (t : Tool) : Option Tool :=
  match t.stack with
  | child :: parent :: rest =>
      if child.helper then
        if parent.current ≠ none ∨ parent.cont = none ∨ parent.sync = none then none
        else do
          let t ← if parent.currentList ≠ child.currentList then do
              let syncList ← parent.syncList
              t.mergeList syncList child.currentList
            else some t
          let parent := { parent with current := parent.cont, cont := none }
          let t := { t with
            stack := parent :: rest
            capacity := popCapacity t.capacity (rest.length + 1) }
          t.newCurrent parent
      else
        if parent.cont ≠ none then none
        else
          let parent := { parent with current := child.current, currentList := child.currentList }
          let t := { t with
            stack := parent :: rest
            capacity := popCapacity t.capacity (rest.length + 1) }
          t.newCurrent parent
  | _ => none

/-- The list of a new future: what its creator knows, and the create itself. -/
def createdList (t : Tool) (l : NodeList) (parentNode : Node) (futureId : Nat) : NodeList :=
  if !l.isEmpty then l.insert t.precE t.precH parentNode futureId else .single parentNode futureId

/-- `CilkFutureCreate`. -/
def futureCreate (t : Tool) : Option Tool :=
  match t.stack with
  | parent :: _ => do
      let node ← parent.current
      let t' ← t.detachBegin
      match t'.stack with
      | f :: parent' :: rest => do
          -- a write to `parent` goes to the frame that it pointed to before the push
          let kept := decide (t'.capacity = t.capacity)
          let l ← t'.lists[f.currentList]?
          let (t', list) := t'.newList (t'.createdList l ⟨node, node⟩ parent.futureId)
          some { t' with
            stack := { f with futureId := t'.nextFutureId, currentList := list } ::
              (if kept then { parent' with currentList := list } else parent') :: rest
            -- future_id.fetch_add(1)
            nextFutureId := (t'.nextFutureId + 1) % 2 ^ 32
            current := ⟨t'.current.node, list, t'.nextFutureId⟩ }
      | _ => none
  | [] => none

/-- `CilkFutureFinish`; the list it returns is kept for the future. -/
def futureFinish (t : Tool) (fut : FutId) : Option Tool :=
  match t.stack with
  | child :: parent :: rest => do
      let parent := { parent with current := parent.cont, cont := none }
      let node ← child.current
      let l ← t.lists[child.currentList]?
      let (t, ret) := t.newList (l.insert t.precE t.precH ⟨node, node⟩ child.futureId)
      let t := { t with
        stack := parent :: rest
        capacity := popCapacity t.capacity (rest.length + 1)
        handles := t.handles.set fut (some ret) }
      t.newCurrent parent
  | _ => none

/-- `CilkFutureGet(false, list)`. -/
def futureGet (t : Tool) (list : ListPtr) : Option Tool :=
  match t.stack with
  | f :: rest => do
      let l ← t.lists[f.currentList]?
      let l' ← t.lists[list]?
      let (t, currentList) := t.newList (l.union t.precE t.precH l')
      some { t with
        stack := { f with currentList := currentList } :: rest
        current := ⟨t.current.node, currentList, t.current.futureId⟩ }
  | [] => none

/-- The callbacks of each event. -/
def step (t : Tool) (e : Event) : Option Tool :=
  match e with
  | .call => t.enterBegin
  | .ret => t.leaveEnd
  | .spawn => t.detachBegin
  | .spawnRet => t.leaveEnd
  | .sync => do
      let t ← t.syncBegin
      t.syncEnd
  | .create => do
      let t ← t.futureCreate
      some { t with handles := t.handles ++ [none] }
  | .finish fut => t.futureFinish fut
  | .get fut =>
      match t.handles[fut]? with
      | some (some list) => t.futureGet list
      | _ => none

/-- `Precedes`. -/
def precedes (t : Tool) (a b : Current) : Option Bool :=
  if a.futureId = b.futureId ∧ t.precE a.node b.node = true ∧ t.precH a.node b.node = true then some true
  else do
    let l ← t.lists[b.list]?
    some (l.search t.precE t.precH a.node a.futureId)

end Tool

/-! ## Runs -/

/-- A program and the tool side by side; `past` holds the strand and the `Current` of each moment. -/
structure Exec where
  prog : Serial.State
  tool : Tool
  past : List (Strand × Current)
  deriving DecidableEq

/-- Spawned calls and futures run in helper frames, which only call: spawns, syncs and creates happen in
    functions. A create opens a spawn group, so the next sync is a real one. -/
def rules : Serial.Rules where
  canSpawn kind := decide (kind = .function)
  canCreate kind := decide (kind = .function)
  createUnsyncs := true

namespace Exec

def init : Exec := ⟨Serial.init, .init, [(0, Tool.init.current)]⟩

def step (x : Exec) (e : Event) : Option Exec := do
  let prog ← Serial.step rules x.prog e
  let tool ← x.tool.step e
  some ⟨prog, tool, x.past ++ [(prog.cur, tool.current)]⟩

def runFrom : Exec → List Event → Option Exec
  | x, [] => some x
  | x, e :: es => do
      let x' ← step x e
      runFrom x' es

def run (es : List Event) : Option Exec := runFrom init es

theorem runFrom_concat {x : Exec} {es : List Event} {e : Event} :
    runFrom x (es ++ [e]) = (runFrom x es).bind fun y => step y e := by
  induction es generalizing x with
  | nil =>
      show (step x e).bind (fun y => some y) = step x e
      exact Option.bind_fun_some _
  | cons a es ih =>
      show (step x a).bind (fun y => runFrom y (es ++ [e])) = _
      simp only [ih]
      exact (Option.bind_assoc _ _ _).symm

theorem run_concat {es : List Event} {e : Event} : run (es ++ [e]) = (run es).bind fun y => step y e :=
  runFrom_concat

end Exec
end FOrder.Rdtool
