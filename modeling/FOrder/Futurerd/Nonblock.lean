import FOrder.Futurerd.ReachGen
import FOrder.Futurerd.Structured
import Mathlib.Data.Option.Basic

/-!
# `Futurerd.Nonblock` — MultiBags+ for general futures

`reach_nonblock.cpp`, function by function. Every strand has a node; the nodes are kept in disjoint sets, and a
set whose root has an id is **attached**: it stands for a node of the graph `R`. An unattached set only knows an
attached set before it and, after a sync, one behind it. Nodes are numbered in the order of `new node`, a null
pointer that is dereferenced and a failed assertion are `none`.

`find` shortens paths in the source. Only the roots are ever looked at and `UF.find_spec`, `UF.merge_union` say
that they do not depend on it, so the forest here is left as it is.

The sets and the graph `R` are in the state, the fork stacks in the frames, and every callback takes its steps in
the order of the source: where the source writes to a set and then reads it through another pointer, so does this.
`calls` is written and never read by the callbacks; what the matrix holds after them is the subject of
`Futurerd.NonblockRows` and `Futurerd.NonblockClosure`.
-/

namespace FOrder.Futurerd.Nonblock

/-- `nonblock::node`; its parent pointer is in the forest. -/
structure Node where
  attPred : Option Nat
  attSucc : Option Nat
  id : Nat
  sbag : Option Nat
  deriving DecidableEq, Inhabited

/-- `fork_node_data`. -/
structure ForkNodeData where
  fork : Option Nat
  lfc : Option Nat
  rfc : Option Nat
  ljp : Option Nat
  deriving DecidableEq

/-- `nonblock::sframe_data`; the fork stack has its head first. -/
structure SframeData where
  sp : Structured.SframeData
  futureFork : Option Nat
  forkStack : List ForkNodeData
  deriving DecidableEq

/-- `nonblock::sfut_data`. -/
structure SfutData where
  putStrand : Option Nat
  deriving DecidableEq

/-- The members of `nonblock` and the nodes. `calls` are the calls made on `m_R` so far; the source keeps no
    such list, it is there to speak about them. -/
structure State where
  mR : General
  mSp : Bags
  nodes : List Node
  parent : List Nat
  tCurrent : Nat
  calls : List General.Op
  deriving DecidableEq

namespace State

variable (σ : State)

def node (x : Nat) : Node := σ.nodes.getD x default

/-- `x->find()`. -/
def find (x : Nat) : Nat := UF.rep σ.parent x

/-- `*x->find()`. -/
def setOf (x : Nat) : Node := σ.node (σ.find x)

/-- `x->find()->attached()`. -/
def attached (x : Nat) : Bool := 0 < (σ.setOf x).id

def modify (x : Nat) (g : Node → Node) : State := { σ with nodes := σ.nodes.modify x g }

/-- `new node(id)`. -/
def newNode (id : Nat) : State × Nat :=
  ({ σ with nodes := σ.nodes ++ [⟨none, none, id, none⟩], parent := UF.add σ.parent }, σ.nodes.length)

/-- `x->merge(y)`: always `y` into `x`. -/
def merge (x y : Nat) : State := { σ with parent := UF.union σ.parent x y }

/-- `m_R.add_node()`. -/
def addNode : State × Nat :=
  ({ σ with mR := σ.mR.addNode.1, calls := σ.calls ++ [.addNode] }, σ.mR.addNode.2)

/-- `m_R.add_edge(from, to)`. -/
def addEdge (src dst : Nat) : Option State := do
  let mR ← σ.mR.addEdge src dst
  some { σ with mR := mR, calls := σ.calls ++ [.addEdge src dst] }

/-- `att_pred = att_succ = this`. -/
def setSelf (x : Nat) : State := σ.modify x fun n => { n with attPred := some x, attSucc := some x }

/-- `t_current = x; x->sbag = bag`. -/
def setCurrent (x : Nat) (bag : Option Nat) : State :=
  { σ.modify x fun n => { n with sbag := bag } with tCurrent := x }

end State

/-- `attachify`. -/
def attachify (σ : State) (n : Nat) : Option State :=
  let su := σ.find n
  if σ.attached n then some σ
  else do
    guard ((σ.node su).id = 0)
    let (σ, id) := σ.addNode
    let σ := σ.modify su fun n => { n with id := id }
    let attPred ← (σ.node su).attPred
    guard ((σ.setOf attPred).id ≤ id)
    let σ ← σ.addEdge (σ.setOf attPred).id id
    guard ((σ.node su).attSucc = none)
    some (σ.modify su fun n => { n with attSucc := some su })

/-- `init`; `m_R` is the graph that `general()` makes. -/
def init (initial : SframeData) : Option (State × SframeData) := do
  let (sp, fsp) ← Structured.ds.init initial.sp
  let σ : State := ⟨.new, sp, [], [], 0, []⟩
  let (σ, u) := σ.newNode 0
  let σ := (σ.modify u fun n => { n with attPred := some u }).setCurrent u fsp.sbag
  let σ ← attachify σ u
  some (σ, { initial with sp := fsp })

/-! ## Creating parallelism -/

def beginStrand (σ : State) (f p : SframeData) : Option (State × SframeData) := do
  let (sp, fsp) ← Structured.ds.beginStrand σ.mSp f.sp p.sp
  some ({ σ with mSp := sp }, { f with sp := fsp })

/-- `at_spawn(f, h)`: the new `h`. -/
def atSpawn (σ : State) (f h : SframeData) : Option (State × SframeData) := do
  let (sp, hsp) ← Structured.ds.atSpawn σ.mSp f.sp h.sp
  let σ := { σ with mSp := sp }
  let u := σ.tCurrent
  let (σ, v) := σ.newNode 0
  let attPred := (σ.setOf u).attPred
  let σ := σ.modify v fun n => { n with attPred := attPred }
  let p ← attPred
  guard (0 < (σ.node p).id)
  let σ := σ.setCurrent v hsp.sbag
  some (σ, { h with sp := hsp, forkStack := ⟨some u, some v, none, none⟩ :: h.forkStack })

/-- A new attached set behind the set of `u`: what a create and a get begin with. -/
def newAttached (σ : State) (u : Nat) : Option (State × Nat) := do
  let (σ, id) := σ.addNode
  let (σ, v) := σ.newNode id
  let σ ← σ.addEdge (σ.setOf u).id id
  guard (σ.find v = v)
  some (σ.setSelf v, v)

def atFutureCreate (σ : State) (f : SframeData) : Option (State × SframeData) := do
  let (sp, fsp) ← Structured.ds.atFutureCreate σ.mSp f.sp
  let σ := { σ with mSp := sp }
  let u := σ.tCurrent
  guard (f.futureFork = none)
  let σ ← attachify σ u
  let (σ, v) ← newAttached σ u
  some (σ.setCurrent v fsp.sbag, { f with sp := fsp, futureFork := some u })

/-! ## Ending parallelism -/

def atFutureGet (σ : State) (f : SframeData) (fut : SfutData) : Option (State × SframeData) := do
  let w ← fut.putStrand
  let u := σ.tCurrent
  let σ ← attachify σ u
  let (σ, v) ← newAttached σ u
  guard (σ.attached w)
  let σ ← σ.addEdge (σ.setOf w).id (σ.node v).id
  some (σ.setCurrent v f.sp.sbag, f)

/-- `handle_binary_fork_at_sync`; `rjp` stands in for the right join parent. -/
def handleBinaryForkAtSync (σ : State) (f lfc rfc ljp rjp : Nat) : Option State :=
  let ljpAttached := σ.attached ljp
  let rjpAttached := σ.attached rjp
  if !ljpAttached && !rjpAttached then do
    guard (σ.find lfc = σ.find ljp ∧ σ.find rfc = σ.find rjp)
    guard ((σ.setOf f).attPred = (σ.setOf ljp).attPred)
    guard ((σ.setOf f).attPred = (σ.setOf rjp).attPred)
    some ((σ.merge f ljp).merge f rjp)
  else if ljpAttached && rjpAttached then do
    let σ ← attachify σ f
    guard (σ.attached f)
    guard (σ.attached lfc)
    guard (σ.attached rfc)
    let σ ← σ.addEdge (σ.setOf f).id (σ.setOf lfc).id
    σ.addEdge (σ.setOf f).id (σ.setOf rfc).id
  else do
    let (attSucc, unattSucc) := if ljpAttached then (σ.find lfc, σ.find rfc) else (σ.find rfc, σ.find lfc)
    guard (0 < (σ.node attSucc).id)
    guard (¬0 < (σ.node unattSucc).id)
    let σ := if σ.attached f then σ else σ.merge attSucc f
    guard (σ.attached f)
    some σ

/-- The first loop of `perform_join`: the forks from the last one back, with the fork handled before as
    `fake_rjp`; also `num_attached` and `join_parents`. -/
def joinForks (σ : State) (fakeRjp numAttached : Nat) (joinParents : List Nat) :
    List ForkNodeData → Option (State × Nat × List Nat)
  | [] => some (σ, numAttached, joinParents)
  | fndata :: forkStack => do
      let fork ← fndata.fork
      let lfc ← fndata.lfc
      let rfc ← fndata.rfc
      let ljp ← fndata.ljp
      let σ ← handleBinaryForkAtSync σ fork lfc rfc ljp fakeRjp
      let numAttached := if σ.attached fork then numAttached + 1 else numAttached
      guard (0 < numAttached ∨ σ.find σ.tCurrent = σ.find fork)
      joinForks σ fork numAttached (joinParents ++ [ljp]) forkStack

/-- One step of the second loop: an attached join parent takes in the join node. -/
def mergeJoin (j : Nat) (σ : State) (joinParent : Nat) : State :=
  if σ.attached joinParent then σ.merge joinParent j else σ

/-- One step of the third loop: a join parent learns what comes behind it. -/
def linkJoin (j : Nat) (σ : State) (joinParent : Nat) : Option State :=
  let pset := σ.find joinParent
  if σ.attached joinParent then σ.addEdge (σ.node pset).id (σ.setOf j).id
  else some (σ.modify pset fun n => { n with attSucc := some (σ.find j) })

/-- The set of the join node, by the number of attached branches. -/
def placeJoin (σ : State) (j numAttached : Nat) (joinParents : List Nat) : Option State :=
  if numAttached = 0 then do
    let σ := σ.merge σ.tCurrent j
    guard (¬σ.attached j ∧ (σ.setOf j).attPred ≠ none)
    some σ
  else if numAttached = 1 then some (joinParents.foldl (mergeJoin j) σ)
  else do
    guard ((σ.node j).id = 0)
    let (σ, id) := σ.addNode
    some ((σ.modify j fun n => { n with id := id }).setSelf j)

/-- `perform_join`: the join node. -/
def performJoin (σ : State) (f : SframeData) : Option (State × Nat) := do
  let numJparents := f.forkStack.length + 1
  guard ((σ.setOf σ.tCurrent).attPred ≠ none)
  let (σ, j) := σ.newNode 0
  guard (σ.find j = j)
  let numAttached := if σ.attached σ.tCurrent then 1 else 0
  let (σ, numAttached, joinParents) ← joinForks σ σ.tCurrent numAttached [σ.tCurrent] f.forkStack
  guard (joinParents.length = numJparents)
  let σ ← placeJoin σ j numAttached joinParents
  let σ ← if 0 < numAttached then do
      guard (σ.attached j)
      joinParents.foldlM (linkJoin j) σ
    else some σ
  guard ((σ.setOf j).attPred ≠ none)
  some (σ, j)

def atSync (σ : State) (f : SframeData) : Option (State × SframeData) := do
  let (sp, fsp) ← Structured.ds.atSync σ.mSp f.sp
  let σ := { σ with mSp := sp }
  guard (f.forkStack.length ≠ 0)
  let (σ, j) ← performJoin σ f
  some (σ.setCurrent j fsp.sbag, { f with sp := fsp, forkStack := [] })

/-! ## Continuations -/

/-- `at_spawn_continuation(f, p)`: `f` is the helper; the new `p`. -/
def atSpawnContinuation (σ : State) (f p : SframeData) : Option (State × SframeData) := do
  guard (f.forkStack.length = 1)
  guard (f.futureFork = none)
  let fndata ← f.forkStack.head?
  let fork ← fndata.fork
  guard (fndata.lfc ≠ none ∧ fndata.rfc = none)
  let (sp, psp) ← Structured.ds.atSpawnContinuation σ.mSp f.sp p.sp
  let σ := { σ with mSp := sp }
  let ljp := σ.tCurrent
  let (σ, rfc) := σ.newNode 0
  let σ := σ.setCurrent rfc psp.sbag
  guard (σ.find rfc = rfc)
  let attPred := (σ.setOf fork).attPred
  let σ := σ.modify rfc fun n => { n with attPred := attPred }
  let fndata := { fndata with ljp := some ljp, rfc := some rfc }
  some (σ, { p with sp := psp, forkStack := fndata :: p.forkStack })

/-- `at_future_continuation(f, p)`. -/
def atFutureContinuation (σ : State) (f p : SframeData) : Option State := do
  let fork ← f.futureFork
  let (σ, id) := σ.addNode
  let (σ, w) := σ.newNode id
  guard (σ.find w = w)
  let σ := σ.setSelf w
  let σ ← σ.addEdge (σ.setOf fork).id id
  some (σ.setCurrent w p.sp.sbag)

/-- `at_future_finish(f, p, fut)`: the new `p` and `fut`. -/
def atFutureFinish (σ : State) (f p : SframeData) (_ : SfutData) :
    Option (State × SframeData × SfutData) := do
  let put := σ.tCurrent
  let sbag ← f.sp.sbag
  let σ := { σ with mSp := σ.mSp.setKind sbag .P }
  let σ ← attachify σ σ.tCurrent
  let σ ← atFutureContinuation σ f p
  some (σ, p, ⟨some put⟩)

/-! ## Queries -/

/-- The set that answers for `x`: its own when attached, else the one behind it. -/
def answering (σ : State) (x : Nat) : Option Nat :=
  if σ.attached x then some (σ.find x) else (σ.setOf x).attSucc

def precedesNow (σ : State) (lastAccess : Nat) : Option (State × Bool) := do
  let sbag ← (σ.node lastAccess).sbag
  let (sp, sAnswer) ← Structured.ds.precedesNow σ.mSp ⟨none, none⟩ sbag
  let σ := { σ with mSp := sp }
  if sAnswer then some (σ, true)
  else
    match answering σ lastAccess, answering σ σ.tCurrent with
    | some su, some sv => do
        let answer ← σ.mR.precedes (σ.node su).id (σ.node sv).id
        some (σ, answer)
    | _, _ => some (σ, false)

/-- The reachability structure of `NONBLOCKING_FUTURES`. -/
def ds : ReachDs State SframeData SfutData Nat where
  newFrame := ⟨Structured.ds.newFrame, none, []⟩
  newFut := ⟨none⟩
  init := init
  active σ _ := some σ.tCurrent
  beginStrand := beginStrand
  atSpawn := atSpawn
  atSpawnContinuation := atSpawnContinuation
  atSync := atSync
  atFutureCreate := atFutureCreate
  atFutureFinish := atFutureFinish
  atFutureGet := atFutureGet
  precedesNow σ _ u := precedesNow σ u

end FOrder.Futurerd.Nonblock
