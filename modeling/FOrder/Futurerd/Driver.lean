import FOrder.Serial.Facts

/-!
# `Futurerd.Driver` — the callbacks of the tool and its shadow stack

`driver.cpp` and `shadow_stack.hpp`: each callback updates the shadow stack and calls the reachability data
structure that was compiled in (`reach.hpp` chooses it, `ReachDs` is its interface). The events of a run are
the events of the serial machine; `none` is a failed assertion. The stack is a list with the head frame first.
-/

namespace FOrder.Futurerd

open Serial (Event FutId Strand)

/-- What `reach.hpp` asks of a reachability structure: `σ` is its state, `φ` the `sframe_data`, `ψ` the
    `sfut_data` and `τ` the `smem_data` pointer of a strand. Frames are passed and returned by value. -/
structure ReachDs (σ φ ψ τ : Type) where
  newFrame : φ
  newFut : ψ
  init : φ → Option (σ × φ)
  active : σ → φ → Option τ
  /-- `begin_strand(f, p)`: the new `f`. -/
  beginStrand : σ → φ → φ → Option (σ × φ)
  /-- `at_spawn(f, helper)`: the new `helper`. -/
  atSpawn : σ → φ → φ → Option (σ × φ)
  /-- `at_spawn_continuation(f, p)`: the new `p`. -/
  atSpawnContinuation : σ → φ → φ → Option (σ × φ)
  atSync : σ → φ → Option (σ × φ)
  atFutureCreate : σ → φ → Option (σ × φ)
  /-- `at_future_finish(f, p, fut)`: the new `p` and `fut`. -/
  atFutureFinish : σ → φ → φ → ψ → Option (σ × φ × ψ)
  atFutureGet : σ → φ → ψ → Option (σ × φ)
  precedesNow : σ → φ → τ → Option (σ × Bool)

/-- `shadow_frame`. -/
structure ShadowFrame (φ : Type) where
  synced : Bool
  data : φ
  deriving DecidableEq

/-- The static data of `race_detector` that the callbacks touch. -/
structure DriverState (σ φ ψ : Type) where
  reach : σ
  sstack : List (ShadowFrame φ)
  futs : List ψ

variable {σ φ ψ τ : Type}

namespace Driver

variable (ds : ReachDs σ φ ψ τ)

/-- `race_detector::race_detector`: one frame on the stack, initialised. -/
def init : Option (DriverState σ φ ψ) := do
  let (reach, f) ← ds.init ds.newFrame
  some ⟨reach, [⟨true, f⟩], []⟩

/-- One callback. -/
def step (d : DriverState σ φ ψ) (e : Event) : Option (DriverState σ φ ψ) :=
  match e, d.sstack with
  -- cilk_enter_begin; its pointer to the parent's frame dangles when the push moves the array of the stack, which a list
  -- does not show (`Detector.stepDriver` does)
  | .call, p :: rest => do
      let (reach, f) ← ds.beginStrand d.reach ds.newFrame p.data
      some { d with reach := reach, sstack := ⟨true, f⟩ :: p :: rest }
  -- cilk_leave_begin, of a spawning function
  | .ret, _ :: p :: rest => some { d with sstack := p :: rest }
  -- cilk_detach_begin; do_spawn marks the spawning frame and pushes the helper
  | .spawn, f :: rest => do
      let (reach, h) ← ds.atSpawn d.reach f.data ds.newFrame
      some { d with reach := reach, sstack := ⟨true, h⟩ :: { f with synced := false } :: rest }
  -- cilk_leave_begin, of a helper
  | .spawnRet, f :: p :: rest => do
      let (reach, p') ← ds.atSpawnContinuation d.reach f.data p.data
      some { d with reach := reach, sstack := { p with data := p' } :: rest }
  -- cilk_sync_end
  | .sync, f :: rest =>
      if f.synced then some d
      else do
        let (reach, f') ← ds.atSync d.reach f.data
        some { d with reach := reach, sstack := ⟨true, f'⟩ :: rest }
  -- cilk_future_create
  | .create, p :: rest => do
      let (reach, f) ← ds.atFutureCreate d.reach ds.newFrame
      some { reach := reach, sstack := ⟨true, f⟩ :: p :: rest, futs := d.futs ++ [ds.newFut] }
  -- cilk_future_finish_end
  | .finish fut, f :: p :: rest => do
      let old ← d.futs[fut]?
      let (reach, p', put) ← ds.atFutureFinish d.reach f.data p.data old
      some { reach := reach, sstack := { p with data := p' } :: rest, futs := d.futs.set fut put }
  -- cilk_future_get_end
  | .get fut, f :: rest => do
      let put ← d.futs[fut]?
      let (reach, f') ← ds.atFutureGet d.reach f.data put
      some { d with reach := reach, sstack := { f with data := f' } :: rest }
  | _, _ => none

/-- `g_reach.active(t_sstack.head())`: what an access stores for the strand that makes it. -/
def active (d : DriverState σ φ ψ) : Option τ :=
  match d.sstack with
  | f :: _ => ds.active d.reach f.data
  | [] => none

/-- `g_reach.precedes_now(t_sstack.head(), u)`. -/
def precedesNow (d : DriverState σ φ ψ) (u : τ) : Option (σ × Bool) :=
  match d.sstack with
  | f :: _ => ds.precedesNow d.reach f.data u
  | [] => none

end Driver

/-- A program and the tool side by side: `strands` holds, for each strand so far, what the accesses of that
    strand store. -/
structure Exec (σ φ ψ τ : Type) where
  prog : Serial.State
  tool : DriverState σ φ ψ
  strands : List τ

/-- What happens in a run: an event, or an access whose address an earlier strand has accessed. -/
inductive Action where
  | event (e : Event)
  | query (earlier : Strand)
  deriving DecidableEq

namespace Exec

variable (ds : ReachDs σ φ ψ τ) (rules : Serial.Rules)

def init : Option (Exec σ φ ψ τ) := do
  let tool ← Driver.init ds
  let u ← Driver.active ds tool
  some ⟨Serial.init, tool, [u]⟩

/-- One event, in both; a strand that starts is recorded. -/
def step (x : Exec σ φ ψ τ) (e : Event) : Option (Exec σ φ ψ τ) := do
  let prog ← Serial.step rules x.prog e
  let tool ← Driver.step ds x.tool e
  if x.prog.dag.length < prog.dag.length then
    let u ← Driver.active ds tool
    some ⟨prog, tool, x.strands ++ [u]⟩
  else some ⟨prog, tool, x.strands⟩

/-- Ask whether an earlier strand precedes the current one. -/
def query (x : Exec σ φ ψ τ) (earlier : Strand) : Option (Exec σ φ ψ τ × Bool) := do
  let u ← x.strands[earlier]?
  let (reach, answer) ← Driver.precedesNow ds x.tool u
  some ({ x with tool := { x.tool with reach := reach } }, answer)

def act (x : Exec σ φ ψ τ) (a : Action) : Option (Exec σ φ ψ τ) :=
  match a with
  | .event e => step ds rules x e
  | .query earlier => (query ds x earlier).map Prod.fst

def runFrom : Exec σ φ ψ τ → List Action → Option (Exec σ φ ψ τ)
  | x, [] => some x
  | x, a :: as => do
      let x' ← act ds rules x a
      runFrom x' as

/-- The tool on a whole run of a program. -/
def run (as : List Action) : Option (Exec σ φ ψ τ) := do
  let x ← init ds
  runFrom ds rules x as

variable {ds rules}

theorem runFrom_concat {x : Exec σ φ ψ τ} {as : List Action} {a : Action} :
    runFrom ds rules x (as ++ [a]) = (runFrom ds rules x as).bind fun y => act ds rules y a := by
  induction as generalizing x with
  | nil =>
      show (act ds rules x a).bind (fun y => some y) = act ds rules x a
      exact Option.bind_fun_some _
  | cons b as ih =>
      show (act ds rules x b).bind (fun y => runFrom ds rules y (as ++ [a])) = _
      simp only [ih]
      exact (Option.bind_assoc _ _ _).symm

theorem run_concat {as : List Action} {a : Action} :
    run ds rules (as ++ [a]) = (run ds rules as).bind fun y => act ds rules y a := by
  unfold run
  simp only [runFrom_concat]
  exact (Option.bind_assoc _ _ _).symm

end Exec

/-- The actions a program can take: its events fit its state, an access asks about an earlier strand. -/
inductive ProgRun (rules : Serial.Rules) : List Action → Serial.State → Prop where
  | nil : ProgRun rules [] Serial.init
  | event {as s s' e} (h : ProgRun rules as s) (hs : Serial.step rules s e = some s') :
      ProgRun rules (as ++ [.event e]) s'
  | query {as s x} (h : ProgRun rules as s) (hx : x < s.dag.length) :
      ProgRun rules (as ++ [.query x]) s

/-- The rules of the tool's programs. A spawn helper only calls the spawned function, so it neither spawns
    nor syncs; a create alone leaves its frame synced. -/
def rules : Serial.Rules where
  canSpawn kind := match kind with
    | .spawned _ => false
    | _ => true
  canCreate _ := true
  createUnsyncs := false

end FOrder.Futurerd
