import FOrder.Futurerd.Driver
import FOrder.Shadow.Clear
import FOrder.Shadow.Instrument
import FOrder.Shadow.RaceDetector

/-!
# `Futurerd.Detector` — the race detector with its access history

`driver.cpp` and `rd.cpp`: the callbacks of the runtime and of the instrumented code, with the counter that
switches the checks off, the stack that is cleared when a child returns, and a `check_access` that asks the
reachability structure. `report_race` returns at once, so its calls are the result.

The detector is over any reachability structure (`ReachDs`), as `rd.cpp` is: `Futurerd.Structured` and
`Futurerd.Nonblock` are the two it is built with. A check asks the structure while it walks over the grains, and a
question may shorten paths in it, so the state of the structure goes through the loops (`grainLoopM`).

`Watch` runs a program and its detector side by side. Its log has the calls of `check_access` and `clear`, each with
the strand that made it. Which calls these are is decided by the flags; `Futurerd.DetectorCallbacks` says it of the
callbacks themselves, so that a race is one of the program's accesses and not of what the detector took notice of.
-/

namespace FOrder.Futurerd

open Serial (Event FutId Strand)

/-- A call of `check_access` for strand `P`, or of `shadow_mem::clear`. -/
inductive Call (P : Type) where
  | check (a : Access P)
  | clear (start stop : Addr)
  deriving DecidableEq

/-- The function pointers of `cilk_tool` and the entry points of `tsan`, with what they read of their frames. -/
inductive Callback where
  | enterBegin
  | enterHelperBegin
  | enterEnd
  | detachBegin
  | detachEnd
  | futureCreate
  | futureGetBegin
  | futureGetEnd (fut : FutId)
  | futurePutBegin
  | futurePutEnd
  | futureFinishBegin
  | futureFinishEnd (fut : FutId)
  | futureHelperLeave (fut : FutId)
  | syncBegin
  | syncEnd
  /-- `isHelper`: `IS_HELPER(sf)` -/
  | leaveBegin (isHelper : Bool)
  | leaveEnd
  | enableChecking
  | disableChecking
  | disableShadowing
  | markStackAllocate (addr : Addr)
  /-- `__tsan_read1`, ..., `__tsan_write16` -/
  | access (a : Access Unit)
  | funcEntry (frame : Addr)
  | funcExit (frame caller : Addr)
  | forIterationEnd (frame caller : Addr)
  /-- `block` is what the C library returns. What the detector allocates for itself is not in the run: no one else
      accesses it. -/
  | malloc (block : Addr) (size : Nat)
  deriving DecidableEq

/-- What a callback tells the reachability structure. -/
def Callback.event : Callback → Option Event
  | .enterBegin => some .call
  | .detachBegin => some .spawn
  | .futureCreate => some .create
  | .futureGetEnd fut => some (.get fut)
  | .futureFinishEnd fut | .futureHelperLeave fut => some (.finish fut)
  | .syncEnd => some .sync
  | .leaveBegin isHelper => some (if isHelper then .spawnRet else .ret)
  | _ => none

/-- The static data of `race_detector` but for the reachability structure, the shadow stack and the shadow memory.
    `check_disabled` is an `int`; it counts callbacks that are open, far fewer than `2^31`. -/
structure Flags where
  checkDisabled : Int
  shadowEnabled : Bool
  stackLowWatermark : Addr
  clearStack : Bool
  deriving DecidableEq

namespace Flags

/-- After the constructor of `race_detector`. -/
def init : Flags := ⟨0, true, BitVec.allOnes 64, false⟩

variable (f : Flags)

def shouldCheck : Bool := f.checkDisabled = 0 && f.shadowEnabled

def enable : Flags := { f with checkDisabled := f.checkDisabled - 1 }

def disable : Flags := { f with checkDisabled := f.checkDisabled + 1 }

/-- `if (t_stack_low_watermark > res) t_stack_low_watermark = res`. -/
def lower (frame : Addr) : Flags :=
  if frame < f.stackLowWatermark then { f with stackLowWatermark := frame } else f

/-- What a callback does to the flags, and the calls it makes. -/
def step : Callback → Option (Flags × List (Call Unit))
  | .enterBegin | .enterHelperBegin | .detachBegin | .futureGetBegin | .futurePutBegin | .futureFinishBegin
  | .syncBegin | .disableChecking => some (f.disable, [])
  | .enterEnd | .detachEnd | .futureGetEnd _ | .futurePutEnd | .syncEnd | .leaveEnd | .enableChecking =>
      some (f.enable, [])
  | .futureCreate => some (f, [])
  -- `continuation()`
  | .futureFinishEnd _ => some ({ f with clearStack := true }.enable, [])
  | .futureHelperLeave _ => some ({ f with clearStack := true }, [])
  | .leaveBegin isHelper => some ({ f with clearStack := f.clearStack || isHelper }.disable, [])
  | .disableShadowing => some ({ f with shadowEnabled := false }, [])
  | .markStackAllocate addr => some ({ f with stackLowWatermark := addr }, [])
  | .access a => do
      let calls ← Rdtool.tsanEntry a
      some (f, if f.shouldCheck then calls.map .check else [])
  | .funcEntry frame => some (f.lower frame, [])
  | .funcExit frame caller =>
      let f := f.lower frame
      if f.shadowEnabled && f.clearStack then
        if f.stackLowWatermark ≠ BitVec.allOnes 64 ∧ f.stackLowWatermark ≤ caller then
          some ({ f with stackLowWatermark := caller, clearStack := false }, [.clear f.stackLowWatermark caller])
        else none
      else some (f, [])
  | .forIterationEnd frame caller =>
      if frame ≠ 0 ∧ frame ≠ BitVec.allOnes 64 ∧ caller ≠ 0 ∧ frame ≤ caller then
        some (f.disable, [.clear frame caller])
      else none
  | .malloc block size =>
      let newSize := ShadowMem.alignByNextMaxGrainSize (BitVec.ofNat 64 size)
      some (f, if f.shouldCheck then [.clear block (block + newSize)] else [])

end Flags

/-! ## Checks that ask -/

/-- A loop over grains whose body may fail. -/
def grainLoopM {S Q : Type} (body : Nat → S → Option (S × List Q)) : Nat → Nat → S → Option (S × List Q)
  | _, 0, s => some (s, [])
  | i, n + 1, s => do
      let (s₁, r₁) ← body i s
      let (s₂, r₂) ← grainLoopM body (i + 1) n s₁
      some (s₂, r₁ ++ r₂)

section Asking

variable {S τ : Type} (ask : S → τ → Option (S × Bool)) (key addr rip : Addr) (current : τ)

/-- `if (last && !g_reach.precedes_now(t_sstack.head(), last->rd)) report_race(..)`. -/
def askLast (raceType : RaceType) (i : Nat) (last : Option (MemAccess τ)) (s : S) : Option (S × List RaceReport) :=
  match last with
  | none => some (s, [])
  | some m => do
      let (s, answer) ← ask s m.rd
      some (s, if answer then [] else [⟨grainOf key i, addr, m.rip, rip, raceType⟩])

/-- The loops of `handle_read`. -/
def askWriter (i : Nat) (t : S × AccessList τ) : Option ((S × AccessList τ) × List RaceReport) := do
  let (s, races) ← askLast ask key addr rip .WR i (t.2.writers i) t.1
  some ((s, t.2), races)

def putReader (i : Nat) (t : S × AccessList τ) : Option ((S × AccessList τ) × List RaceReport) :=
  some ((t.1, t.2.setReader i (some ⟨current, rip⟩)), [])

/-- The loops of `handle_write`. -/
def replaceWriter (i : Nat) (t : S × AccessList τ) : Option ((S × AccessList τ) × List RaceReport) := do
  let (s, races) ← askLast ask key addr rip .WW i (t.2.writers i) t.1
  some ((s, t.2.setWriter i (some ⟨current, rip⟩)), races)

def askReader (i : Nat) (t : S × AccessList τ) : Option ((S × AccessList τ) × List RaceReport) := do
  let (s, races) ← askLast ask key addr rip .RW i (t.2.readers i) t.1
  some ((s, t.2), races)

/-- `handle_read` and `handle_write`: two loops each. -/
def handleAsking (isRead : Bool) (memSize : Nat) (t : S × AccessList τ) :
    Option ((S × AccessList τ) × List RaceReport) :=
  let start := addrToMemIndex addr
  let grains := sizeToNumGrains memSize
  if start < numSlots ∧ start + grains ≤ numSlots then
    if isRead then do
      let (t, r₁) ← grainLoopM (askWriter ask key addr rip) start grains t
      let (t, r₂) ← grainLoopM (putReader rip current) start grains t
      some (t, r₁ ++ r₂)
    else do
      let (t, r₁) ← grainLoopM (replaceWriter ask key addr rip current) start grains t
      let (t, r₂) ← grainLoopM (askReader ask key addr rip) start grains t
      some (t, r₁ ++ r₂)
  else none

end Asking

/-- `race_detector::check_access`, with what `precedes_now` does. -/
def checkAsking {S τ : Type} (ask : S → τ → Option (S × Bool)) (s : S) (mem : ShadowMem (AccessList τ))
    (a : Access τ) : Option ((S × ShadowMem (AccessList τ)) × List RaceReport) :=
  let key := addrToKey a.addr
  match mem.find key with
  | none => do
      let slot ← memAccessListNew a.addr a.isRead a.current a.rip a.memSize
      some ((s, mem.store key (some slot)), [])
  | some slot => do
      let ((s, slot), races) ← handleAsking ask key a.addr a.rip a.current a.isRead a.memSize (s, slot)
      some ((s, mem.store key (some slot)), races)

/-! ## The detector -/

/-- The capacity of a new `stack`. -/
def defaultCapacity : Nat := 128

/-- `m_cap` after an event that takes the stack from `size` frames to `size'`: `push` doubles a full array, `pop` halves
    one of which less than half is used. The old array is freed. -/
def capAfter (cap size size' : Nat) : Nat :=
  if size < size' then if size = cap then cap * 2 else cap
  else if size' < size then if defaultCapacity < cap ∧ size' - 1 < cap / 2 then cap / 2 else cap
  else cap

/-- The static data of `race_detector`; `cap` is the capacity of `t_sstack`. -/
structure Detector (σ φ ψ τ : Type) where
  driver : DriverState σ φ ψ
  cap : Nat
  smem : ShadowMem (AccessList τ)
  flags : Flags

variable {σ φ ψ τ : Type}

/-- The access of a strand. -/
def Access.by {P : Type} (a : Access Unit) (p : P) : Access P := ⟨a.isRead, a.rip, a.addr, a.memSize, p⟩

namespace Detector

variable (ds : ReachDs σ φ ψ τ)

def init : Option (Detector σ φ ψ τ) := do
  let driver ← Driver.init ds
  some ⟨driver, defaultCapacity, .empty, .init⟩

/-- `precedes_now`, with the shadow stack. -/
def ask (driver : DriverState σ φ ψ) (u : τ) : Option (DriverState σ φ ψ × Bool) := do
  let (reach, answer) ← Driver.precedesNow ds driver u
  some ({ driver with reach := reach }, answer)

/-- The rounds `clear` can need: one for each grain, and the last test. -/
def clearFuel (start stop : Addr) : Nat := (stop - start).toNat / grainSize + 1

/-- One call. -/
def perform (d : Detector σ φ ψ τ) : Call Unit → Option (Detector σ φ ψ τ × List RaceReport)
  | .check a => do
      let current ← Driver.active ds d.driver
      let ((driver, smem), races) ← checkAsking (ask ds) d.driver d.smem (Access.by a current)
      some ({ d with driver := driver, smem := smem }, races)
  | .clear start stop => do
      let smem ← d.smem.clear (clearFuel start stop) start stop
      some ({ d with smem := smem }, [])

def performAll (d : Detector σ φ ψ τ) : List (Call Unit) → Option (Detector σ φ ψ τ × List RaceReport)
  | [] => some (d, [])
  | c :: cs => do
      let (d, r₁) ← perform ds d c
      let (d, r₂) ← performAll d cs
      some (d, r₁ ++ r₂)

/-- The shadow stack and the reachability structure at an event. -/
def stepDriver (d : Detector σ φ ψ τ) (e : Event) : Option (Detector σ φ ψ τ) :=
  -- `cilk_enter_begin` keeps a pointer to the frame of the parent over its push, which frees the array when it is full
  if e = .call ∧ d.driver.sstack.length = d.cap then none
  else do
    let driver ← Driver.step ds d.driver e
    some { d with driver := driver, cap := capAfter d.cap d.driver.sstack.length driver.sstack.length }

/-- One callback; the races it reports. -/
def step (d : Detector σ φ ψ τ) (cb : Callback) : Option (Detector σ φ ψ τ × List RaceReport) := do
  let d ← match cb.event with
    | some e => stepDriver ds d e
    | none => some d
  let (flags, calls) ← d.flags.step cb
  performAll ds { d with flags := flags } calls

end Detector

/-- A program and its detector side by side: the calls so far, each with the strand that made it, and the races
    reported. -/
structure Watch (σ φ ψ τ : Type) where
  prog : Serial.State
  det : Detector σ φ ψ τ
  strands : List τ
  log : List (Call Strand)
  races : List RaceReport

def Call.by (s : Strand) : Call Unit → Call Strand
  | .check a => .check (Access.by a s)
  | .clear start stop => .clear start stop

namespace Watch

variable (ds : ReachDs σ φ ψ τ) (rules : Serial.Rules)

def init : Option (Watch σ φ ψ τ) := do
  let det ← Detector.init ds
  let u ← Driver.active ds det.driver
  some ⟨Serial.init, det, [u], [], []⟩

/-- What the program, and what the reachability structure knows of it. -/
def exec (w : Watch σ φ ψ τ) : Exec σ φ ψ τ := ⟨w.prog, w.det.driver, w.strands⟩

/-- One callback. -/
def step (w : Watch σ φ ψ τ) (cb : Callback) : Option (Watch σ φ ψ τ) := do
  let (_, calls) ← w.det.flags.step cb
  let (det, races) ← Detector.step ds w.det cb
  let prog ← match cb.event with
    | some e => Serial.step rules w.prog e
    | none => some w.prog
  let strands ←
    if w.prog.dag.length < prog.dag.length then (Driver.active ds det.driver).map fun u => w.strands ++ [u]
    else some w.strands
  some ⟨prog, det, strands, w.log ++ calls.map (Call.by prog.cur), w.races ++ races⟩

def run (cbs : List Callback) : Option (Watch σ φ ψ τ) := do
  let w ← init ds
  cbs.foldlM (step ds rules) w

theorem run_concat (cbs : List Callback) (cb : Callback) :
    run ds rules (cbs ++ [cb]) = (run ds rules cbs).bind fun w => step ds rules w cb := by
  unfold run
  cases init ds with
  | none => rfl
  | some w => simp [List.foldlM_append]

end Watch

end FOrder.Futurerd
