import FOrder.Rdtool.PrecedesSound
import FOrder.Shadow.Instrument

/-!
# `Rdtool.Detector` — F-Order's race detector

`tsan.cpp` on one worker: the callbacks of the runtime drive the tool, the instrumented accesses go to the access
history, and its checks ask `Precedes`. A `Current` object is known by its place in `currents`.

`clear_shadow_memory` returns at once, so nothing is ever forgotten: `malloc` does nothing here, and the water marks of
the stack, which `__tsan_func_exit` and the leave callbacks keep, are read by nobody. What a function exit does do is to
switch checking on. The code counts in an `int` how often checking is switched off; `Detector.checkingDisabled` has no
bound, and the `om_assert`s on its sign are compiled out unless `TOOL_DEBUG` is set.

`Watch` puts the program next to the detector and keeps what the code forgets: the strand of each `Current` object, the
calls of `check_access`, and the grains reported.
-/

namespace FOrder.Rdtool

open Serial (Event Strand)

abbrev CurrentPtr := Nat

/-- An event with all its callbacks, an instrumented access, `__tsan_func_exit`, and the switches that user code has:
    `__om_enable_checking`, `__om_disable_checking` and `__om_disable_instrumentation`. -/
inductive Callback where
  | event (e : Event)
  | access (a : Access Unit)
  | funcExit
  | enableChecking
  | disableChecking
  | disableInstrumentation
  deriving DecidableEq

def Callback.toEvent : Callback → Option Event
  | .event e => some e
  | _ => none

/-- The tool, the access history and the flags of `tsan.cpp`. -/
structure Detector where
  tool : Tool
  currents : List Current
  shadowMem : ShadowMem (AccessList CurrentPtr)
  instrumentation : Bool
  checkingDisabled : Int

namespace Detector

/-- After `cilk_enter_end` of the first frame. -/
def init : Detector := ⟨.init, [Tool.init.current], .empty, true, 0⟩

variable (d : Detector)

/-- `current` -/
def current : CurrentPtr := d.currents.length - 1

def shouldCheck : Bool := d.instrumentation && d.checkingDisabled = 0

def english (p : CurrentPtr) : Option OmNode := d.currents[p]?.map Current.node

/-- `Precedes`. It is only asked when `current->list` is there. -/
def precedes (p q : CurrentPtr) : Bool :=
  match d.currents[p]?, d.currents[q]? with
  | some a, some b => (d.tool.precedes a b).getD false
  | _, _ => false

/-- The calls of `check_access` for an access; only `tsan16_access` looks at the flags. -/
def calls (a : Access Unit) : Option (List (Access CurrentPtr)) :=
  if a.memSize = 16 ∧ d.shouldCheck = false then some []
  else do
    let calls ← tsanEntry (⟨a.isRead, a.rip, a.addr, a.memSize, d.current⟩ : Access CurrentPtr)
    -- `if (current == NULL || current->list == NULL) return;`
    some (if d.tool.current.list < d.tool.lists.length then calls else [])

/-- One callback; the grains for which `report_race` is reached. -/
def step : Callback → Option (Detector × List Nat)
  | .event e => do
      let tool ← d.tool.step e
      -- each callback but `cilk_enter_begin` makes a new `Current`, and the last one calls `enable_checking`
      some ({ d with
        tool := tool
        currents := if e = .call then d.currents else d.currents ++ [tool.current]
        checkingDisabled := 0 }, [])
  | .access a => do
      let calls ← d.calls a
      let (mem, races) ← checkAll (checkAccess d.english d.precedes) calls d.shadowMem
      some ({ d with
        shadowMem := mem
        checkingDisabled := if calls.isEmpty then d.checkingDisabled else 0 }, races)
  | .funcExit => some ({ d with checkingDisabled := 0 }, [])
  | .enableChecking => some ({ d with checkingDisabled := d.checkingDisabled - 1 }, [])
  | .disableChecking => some ({ d with checkingDisabled := d.checkingDisabled + 1 }, [])
  | .disableInstrumentation => some ({ d with instrumentation := false }, [])

end Detector

/-- A program and its detector side by side: the strand of each `Current` object, the calls of `check_access` with the
    strand that made them, and the grains reported. -/
structure Watch where
  prog : Serial.State
  det : Detector
  owners : List Strand
  log : List (Strand × Access CurrentPtr)
  races : List Nat

namespace Watch

def init : Watch := ⟨Serial.init, .init, [0], [], []⟩

def step (w : Watch) (cb : Callback) : Option Watch :=
  match cb with
  | .event e => do
      let prog ← Serial.step rules w.prog e
      let (det, races) ← w.det.step (.event e)
      some { w with
        prog := prog
        det := det
        owners := if e = .call then w.owners else w.owners ++ [prog.cur]
        races := w.races ++ races }
  | .access a => do
      let calls ← w.det.calls a
      let (det, races) ← w.det.step (.access a)
      some { w with
        det := det
        log := w.log ++ calls.map fun c => (w.prog.cur, c)
        races := w.races ++ races }
  | _ => do
      let (det, _) ← w.det.step cb
      some { w with det := det }

def run (cbs : List Callback) : Option Watch := cbs.foldlM step init

theorem run_concat (cbs : List Callback) (cb : Callback) :
    run (cbs ++ [cb]) = (run cbs).bind fun w => w.step cb := by
  simp [run, List.foldlM_append]

/-- The program and the tool, with the strand and the `Current` of each moment. -/
def exec (w : Watch) : Exec := ⟨w.prog, w.det.tool, w.owners.zip w.det.currents⟩

end Watch

end FOrder.Rdtool
