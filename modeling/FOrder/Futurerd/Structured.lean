import FOrder.Futurerd.Driver
import FOrder.Futurerd.SpBag

/-!
# `Futurerd.Structured` — MultiBags for structured futures

`reach_structured.cpp`, function by function. The global state is the bags; a frame holds pointers to its S
and its P bag, a future to the bag of its last strand. Dereferencing a null pointer is `none`, like a failed
assertion.
-/

namespace FOrder.Futurerd.Structured

/-- `structured::sframe_data`. -/
structure SframeData where
  sbag : Option Nat
  pbag : Option Nat
  deriving DecidableEq

/-- `structured::sfut_data`. -/
structure SfutData where
  putStrand : Option Nat
  deriving DecidableEq

def createStrand (m : Bags) : Bags × SframeData :=
  let (m, b) := m.new .S
  (m, ⟨some b, none⟩)

def beginStrand (p : SframeData) : SframeData := ⟨p.sbag, none⟩

def atFutureGet (m : Bags) (f : SframeData) (fut : SfutData) : Option Bags := do
  let put ← fut.putStrand
  let sbag ← f.sbag
  m.merge sbag put

def atSync (m : Bags) (f : SframeData) : Option (Bags × SframeData) :=
  match f.pbag with
  | none => some (m, f)
  | some pbag => do
      let sbag ← f.sbag
      let m ← m.merge sbag pbag
      let (m, root) ← m.find sbag
      some (m.setKind root .S, { f with pbag := none })

/-- `f` is the spawned frame, `p` its parent; the new `p`. -/
def continuation (m : Bags) (f p : SframeData) : Option (Bags × SframeData) := do
  let sbag ← f.sbag
  match p.pbag with
  | none =>
      let (m, root) ← m.find sbag
      some (m.setKind root .P, { p with pbag := some sbag })
  | some pbag =>
      let m ← m.merge pbag sbag
      let (m, root) ← m.find pbag
      some (m.setKind root .P, p)

def atFutureFinish (m : Bags) (f : SframeData) : Option (Bags × SfutData) := do
  let sbag ← f.sbag
  let (m, root) ← m.find sbag
  some (m.setKind root .P, ⟨some sbag⟩)

/-- The reachability structure of `STRUCTURED_FUTURES`. -/
def ds : ReachDs Bags SframeData SfutData Nat where
  newFrame := ⟨none, none⟩
  newFut := ⟨none⟩
  init _ := some (createStrand .empty)
  active _ f := f.sbag
  beginStrand m _ p := some (m, beginStrand p)
  atSpawn m _ _ := some (createStrand m)
  atSpawnContinuation m f p := continuation m f p
  atSync := atSync
  atFutureCreate m _ := some (createStrand m)
  atFutureFinish m f p _ := do
    let (m, put) ← atFutureFinish m f
    some (m, p, put)
  atFutureGet m f fut := do
    let m ← atFutureGet m f fut
    some (m, f)
  precedesNow m _ u := m.precedesNow u

end FOrder.Futurerd.Structured
