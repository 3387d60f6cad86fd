import FOrder.Futurerd.NonblockSync
import FOrder.Futurerd.StructuredExact

/-!
# `Futurerd.NonblockRuns` — MultiBags+ on every run of a program

The tool beside the program: the fork stacks of the frames hold their finished children, the segments of the nodes
are the ones the stack of the program says, and the bags are those of MultiBags without its gets. Every callback
then returns, so no assertion ever fails.

`Inv` is the invariant over whole runs. Its parts are:

- `Structured.Known` for the bags: MultiBags+ keeps the bags of MultiBags, and what they say of the series-parallel
  part has been proved there; `Bagged` is the projection of the state to its bags;
- `NodesOk` and `Live`, with the items that the stack of the program has (`items`);
- `FrameMatch` for each frame: its future, and its fork stack;
- `Busy`: a frame with a pending sync has a finished child, so that the assertion of `at_sync` on the fork stack
  holds;
- the finished futures: the last strand of each is attached.

`inv_step` has one lemma for each event (`step_spawn`, …), and every one of them follows the same plan: the call on
the bags returns by `Bagged`, the event returns by its `_spec`, and `Inv.start` puts the new state together. What an
event does to the sets is recorded in `Acts`, with the program's frames beside it, for the modules that follow.
-/

namespace FOrder.Futurerd.Nonblock

open Serial (Event FutId Strand Step Loc Ok StackOk isSp)

/-! ## The stack

What the sets of `nonblock` are is said by a list of items, one for each fork on the way down (`items`). It is read
off the frames of the program alone: the finished children of a frame, then what separates its segment from the one
below. The tool's own record of the same thing is its fork stacks, and `FrameMatch` compares them frame by frame.

`Busy` is there for one assertion. `at_sync` is called for a block that has forked, and asserts that the fork stack is
not empty; a child that is still running is on the fork stack of its helper, so between two events a frame that is not
synced has a finished child or the frame above it is one. -/

/-- The finished children of a frame, as its fork stack has them. -/
def forksOf (f : Serial.Frame) : List (Nat × Nat) := f.children.map fun c => (c.fork, c.last)

/-- What separates the segment of a frame from the one it was forked in. -/
def kindItems : Serial.Kind → List Item
  | .function => []
  | .spawned fork => [.child fork]
  | .future _ fork => [.future fork]

/-- The items of a stack; its segments are those of its tasks. -/
def items : List Serial.Frame → List Item
  | [] => []
  | f :: rest => (forksOf f).map joinItem ++ (kindItems f.kind ++ items rest)

/-- A helper's own entry: the child is not back yet. -/
def helperEntry : Serial.Kind → List ForkNodeData
  | .spawned fork => [⟨some fork, some (fork + 1), none, none⟩]
  | _ => []

/-- The fork of the future that the frame runs. -/
def futureForkOf : Serial.Kind → Option Nat
  | .future _ fork => some fork
  | _ => none

/-- A frame of the tool, beside the frame of the program. -/
structure FrameMatch (f : Serial.Frame) (g : ShadowFrame SframeData) : Prop where
  futureFork : g.data.futureFork = futureForkOf f.kind
  forkStack : g.data.forkStack = (forksOf f).map entry ++ helperEntry f.kind

def isSpawned : Serial.Kind → Bool
  | .spawned _ => true
  | _ => false

/-- A frame that is not synced has finished children, or the frame above it is its child. -/
def Busy : Bool → List Serial.Frame → Prop
  | _, [] => True
  | child, f :: rest => (f.unsynced = true → f.children ≠ [] ∨ child = true) ∧ Busy (isSpawned f.kind) rest

/-- Frames that sync have children. By cases on the event: a spawn makes the frame unsynced and has a child running,
    which is among the finished ones when it returns; a create does not make it unsynced here. -/
theorem busy_step {s s' : Serial.State} {e : Event} (hb : Busy false s.frames) (h : Step rules s e s') :
    Busy false s'.frames := by
  cases h with
  | call hf =>
      rw [hf] at hb
      exact ⟨(fun h => by cases h), hb⟩
  | ret hf hk _ =>
      rw [hf] at hb
      have hrest := hb.2
      rw [hk] at hrest
      exact hrest
  | spawn hf _ =>
      rw [hf] at hb
      exact ⟨(fun h => by cases h), ⟨fun _ => Or.inr rfl, hb.2⟩⟩
  | spawnRet hf hk _ =>
      rw [hf] at hb
      exact ⟨fun _ => Or.inl (by simp), hb.2.2⟩
  | sync hf _ _ =>
      rw [hf] at hb
      exact ⟨(fun h => by cases h), hb.2⟩
  | synced => exact hb
  | create hf _ =>
      rw [hf] at hb
      refine ⟨(fun h => by cases h), ⟨fun hu => ?_, hb.2⟩⟩
      rcases hb.1 (by simpa [rules] using hu) with hc | hc
      · exact Or.inl hc
      · cases hc
  | finish hf hk _ =>
      rw [hf] at hb
      have hrest := hb.2
      rw [hk] at hrest
      exact hrest
  | get _ => exact hb

/-! ## The bags

`m_sp` is a copy of MultiBags that never hears of a get. `Bagged` is this copy, with its part of each frame, as a tool
of its own on the same program; a callback of `nonblock` makes at most one call on it, and the lemmas of this section
say which one. So all that has been proved of MultiBags is used here, and nothing about bags is proved again.

`Inv` puts the two halves together. -/

/-- The part of a frame that belongs to the bags. -/
def spFrame (g : ShadowFrame SframeData) : ShadowFrame Structured.SframeData := ⟨g.synced, g.data.sp⟩

/-- The state of `m_sp` and its part of the frames, as a tool of its own. -/
structure Bagged (d : DriverState State SframeData SfutData)
    (b : DriverState Bags Structured.SframeData Structured.SfutData) : Prop where
  reach : b.reach = d.reach.mSp
  sstack : b.sstack = d.sstack.map spFrame
  futs : b.futs.length = d.futs.length

/-- The tool beside the program; `b` has the bags. -/
structure Inv (x : Exec State SframeData SfutData Nat)
    (b : DriverState Bags Structured.SframeData Structured.SfutData) (h : Owner) (locs : List Loc)
    (sbags : List Nat) : Prop where
  known : Structured.Known isSp x.prog [] b h locs sbags
  bagged : Bagged x.tool b
  sbag : ∀ (i u : Nat), sbags[i]? = some u → (x.tool.reach.node i).sbag = some u
  nodes : NodesOk x.tool.reach
  length : x.tool.reach.nodes.length = x.prog.dag.length
  tCurrent : x.tool.reach.tCurrent = x.prog.cur
  cur : x.prog.cur + 1 = x.prog.dag.length
  strands : x.strands = List.range x.prog.dag.length
  frames : List.Forall₂ FrameMatch x.prog.frames x.tool.sstack
  busy : Busy false x.prog.frames
  live : Live x.tool.reach (items x.prog.frames) x.tool.reach.tCurrent
  futs_length : x.tool.futs.length = x.prog.futures.length
  futs : ∀ (fut : FutId) (fin : Serial.Finished), x.prog.futures[fut]? = some (some fin) →
    x.tool.futs[fut]? = some ⟨some fin.last⟩ ∧ x.tool.reach.attached fin.last = true

section Bagged

variable {d : DriverState State SframeData SfutData}
  {b b' : DriverState Bags Structured.SframeData Structured.SfutData}

/-- The top frame of the bags. -/
theorem Bagged.cons (hb : Bagged d b) {g : ShadowFrame SframeData} {rest : List (ShadowFrame SframeData)}
    (hd : d.sstack = g :: rest) : b.sstack = spFrame g :: rest.map spFrame := by
  rw [hb.sstack, hd]
  rfl

/-- `m_sp.at_spawn`. -/
theorem Bagged.spawn (hb : Bagged d b) {g : ShadowFrame SframeData} {rest : List (ShadowFrame SframeData)}
    (hd : d.sstack = g :: rest) (hstep : Driver.step Structured.ds b .spawn = some b') :
    ∃ sp hsp, Structured.ds.atSpawn d.reach.mSp g.data.sp Structured.ds.newFrame = some (sp, hsp) ∧
      b' = ⟨sp, ⟨true, hsp⟩ :: ⟨false, g.data.sp⟩ :: rest.map spFrame, b.futs⟩ := by
  simp only [Driver.step, hb.cons hd, hb.reach] at hstep
  obtain ⟨⟨sp, hsp⟩, hcall, hres⟩ := Option.bind_eq_some_iff.mp hstep
  exact ⟨sp, hsp, hcall, (Option.some.inj hres).symm⟩

/-- `m_sp.begin_strand`. -/
theorem Bagged.call (hb : Bagged d b) {g : ShadowFrame SframeData} {rest : List (ShadowFrame SframeData)}
    (hd : d.sstack = g :: rest) (hstep : Driver.step Structured.ds b .call = some b') :
    ∃ sp fsp, Structured.ds.beginStrand d.reach.mSp Structured.ds.newFrame g.data.sp = some (sp, fsp) ∧
      b' = ⟨sp, ⟨true, fsp⟩ :: spFrame g :: rest.map spFrame, b.futs⟩ := by
  simp only [Driver.step, hb.cons hd, hb.reach] at hstep
  obtain ⟨⟨sp, fsp⟩, hcall, hres⟩ := Option.bind_eq_some_iff.mp hstep
  exact ⟨sp, fsp, hcall, (Option.some.inj hres).symm⟩

/-- `m_sp.at_future_create`. -/
theorem Bagged.create (hb : Bagged d b) {g : ShadowFrame SframeData} {rest : List (ShadowFrame SframeData)}
    (hd : d.sstack = g :: rest) (hstep : Driver.step Structured.ds b .create = some b') :
    ∃ sp fsp, Structured.ds.atFutureCreate d.reach.mSp Structured.ds.newFrame = some (sp, fsp) ∧
      b' = ⟨sp, ⟨true, fsp⟩ :: spFrame g :: rest.map spFrame, b.futs ++ [⟨none⟩]⟩ := by
  simp only [Driver.step, hb.cons hd, hb.reach] at hstep
  obtain ⟨⟨sp, fsp⟩, hcall, hres⟩ := Option.bind_eq_some_iff.mp hstep
  exact ⟨sp, fsp, hcall, (Option.some.inj hres).symm⟩

/-- `m_sp.at_spawn_continuation`. -/
theorem Bagged.spawnRet (hb : Bagged d b) {g p : ShadowFrame SframeData}
    {rest : List (ShadowFrame SframeData)} (hd : d.sstack = g :: p :: rest)
    (hstep : Driver.step Structured.ds b .spawnRet = some b') :
    ∃ sp psp, Structured.ds.atSpawnContinuation d.reach.mSp g.data.sp p.data.sp = some (sp, psp) ∧
      b' = ⟨sp, ⟨p.synced, psp⟩ :: rest.map spFrame, b.futs⟩ := by
  simp only [Driver.step, hb.cons hd, List.map_cons, hb.reach] at hstep
  obtain ⟨⟨sp, psp⟩, hcall, hres⟩ := Option.bind_eq_some_iff.mp hstep
  exact ⟨sp, psp, hcall, (Option.some.inj hres).symm⟩

/-- `m_sp.at_sync`. -/
theorem Bagged.sync (hb : Bagged d b) {g : ShadowFrame SframeData} {rest : List (ShadowFrame SframeData)}
    (hd : d.sstack = g :: rest) (hsync : g.synced = false)
    (hstep : Driver.step Structured.ds b .sync = some b') :
    ∃ sp fsp, Structured.ds.atSync d.reach.mSp g.data.sp = some (sp, fsp) ∧
      b' = ⟨sp, ⟨true, fsp⟩ :: rest.map spFrame, b.futs⟩ := by
  simp only [Driver.step, hb.cons hd, hb.reach, spFrame, hsync, Bool.false_eq_true, if_false] at hstep
  obtain ⟨⟨sp, fsp⟩, hcall, hres⟩ := Option.bind_eq_some_iff.mp hstep
  exact ⟨sp, fsp, hcall, (Option.some.inj hres).symm⟩

/-- A finish is `set_kind` on the bag itself, where MultiBags asks for the root first. The bag of a frame that is
    running is its own root, so both do the same. -/
theorem Bagged.finish (hb : Bagged d b) {g p : ShadowFrame SframeData} {rest : List (ShadowFrame SframeData)}
    (hd : d.sstack = g :: p :: rest) {fut : FutId} {bag : Nat} (hbag : g.data.sp.sbag = some bag)
    (hwf : d.reach.mSp.WF) (hroot : d.reach.mSp.rep bag = bag)
    (hstep : Driver.step Structured.ds b (.finish fut) = some b') :
    fut < b.futs.length ∧ b' = ⟨d.reach.mSp.setKind bag .P, spFrame p :: rest.map spFrame,
      b.futs.set fut ⟨some bag⟩⟩ := by
  have hfind : d.reach.mSp.find bag = some (d.reach.mSp, bag) := by
    have hself : UF.parentOf d.reach.mSp.parent bag = bag := by
      have h := hwf.forest.parentOf_rep bag
      rw [show UF.rep d.reach.mSp.parent bag = bag from hroot] at h
      exact h
    simp [Bags.find, UF.find, UF.findAux, hself]
  simp only [Driver.step, hb.cons hd, List.map_cons, hb.reach, Structured.ds, Structured.atFutureFinish, spFrame,
    hbag, Option.bind_eq_bind, Option.bind_some, hfind] at hstep
  obtain ⟨old, hold, hres⟩ := Option.bind_eq_some_iff.mp hstep
  exact ⟨(List.getElem?_eq_some_iff.mp hold).1, (Option.some.inj hres).symm⟩

end Bagged

/-! ## The start of a strand

Most callbacks start a strand. They all end alike: the strand has a new node, which becomes the running one and
remembers the bag of the frame. `Inv.start` is this part for all of them; what an event has to say is which items it
leaves, which frames, and which futures are finished. -/

/-- **A callback that starts a strand**: what is left to say of the invariant is what it says of the event. -/
theorem Inv.start {x : Exec State SframeData SfutData Nat}
    {b b' : DriverState Bags Structured.SframeData Structured.SfutData} {h h' : Owner} {locs locs' : List Loc}
    {sbags sbags' : List Nat} (hx : Inv x b h locs sbags) {e : Event} {s' : Serial.State}
    {d' : DriverState State SframeData SfutData} {sp : Bags} {bag : Option Nat} {ops : List General.Op}
    (hs : Serial.step rules x.prog e = some s') (hdag : s'.dag.length = x.prog.dag.length + 1)
    (hcur : s'.cur = x.prog.dag.length) (hd : Driver.step ds x.tool e = some d')
    (hk : Structured.Known isSp s' [] b' h' locs' sbags')
    (hst : Structured.Stranded x.prog s' b' sbags sbags') (hbag : Bagged d' b')
    (hadv : Advanced x.tool.reach d'.reach sp bag ops) (hactive : Driver.active Structured.ds b' = bag)
    (hframes : List.Forall₂ FrameMatch s'.frames d'.sstack)
    (hlive : Live d'.reach (items s'.frames) x.tool.reach.nodes.length)
    (hlen : d'.futs.length = s'.futures.length)
    (hfuts : ∀ (fut : FutId) (fin : Serial.Finished), s'.futures[fut]? = some (some fin) →
      (x.prog.futures[fut]? = some (some fin) ∧ d'.futs[fut]? = x.tool.futs[fut]?) ∨
        (d'.futs[fut]? = some ⟨some fin.last⟩ ∧ fin.last = x.prog.cur ∧
          x.tool.reach.attached x.tool.reach.tCurrent = true)) :
    ∃ x', Exec.step ds rules x e = some x' ∧ x'.prog = s' ∧ x'.tool = d' ∧ Inv x' b' h' locs' sbags' := by
  have hlt : x.prog.dag.length < s'.dag.length := by
    rw [hdag]
    exact Nat.lt_succ_self _
  obtain ⟨u, hu, rfl⟩ : ∃ u, Driver.active Structured.ds b' = some u ∧ sbags' = sbags ++ [u] := by
    unfold Structured.Stranded at hst
    rw [if_pos hlt] at hst
    exact hst
  have hsb : sbags.length = x.prog.dag.length := by
    rw [hx.known.strands.length, hx.known.bagsOk.length]
  -- the frame of the new strand is there
  have hact : Driver.active ds d' = some x.prog.dag.length := by
    have hne : d'.sstack ≠ [] := by
      intro hnil
      rw [hnil] at hframes
      exact hk.stack.nonempty (List.forall₂_nil_right_iff.mp hframes)
    obtain ⟨g, rest, hg⟩ := List.exists_cons_of_ne_nil hne
    simp only [Driver.active, hg]
    show some d'.reach.tCurrent = _
    rw [hadv.tCurrent, hx.length]
  refine ⟨⟨s', d', x.strands ++ [x.prog.dag.length]⟩, ?_, rfl, rfl, hk, hbag, ?_, hadv.ok, ?_, ?_, ?_, ?_, hframes,
    busy_step hx.busy (Step.of_step hs), ?_, hlen, ?_⟩
  · simp [Exec.step, hs, hd, hlt, hact]
  · intro i v hi
    rcases Nat.lt_or_ge i sbags.length with hlt' | hge
    · rw [List.getElem?_append_left hlt'] at hi
      rw [hadv.sbag i (by rw [hx.length, ← hsb]; exact hlt')]
      exact hx.sbag i v hi
    · rw [List.getElem?_append_right hge] at hi
      obtain ⟨hi0, rfl⟩ : i - sbags.length = 0 ∧ u = v := by
        cases hn : i - sbags.length with
        | zero =>
            rw [hn] at hi
            exact ⟨rfl, by simpa using hi⟩
        | succ k =>
            rw [hn] at hi
            simp at hi
      obtain rfl : i = x.tool.reach.nodes.length := by
        rw [hx.length, ← hsb]
        omega
      rw [hadv.newBag, ← hactive, hu]
  · rw [hadv.length, hx.length, hdag]
  · rw [hadv.tCurrent, hx.length, hcur]
  · rw [hcur, hdag]
  · rw [hx.strands, hdag, List.range_succ]
  · rw [hadv.tCurrent]
    exact hlive
  · intro fut fin hfin
    have hcurlt : x.tool.reach.tCurrent < x.tool.reach.nodes.length := by
      rw [hx.tCurrent, hx.length, ← hx.cur]
      exact Nat.lt_succ_self _
    rcases hfuts fut fin hfin with ⟨hold, hsame⟩ | ⟨hnew, hlast, hatt⟩
    · obtain ⟨hput, hatt⟩ := hx.futs fut fin hold
      refine ⟨hsame.trans hput, hadv.attached _ ?_ hatt⟩
      rw [hx.length]
      exact (hx.known.ok.futures fut fin hold).last_lt
    · refine ⟨hnew, hadv.attached _ ?_ ?_⟩
      · rw [hlast, ← hx.tCurrent]
        exact hcurlt
      · rw [hlast, ← hx.tCurrent]
        exact hatt

/-! ## Every event

One lemma for each event. The program's step gives the frames, `Bagged` the call on the bags, and the `_spec` of
`NonblockEvents` or `NonblockSync` the call on the sets; what is left of each proof is to read off the stacks that
these are about the same fork. `Acts` keeps the result: which function ran, on which items, with which nodes. The
modules on soundness and on closure go on from `Acts`, and never look at the frames of the tool again. -/

/-- What an event does to the state of `nonblock`, when the program is in state `s` before it. -/
inductive Acts (s : Serial.State) (σ : State) : Event → State → Prop where
  | idle {e} : Acts s σ e σ
  | spawn {σ' sp bag} (hnew : NewNode σ σ' ⟨(σ.setOf σ.tCurrent).attPred, none, 0, bag⟩)
      (hadv : Advanced σ σ' sp bag []) : Acts s σ .spawn σ'
  | spawnRet {σ' sp bag f rest fork} (hf : s.frames = f :: rest) (hk : f.kind = .spawned fork)
      (hnew : NewNode σ σ' ⟨(σ.setOf fork).attPred, none, 0, bag⟩) (hadv : Advanced σ σ' sp bag []) :
      Acts s σ .spawnRet σ'
  | sync {σ₁ σ' sp bag ops f rest} (hf : s.frames = f :: rest) (hu : f.unsynced = true)
      (hsync : Synced { σ with mSp := sp } (kindItems f.kind ++ items rest) (forksOf f) σ₁ ops)
      (hσ' : σ' = σ₁.setCurrent σ.nodes.length bag) (hadv : Advanced σ σ' sp bag ops) : Acts s σ .sync σ'
  | create {σ₁ σ' sp bag p} (hp : (σ.setOf σ.tCurrent).attPred = some p) (hok : NodesOk σ₁)
      (hatt : Attachified { σ with mSp := sp } σ₁ σ.tCurrent)
      (hnew : NewNode σ₁ σ' ⟨some σ.nodes.length, some σ.nodes.length, σ₁.mR.data.length, bag⟩)
      (hadv : Advanced σ σ' sp bag (attachOps σ σ.tCurrent p ++ newOps σ₁ σ.tCurrent)) : Acts s σ .create σ'
  | finish {σ' sp bag f rest fut fork} (hf : s.frames = f :: rest) (hk : f.kind = .future fut fork)
      (hnew : NewNode σ σ' ⟨some σ.nodes.length, some σ.nodes.length, σ.mR.data.length, bag⟩)
      (hadv : Advanced σ σ' sp bag (newOps σ fork)) : Acts s σ (.finish fut) σ'
  | get {σ₁ σ' bag p fut fin} (hfin : s.futures[fut]? = some (some fin))
      (hlast : σ.attached fin.last = true) (hp : (σ.setOf σ.tCurrent).attPred = some p) (hok : NodesOk σ₁)
      (hatt : Attachified σ σ₁ σ.tCurrent)
      (hnew : NewNode σ₁ σ' ⟨some σ.nodes.length, some σ.nodes.length, σ₁.mR.data.length, bag⟩)
      (hadv : Advanced σ σ' σ.mSp bag (attachOps σ σ.tCurrent p ++ (newOps σ₁ σ.tCurrent ++
        [.addEdge (σ₁.setOf fin.last).id σ₁.mR.data.length]))) : Acts s σ (.get fut) σ'

/-- The top frames of the two stacks. -/
theorem Inv.top {x : Exec State SframeData SfutData Nat}
    {b : DriverState Bags Structured.SframeData Structured.SfutData} {h : Owner} {locs : List Loc}
    {sbags : List Nat} (hx : Inv x b h locs sbags) {f : Serial.Frame} {rest : List Serial.Frame}
    (hf : x.prog.frames = f :: rest) : ∃ g grest, x.tool.sstack = g :: grest ∧ FrameMatch f g ∧
      List.Forall₂ FrameMatch rest grest := by
  have hfr := hx.frames
  rw [hf] at hfr
  obtain ⟨g, grest, hfg, hrest, hg⟩ := List.forall₂_cons_left_iff.mp hfr
  exact ⟨g, grest, hg, hfg, hrest⟩

section Steps

variable {x : Exec State SframeData SfutData Nat}
  {b b' : DriverState Bags Structured.SframeData Structured.SfutData} {h h' : Owner} {locs locs' : List Loc}
  {sbags sbags' : List Nat}

/-- The running strand is the last node. -/
theorem Inv.curLt (hx : Inv x b h locs sbags) : x.tool.reach.tCurrent + 1 = x.tool.reach.nodes.length := by
  rw [hx.tCurrent, hx.length, hx.cur]

/-- `cilk_detach_begin`: the segment of the parent ends at the fork, and the child's begins. -/
theorem step_spawn (hx : Inv x b h locs sbags) {f : Serial.Frame} {rest : List Serial.Frame}
    (hf : x.prog.frames = f :: rest) {s' : Serial.State} (hs : Serial.step rules x.prog .spawn = some s')
    (hs' : s' = { x.prog.start [⟨x.prog.cur, .sp⟩] with
      frames := .new (.spawned x.prog.cur) :: { f with unsynced := true } :: rest })
    (hb : Driver.step Structured.ds b .spawn = some b') (hk : Structured.Known isSp s' [] b' h' locs' sbags')
    (hst : Structured.Stranded x.prog s' b' sbags sbags') :
    ∃ x', Exec.step ds rules x .spawn = some x' ∧ x'.prog = s' ∧ Inv x' b' h' locs' sbags' ∧
      Acts x.prog x.tool.reach .spawn x'.tool.reach := by
  obtain ⟨g, grest, hg, hfg, hrest⟩ := hx.top hf
  obtain ⟨sp, hsp, hcall, rfl⟩ := hx.bagged.spawn hg hb
  obtain ⟨σ', hrun, hnew, hadv, hlive⟩ := atSpawn_spec (f := g.data) (h := ds.newFrame) hx.nodes hx.live hx.curLt
    hcall
  have hlive' : Live σ' (items s'.frames) x.tool.reach.nodes.length := by
    rw [hs']
    rw [hf] at hlive
    rw [hx.tCurrent] at hlive
    exact hlive
  have hd : Driver.step ds x.tool .spawn = some ⟨σ', ⟨true, { ds.newFrame with
      sp := hsp
      forkStack := ⟨some x.tool.reach.tCurrent, some (x.tool.reach.tCurrent + 1), none, none⟩ ::
        ds.newFrame.forkStack }⟩ :: { g with synced := false } :: grest, x.tool.futs⟩ := by
    simp only [Driver.step, hg]
    rw [show ds.atSpawn x.tool.reach g.data ds.newFrame = _ from hrun]
    rfl
  subst hs'
  obtain ⟨x', hexec, hprog, htool, hinv⟩ := hx.start hs (by simp [Serial.State.start]) rfl hd hk hst
    ⟨hadv.mSp.symm, rfl, hx.bagged.futs⟩ hadv rfl
    (.cons ⟨rfl, by rw [hx.tCurrent]; rfl⟩ (.cons ⟨hfg.futureFork, hfg.forkStack⟩ hrest)) hlive' hx.futs_length
    (fun fut fin hfin => Or.inl ⟨hfin, rfl⟩)
  refine ⟨x', hexec, hprog, hinv, ?_⟩
  rw [htool]
  exact .spawn hnew hadv

/-- `cilk_leave_begin` of a helper: the child's segment becomes one of a child that has come back, and its entry on
    the fork stack goes to the parent. -/
theorem step_spawnRet (hx : Inv x b h locs sbags) {f g : Serial.Frame} {rest : List Serial.Frame}
    {fork : Strand} (hf : x.prog.frames = f :: g :: rest) (hkind : f.kind = .spawned fork)
    (hu : f.unsynced = false) {s' : Serial.State} (hs : Serial.step rules x.prog .spawnRet = some s')
    (hs' : s' = { x.prog.start [⟨fork, .sp⟩] with
      frames := { g with children := ⟨fork, x.prog.cur⟩ :: g.children } :: rest })
    (hb : Driver.step Structured.ds b .spawnRet = some b')
    (hk : Structured.Known isSp s' [] b' h' locs' sbags')
    (hst : Structured.Stranded x.prog s' b' sbags sbags') :
    ∃ x', Exec.step ds rules x .spawnRet = some x' ∧ x'.prog = s' ∧ Inv x' b' h' locs' sbags' ∧
      Acts x.prog x.tool.reach .spawnRet x'.tool.reach := by
  obtain ⟨c, crest, hc, hfc, hrest⟩ := hx.top hf
  obtain ⟨p, prest, hgp, hprest, rfl⟩ := List.forall₂_cons_left_iff.mp hrest
  obtain ⟨sp, psp, hcall, rfl⟩ := hx.bagged.spawnRet hc hb
  have hch : f.children = [] := hx.known.stack.synced f (by rw [hf]; simp) hu
  have hforks : c.data.forkStack = [⟨some fork, some (fork + 1), none, none⟩] := by
    rw [hfc.forkStack, forksOf, hch, hkind]
    rfl
  have hfut : c.data.futureFork = none := by
    rw [hfc.futureFork, hkind]
    rfl
  have hlive := hx.live
  rw [hf] at hlive
  have hitems : items (f :: g :: rest) = .child fork :: items (g :: rest) := by
    simp [items, forksOf, hch, hkind, kindItems]
  rw [hitems] at hlive
  obtain ⟨σ', hrun, hnew, hadv, hlive'⟩ := atSpawnContinuation_spec (p := p.data) hx.nodes hlive hx.curLt hfut hforks
    hcall
  have hd : Driver.step ds x.tool .spawnRet = some ⟨σ', { p with data := { p.data with
      sp := psp
      forkStack := ⟨some fork, some (fork + 1), some (x.tool.reach.tCurrent + 1), some x.tool.reach.tCurrent⟩ ::
        p.data.forkStack } } :: prest, x.tool.futs⟩ := by
    simp only [Driver.step, hc]
    rw [show ds.atSpawnContinuation x.tool.reach c.data p.data = _ from hrun]
    rfl
  have hlive'' : Live σ' (items s'.frames) x.tool.reach.nodes.length := by
    rw [hs']
    rw [hx.tCurrent] at hlive'
    simpa [items, forksOf, joinItem] using hlive'
  subst hs'
  have hmatch : FrameMatch { g with children := ⟨fork, x.prog.cur⟩ :: g.children } { p with data := { p.data with
      sp := psp
      forkStack := ⟨some fork, some (fork + 1), some (x.tool.reach.tCurrent + 1), some x.tool.reach.tCurrent⟩ ::
        p.data.forkStack } } := by
    refine ⟨hgp.futureFork, ?_⟩
    rw [hx.tCurrent]
    show _ :: p.data.forkStack = _
    rw [hgp.forkStack]
    rfl
  obtain ⟨x', hexec, hprog, htool, hinv⟩ := hx.start hs (by simp [Serial.State.start]) rfl hd hk hst
    ⟨hadv.mSp.symm, rfl, hx.bagged.futs⟩ hadv rfl (.cons hmatch hprest) hlive'' hx.futs_length
    (fun fut fin hfin => Or.inl ⟨hfin, rfl⟩)
  refine ⟨x', hexec, hprog, hinv, ?_⟩
  rw [htool]
  exact .spawnRet hf hkind hnew hadv

/-- `cilk_sync_end` of a block with children: the fork stack names the children that have come back, and their
    segments are joined into the frame's. -/
theorem step_sync (hx : Inv x b h locs sbags) (hroom : x.prog.dag.length + 1 < 2 ^ 64) {f : Serial.Frame}
    {rest : List Serial.Frame} (hf : x.prog.frames = f :: rest) (hspawn : rules.canSpawn f.kind = true)
    (hu : f.unsynced = true) {s' : Serial.State} (hs : Serial.step rules x.prog .sync = some s')
    (hs' : s' = { x.prog.start (Serial.syncEdges x.prog.cur f) with frames := .new f.kind :: rest })
    (hb : Driver.step Structured.ds b .sync = some b')
    (hk : Structured.Known isSp s' [] b' h' locs' sbags')
    (hst : Structured.Stranded x.prog s' b' sbags sbags') :
    ∃ x', Exec.step ds rules x .sync = some x' ∧ x'.prog = s' ∧ Inv x' b' h' locs' sbags' ∧
      Acts x.prog x.tool.reach .sync x'.tool.reach := by
  obtain ⟨g, grest, hg, hfg, hrest⟩ := hx.top hf
  have hsynced : g.synced = false := by
    have hfr := hx.known.linked.frames
    rw [hf, hx.bagged.cons hg] at hfr
    rw [show g.synced = !f.unsynced from hfr.1, hu]
    rfl
  obtain ⟨sp, fsp, hcall, rfl⟩ := hx.bagged.sync hg hsynced hb
  have hhelper : helperEntry f.kind = [] := by
    cases hkind : f.kind with
    | spawned fork =>
        rw [hkind] at hspawn
        cases hspawn
    | function => rfl
    | future fut fork => rfl
  have hforks : g.data.forkStack = (forksOf f).map entry := by
    rw [hfg.forkStack, hhelper, List.append_nil]
  have hne : forksOf f ≠ [] := by
    have hbusy := hx.busy
    rw [hf] at hbusy
    rcases hbusy.1 hu with hch | hch
    · simpa [forksOf] using hch
    · cases hch
  have hlive := hx.live
  rw [hf] at hlive
  obtain ⟨σ₁, σ', ops, hrun, hsync, hσ', hadv, hlive'⟩ := atSync_spec hx.nodes (by rw [hx.length]; exact hroom)
    hlive hx.curLt hne hforks hcall
  have hd : Driver.step ds x.tool .sync = some ⟨σ', ⟨true, { g.data with sp := fsp, forkStack := [] }⟩ :: grest,
      x.tool.futs⟩ := by
    simp only [Driver.step, hg, hsynced, Bool.false_eq_true, if_false]
    rw [show ds.atSync x.tool.reach g.data = _ from hrun]
    rfl
  have hlive'' : Live σ' (items s'.frames) x.tool.reach.nodes.length := by
    rw [hs']
    exact hlive'
  subst hs'
  have hmatch : FrameMatch (.new f.kind) ⟨true, { g.data with sp := fsp, forkStack := [] }⟩ := by
    refine ⟨hfg.futureFork, ?_⟩
    rw [show (Serial.Frame.new f.kind).kind = f.kind from rfl, hhelper]
    rfl
  obtain ⟨x', hexec, hprog, htool, hinv⟩ := hx.start hs (by simp [Serial.State.start]) rfl hd hk hst
    ⟨hadv.mSp.symm, rfl, hx.bagged.futs⟩ hadv rfl (.cons hmatch hrest) hlive'' hx.futs_length
    (fun fut fin hfin => Or.inl ⟨hfin, rfl⟩)
  refine ⟨x', hexec, hprog, hinv, ?_⟩
  rw [htool]
  exact .sync hf hu hsync hσ' hadv

/-- `cilk_future_create`: the fork is attached, and the future's segment begins behind it. -/
theorem step_create (hx : Inv x b h locs sbags) (hroom : x.prog.dag.length + 1 < 2 ^ 64) {f : Serial.Frame}
    {rest : List Serial.Frame} (hf : x.prog.frames = f :: rest) {s' : Serial.State}
    (hs : Serial.step rules x.prog .create = some s')
    (hs' : s' = { x.prog.start [⟨x.prog.cur, .sp⟩] with
      frames := .new (.future x.prog.futures.length x.prog.cur) ::
        { f with unsynced := f.unsynced || rules.createUnsyncs } :: rest
      futures := x.prog.futures ++ [none] })
    (hb : Driver.step Structured.ds b .create = some b')
    (hk : Structured.Known isSp s' [] b' h' locs' sbags')
    (hst : Structured.Stranded x.prog s' b' sbags sbags') :
    ∃ x', Exec.step ds rules x .create = some x' ∧ x'.prog = s' ∧ Inv x' b' h' locs' sbags' ∧
      Acts x.prog x.tool.reach .create x'.tool.reach := by
  obtain ⟨g, grest, hg, hfg, hrest⟩ := hx.top hf
  obtain ⟨sp, fsp, hcall, rfl⟩ := hx.bagged.create hg hb
  obtain ⟨σ₁, σ', p, hrun, hp, hok₁, hatt, hnew, hadv, hlive⟩ := atFutureCreate_spec (f := ds.newFrame) hx.nodes
    (by rw [hx.length]; exact hroom) hx.live hx.curLt rfl hcall
  have hd : Driver.step ds x.tool .create = some ⟨σ', ⟨true, { ds.newFrame with
      sp := fsp
      futureFork := some x.tool.reach.tCurrent }⟩ :: g :: grest, x.tool.futs ++ [⟨none⟩]⟩ := by
    simp only [Driver.step, hg]
    rw [show ds.atFutureCreate x.tool.reach ds.newFrame = _ from hrun]
    rfl
  have hlive' : Live σ' (items s'.frames) x.tool.reach.nodes.length := by
    rw [hs']
    rw [hf, hx.tCurrent] at hlive
    exact hlive
  subst hs'
  obtain ⟨x', hexec, hprog, htool, hinv⟩ := hx.start hs (by simp [Serial.State.start]) rfl hd hk hst
    ⟨hadv.mSp.symm, rfl, by simp [hx.bagged.futs]⟩ hadv rfl
    (.cons ⟨by rw [hx.tCurrent]; rfl, rfl⟩ (.cons ⟨hfg.futureFork, hfg.forkStack⟩ hrest)) hlive'
    (by simp [hx.futs_length]) (by
      intro fut fin hfin
      have hfin : (x.prog.futures ++ [none])[fut]? = some (some fin) := hfin
      -- the new future has not finished
      have hlt : fut < x.prog.futures.length := by
        by_contra hge
        rcases Nat.eq_or_lt_of_le (Nat.le_of_not_lt hge) with heq | hgt
        · rw [← heq] at hfin
          simp at hfin
        · rw [List.getElem?_eq_none (by simp; omega)] at hfin
          cases hfin
      rw [List.getElem?_append_left hlt] at hfin
      refine Or.inl ⟨hfin, ?_⟩
      exact List.getElem?_append_left (by rw [hx.futs_length]; exact hlt))
  refine ⟨x', hexec, hprog, hinv, ?_⟩
  rw [htool]
  exact .create hp hok₁ hatt hnew hadv

/-- `cilk_future_finish_end`: the future's last strand is attached already; the creator's segment goes on with a new
    set. -/
theorem step_finish (hx : Inv x b h locs sbags) (hroom : x.prog.dag.length + 1 < 2 ^ 64) {f g : Serial.Frame}
    {rest : List Serial.Frame} {fut : FutId} {fork : Strand} (hf : x.prog.frames = f :: g :: rest)
    (hkind : f.kind = .future fut fork) (hu : f.unsynced = false) {s' : Serial.State}
    (hs : Serial.step rules x.prog (.finish fut) = some s')
    (hs' : s' = { x.prog.start [⟨fork, .sp⟩] with
      frames := { g with created := ⟨fork, x.prog.cur⟩ :: g.created } :: rest
      futures := x.prog.futures.set fut (some ⟨fork, x.prog.cur, x.prog.dag.length⟩) })
    (hb : Driver.step Structured.ds b (.finish fut) = some b')
    (hk : Structured.Known isSp s' [] b' h' locs' sbags')
    (hst : Structured.Stranded x.prog s' b' sbags sbags') :
    ∃ x', Exec.step ds rules x (.finish fut) = some x' ∧ x'.prog = s' ∧ Inv x' b' h' locs' sbags' ∧
      Acts x.prog x.tool.reach (.finish fut) x'.tool.reach := by
  obtain ⟨c, crest, hc, hfc, hrest⟩ := hx.top hf
  obtain ⟨p, prest, hgp, hprest, rfl⟩ := List.forall₂_cons_left_iff.mp hrest
  -- the bag of the future is a root
  have hfr := hx.known.linked.frames
  rw [hf, hx.bagged.cons hc] at hfr
  obtain ⟨-, ⟨bag, hbag, hown⟩, -, -, -⟩ := hfr
  have hbag : c.data.sp.sbag = some bag := hbag
  have howned := hx.known.linked.owned
  have hroot : x.tool.reach.mSp.rep bag = bag := by
    rw [← hx.bagged.reach]
    exact howned.root hown
  obtain ⟨hfutlt, rfl⟩ := hx.bagged.finish hc hbag (by rw [← hx.bagged.reach]; exact howned.wf) hroot hb
  have hfutlt' : fut < x.tool.futs.length := by
    rw [← hx.bagged.futs]
    exact hfutlt
  have hch : f.children = [] := hx.known.stack.synced f (by rw [hf]; simp) hu
  have hlive := hx.live
  rw [hf] at hlive
  have hitems : items (f :: g :: rest) = .future fork :: items (g :: rest) := by
    simp [items, forksOf, hch, hkind, kindItems]
  rw [hitems] at hlive
  have hfut : c.data.futureFork = some fork := by
    rw [hfc.futureFork, hkind]
    rfl
  obtain ⟨σ', hrun, hatt, hnew, hadv, hlive'⟩ := atFutureFinish_spec (p := p.data) hx.nodes
    (by rw [hx.length]; exact hroom) hlive hx.curLt hfut hbag (x.tool.futs.get ⟨fut, hfutlt'⟩)
  have hd : Driver.step ds x.tool (.finish fut) = some ⟨σ', p :: prest,
      x.tool.futs.set fut ⟨some x.tool.reach.tCurrent⟩⟩ := by
    simp only [Driver.step, hc, List.getElem?_eq_getElem hfutlt', Option.bind_eq_bind, Option.bind_some]
    rw [show ds.atFutureFinish x.tool.reach c.data p.data x.tool.futs[fut] = _ from hrun]
    rfl
  have hlive'' : Live σ' (items s'.frames) x.tool.reach.nodes.length := by
    rw [hs']
    exact hlive'
  subst hs'
  obtain ⟨x', hexec, hprog, htool, hinv⟩ := hx.start hs (by simp [Serial.State.start]) rfl hd hk hst
    ⟨hadv.mSp.symm, rfl, by simp [hx.bagged.futs]⟩ hadv rfl (.cons ⟨hgp.futureFork, hgp.forkStack⟩ hprest) hlive''
    (by simp [hx.futs_length]) (by
      intro fut' fin hfin
      have hfin : (x.prog.futures.set fut _)[fut']? = some (some fin) := hfin
      by_cases heq : fut' = fut
      · subst heq
        rw [List.getElem?_set_self (by rw [← hx.futs_length]; exact hfutlt')] at hfin
        cases hfin
        refine Or.inr ⟨?_, rfl, hatt⟩
        rw [List.getElem?_set_self hfutlt', hx.tCurrent]
      · rw [List.getElem?_set_ne (fun h => heq h.symm)] at hfin
        exact Or.inl ⟨hfin, List.getElem?_set_ne (fun h => heq h.symm)⟩)
  refine ⟨x', hexec, hprog, hinv, ?_⟩
  rw [htool]
  exact .finish hf hkind hnew hadv

/-- A get moves no bag. -/
theorem known_get {s : Serial.State} (hk : Structured.Known isSp s [] b h locs sbags) {fut : FutId}
    {fin : Serial.Finished} (hs : Step rules s (.get fut) (s.start [⟨s.cur, .sp⟩, ⟨fin.last, .get⟩]))
    (hfin : s.futures[fut]? = some (some fin)) :
    ∃ locs' sbags', Structured.Known isSp (s.start [⟨s.cur, .sp⟩, ⟨fin.last, .get⟩]) [] b h locs' sbags' ∧
      Structured.Stranded s (s.start [⟨s.cur, .sp⟩, ⟨fin.last, .get⟩]) b sbags sbags' := by
  obtain ⟨u, hu, hsu⟩ := hk.linked.active hk.stack.nonempty
  have hbags := Serial.bagsOk_get hk.bagsOk hk.ok hk.stack (p := isSp) (by decide)
    (show isSp .get ↔ false = true by decide) hfin (fun hp => absurd hp (by decide))
  refine ⟨_, sbags ++ [u], ⟨Serial.ok_step hk.ok hs, Serial.stackOk_step hk.stack hs, hbags, ?_,
    hk.strands.concat hk.linked.owned hsu⟩, ?_⟩
  · exact ⟨hk.linked.owned, hk.linked.frames, hk.linked.noP, hk.linked.futs_length, hk.linked.futs,
      hk.linked.noFut⟩
  · unfold Structured.Stranded
    rw [if_pos (show s.dag.length < (s.start _).dag.length from Ok.start_cur_lt s _)]
    exact ⟨u, hu, rfl⟩

/-- `cilk_future_get_end`: the running strand is attached, and the segment goes on with a new set, behind it and
    behind the future. -/
theorem step_get (hx : Inv x b h locs sbags) (hroom : x.prog.dag.length + 1 < 2 ^ 64) {fut : FutId}
    {fin : Serial.Finished} (hfin : x.prog.futures[fut]? = some (some fin)) {s' : Serial.State}
    (hs : Serial.step rules x.prog (.get fut) = some s')
    (hs' : s' = x.prog.start [⟨x.prog.cur, .sp⟩, ⟨fin.last, .get⟩]) :
    ∃ x' locs' sbags', Exec.step ds rules x (.get fut) = some x' ∧ x'.prog = s' ∧ Inv x' b h locs' sbags' ∧
      Acts x.prog x.tool.reach (.get fut) x'.tool.reach := by
  subst hs'
  obtain ⟨locs', sbags', hk, hst⟩ := known_get hx.known (Step.of_step hs) hfin
  cases hf : x.prog.frames with
  | nil => exact absurd hf hx.known.stack.nonempty
  | cons f rest =>
      obtain ⟨g, grest, hg, hfg, hrest⟩ := hx.top hf
      obtain ⟨hput, hlast⟩ := hx.futs fut fin hfin
      obtain ⟨σ₁, σ', p, hrun, hp, hok₁, hatt, hnew, hadv, hlive⟩ := atFutureGet_spec hx.nodes
        (by rw [hx.length]; exact hroom) hx.live hx.curLt g.data
        (by rw [hx.length]; exact (hx.known.ok.futures fut fin hfin).last_lt) hlast
      have hd : Driver.step ds x.tool (.get fut) = some ⟨σ', g :: grest, x.tool.futs⟩ := by
        simp only [Driver.step, hg, hput, Option.bind_eq_bind, Option.bind_some]
        rw [show ds.atFutureGet x.tool.reach g.data ⟨some fin.last⟩ = _ from hrun]
        rfl
      have hactive : Driver.active Structured.ds b = g.data.sp.sbag := by
        simp only [Driver.active, hx.bagged.cons hg]
        rfl
      obtain ⟨x', hexec, hprog, htool, hinv⟩ := hx.start hs (by simp [Serial.State.start]) rfl hd hk hst
        ⟨hx.bagged.reach.trans hadv.mSp.symm, hx.bagged.cons hg, hx.bagged.futs⟩ hadv hactive
        (by rw [show (x.prog.start _).frames = x.prog.frames from rfl, hf]; exact .cons hfg hrest) hlive
        hx.futs_length (fun fut fin hfin => Or.inl ⟨hfin, rfl⟩)
      refine ⟨x', locs', sbags', hexec, hprog, hinv, ?_⟩
      rw [htool]
      exact .get hfin hlast hp hok₁ hatt hnew hadv

/-- **A callback that starts no strand** changes the frames alone. -/
theorem Inv.idle (hx : Inv x b h locs sbags) {e : Event} {s' : Serial.State}
    (gs : List (ShadowFrame SframeData)) (hs : Serial.step rules x.prog e = some s')
    (hdag : s'.dag = x.prog.dag) (hcur : s'.cur = x.prog.cur) (hfut : s'.futures = x.prog.futures)
    (hd : Driver.step ds x.tool e = some { x.tool with sstack := gs })
    (hk : Structured.Known isSp s' [] b' h' locs' sbags')
    (hst : Structured.Stranded x.prog s' b' sbags sbags') (hbag : Bagged { x.tool with sstack := gs } b')
    (hframes : List.Forall₂ FrameMatch s'.frames gs) (hitems : items s'.frames = items x.prog.frames) :
    ∃ x', Exec.step ds rules x e = some x' ∧ x'.prog = s' ∧ Inv x' b' h' locs' sbags' ∧
      Acts x.prog x.tool.reach e x'.tool.reach := by
  have hlt : ¬x.prog.dag.length < s'.dag.length := by
    rw [hdag]
    exact Nat.lt_irrefl _
  unfold Structured.Stranded at hst
  rw [if_neg hlt] at hst
  subst hst
  refine ⟨⟨s', { x.tool with sstack := gs }, x.strands⟩, ?_, rfl, ?_, .idle⟩
  · simp [Exec.step, hs, hd, hlt]
  · refine ⟨hk, hbag, hx.sbag, hx.nodes, ?_, ?_, ?_, ?_, hframes, busy_step hx.busy (Step.of_step hs), ?_, ?_, ?_⟩
    · rw [hdag]
      exact hx.length
    · rw [hcur]
      exact hx.tCurrent
    · rw [hcur, hdag]
      exact hx.cur
    · rw [hdag]
      exact hx.strands
    · rw [hitems]
      exact hx.live
    · rw [hfut]
      exact hx.futs_length
    · rw [hfut]
      exact hx.futs

/-- `cilk_enter_begin`. -/
theorem step_call (hx : Inv x b h locs sbags) {f : Serial.Frame} {rest : List Serial.Frame}
    (hf : x.prog.frames = f :: rest) {s' : Serial.State} (hs : Serial.step rules x.prog .call = some s')
    (hs' : s' = { x.prog with frames := .new .function :: f :: rest })
    (hb : Driver.step Structured.ds b .call = some b') (hk : Structured.Known isSp s' [] b' h' locs' sbags')
    (hst : Structured.Stranded x.prog s' b' sbags sbags') :
    ∃ x', Exec.step ds rules x .call = some x' ∧ x'.prog = s' ∧ Inv x' b' h' locs' sbags' ∧
      Acts x.prog x.tool.reach .call x'.tool.reach := by
  obtain ⟨g, grest, hg, hfg, hrest⟩ := hx.top hf
  obtain ⟨sp, fsp, hcall, rfl⟩ := hx.bagged.call hg hb
  -- the new frame begins in the bag of its caller
  cases hcall
  subst hs'
  refine hx.idle (⟨true, { ds.newFrame with sp := Structured.beginStrand g.data.sp }⟩ :: g :: grest) hs rfl rfl
    rfl ?_ hk hst ⟨rfl, rfl, hx.bagged.futs⟩ (.cons ⟨rfl, rfl⟩ (.cons hfg hrest)) ?_
  · simp only [Driver.step, hg]
    rfl
  · rw [hf]
    rfl

/-- `cilk_leave_begin` of a function. -/
theorem step_ret (hx : Inv x b h locs sbags) {f g : Serial.Frame} {rest : List Serial.Frame}
    (hf : x.prog.frames = f :: g :: rest) (hkind : f.kind = .function) (hu : f.unsynced = false)
    {s' : Serial.State} (hs : Serial.step rules x.prog .ret = some s')
    (hs' : s' = { x.prog with frames := g :: rest })
    (hb : Driver.step Structured.ds b .ret = some b') (hk : Structured.Known isSp s' [] b' h' locs' sbags')
    (hst : Structured.Stranded x.prog s' b' sbags sbags') :
    ∃ x', Exec.step ds rules x .ret = some x' ∧ x'.prog = s' ∧ Inv x' b' h' locs' sbags' ∧
      Acts x.prog x.tool.reach .ret x'.tool.reach := by
  obtain ⟨c, crest, hc, hfc, hrest⟩ := hx.top hf
  obtain ⟨p, prest, hgp, hprest, rfl⟩ := List.forall₂_cons_left_iff.mp hrest
  have hch : f.children = [] := hx.known.stack.synced f (by rw [hf]; simp) hu
  have hb' : b' = { b with sstack := spFrame p :: prest.map spFrame } := by
    simp only [Driver.step, hx.bagged.cons hc, List.map_cons] at hb
    exact (Option.some.inj hb).symm
  subst hs' hb'
  refine hx.idle (p :: prest) hs rfl rfl rfl ?_ hk hst ⟨hx.bagged.reach, rfl, hx.bagged.futs⟩
    (.cons hgp hprest) ?_
  · simp only [Driver.step, hc]
  · rw [hf]
    simp [items, forksOf, hch, hkind, kindItems]

/-- A sync of a block without children. -/
theorem step_synced (hx : Inv x b h locs sbags) {f : Serial.Frame} {rest : List Serial.Frame}
    (hf : x.prog.frames = f :: rest) (hu : f.unsynced = false)
    (hs : Serial.step rules x.prog .sync = some x.prog)
    (hb : Driver.step Structured.ds b .sync = some b') (hk : Structured.Known isSp x.prog [] b' h' locs' sbags')
    (hst : Structured.Stranded x.prog x.prog b' sbags sbags') :
    ∃ x', Exec.step ds rules x .sync = some x' ∧ x'.prog = x.prog ∧ Inv x' b' h' locs' sbags' ∧
      Acts x.prog x.tool.reach .sync x'.tool.reach := by
  obtain ⟨g, grest, hg, hfg, hrest⟩ := hx.top hf
  have hsynced : g.synced = true := by
    have hfr := hx.known.linked.frames
    rw [hf, hx.bagged.cons hg] at hfr
    rw [show g.synced = !f.unsynced from hfr.1, hu]
    rfl
  have hb' : b' = b := by
    simp only [Driver.step, hx.bagged.cons hg, spFrame, hsynced, if_true] at hb
    exact (Option.some.inj hb).symm
  subst hb'
  refine hx.idle x.tool.sstack hs rfl rfl rfl ?_ hk hst hx.bagged hx.frames rfl
  simp only [Driver.step]
  rw [hg]
  simp only [hsynced, if_true]
  rw [← hg]

/-- **One event**: the callback returns, and the tool goes on beside the program. By cases on the event; the bags'
    part is a run of MultiBags without gets, so `Structured.Known.step` is used for it. -/
theorem inv_step (hx : Inv x b h locs sbags) (hroom : x.prog.dag.length + 1 < 2 ^ 64) {e : Event}
    {s' : Serial.State} (hs : Serial.step rules x.prog e = some s') :
    ∃ x' b' h' locs' sbags', Exec.step ds rules x e = some x' ∧ x'.prog = s' ∧ Inv x' b' h' locs' sbags' ∧
      Acts x.prog x.tool.reach e x'.tool.reach := by
  have hstep := Step.of_step hs
  by_cases hne : ∀ fut, e ≠ .get fut
  · obtain ⟨b', h', locs', sbags', hb, hk, hst⟩ := hx.known.step false (by decide) (by decide) (by simp [isSp])
      hstep hne
    cases hstep with
    | call hf =>
        obtain ⟨x', hx'⟩ := step_call hx hf hs rfl hb hk hst
        exact ⟨x', b', h', locs', sbags', hx'⟩
    | ret hf hkind hu =>
        obtain ⟨x', hx'⟩ := step_ret hx hf hkind hu hs rfl hb hk hst
        exact ⟨x', b', h', locs', sbags', hx'⟩
    | spawn hf _ =>
        obtain ⟨x', hx'⟩ := step_spawn hx hf hs rfl hb hk hst
        exact ⟨x', b', h', locs', sbags', hx'⟩
    | spawnRet hf hkind hu =>
        obtain ⟨x', hx'⟩ := step_spawnRet hx hf hkind hu hs rfl hb hk hst
        exact ⟨x', b', h', locs', sbags', hx'⟩
    | sync hf hspawn hu =>
        obtain ⟨x', hx'⟩ := step_sync hx hroom hf hspawn hu hs rfl hb hk hst
        exact ⟨x', b', h', locs', sbags', hx'⟩
    | synced hf hspawn hu =>
        obtain ⟨x', hx'⟩ := step_synced hx hf hu hs hb hk hst
        exact ⟨x', b', h', locs', sbags', hx'⟩
    | create hf _ =>
        obtain ⟨x', hx'⟩ := step_create hx hroom hf hs rfl hb hk hst
        exact ⟨x', b', h', locs', sbags', hx'⟩
    | finish hf hkind hu =>
        obtain ⟨x', hx'⟩ := step_finish hx hroom hf hkind hu hs rfl hb hk hst
        exact ⟨x', b', h', locs', sbags', hx'⟩
    | get => exact absurd rfl (hne _)
  · obtain ⟨fut, rfl⟩ : ∃ fut, e = .get fut := by simpa using hne
    cases hstep with
    | get hfin =>
        obtain ⟨x', locs', sbags', hx'⟩ := step_get hx hroom hfin hs rfl
        exact ⟨x', b, h, locs', sbags', hx'⟩

end Steps

/-! ## Queries

A query may come at any moment, for any strand so far. It changes no set; in the bags it may shorten paths, which
`Bags.Same` takes care of. -/

/-- **A query returns**, whatever it answers, and moves no bag. Every strand has a bag, and a set that answers for
    the running strand has a row, so `precedes` of `R` returns; if no set answers, the code says no without asking
    `R`. -/
theorem inv_query {x : Exec State SframeData SfutData Nat}
    {b : DriverState Bags Structured.SframeData Structured.SfutData} {h : Owner} {locs : List Loc}
    {sbags : List Nat} (hx : Inv x b h locs sbags) {i : Strand} (hi : i < x.prog.dag.length) :
    ∃ x' answer b', Exec.query ds x i = some (x', answer) ∧ x'.prog = x.prog ∧ Inv x' b' h locs sbags ∧
      x'.tool.reach.mR = x.tool.reach.mR ∧ x'.tool.reach.calls = x.tool.reach.calls := by
  have hk := hx.known
  have hbi : i < locs.length := by
    rw [hk.bagsOk.length]
    exact hi
  have hsi : i < sbags.length := by
    rw [hk.strands.length]
    exact hbi
  have hu := List.getElem?_eq_getElem hsi
  obtain ⟨sp, hrun, hsame⟩ := hk.strands.precedesNow hk.linked.owned hu (List.getElem?_eq_getElem hbi)
  rw [hx.bagged.reach] at hrun
  have hsp : Structured.ds.precedesNow x.tool.reach.mSp ⟨none, none⟩ sbags[i] =
      some (sp, decide (kindOf locs[i] = .S)) := hrun
  -- `R` has a row for each answering set
  have hanswer : ∃ answer, precedesNow x.tool.reach i = some ({ x.tool.reach with mSp := sp }, answer) := by
    unfold precedesNow
    rw [hx.sbag i _ hu]
    simp only [Option.bind_eq_bind, Option.bind_some, hsp]
    split
    · exact ⟨true, rfl⟩
    · split
      · rename_i su sv _ _
        have hrow : (x.tool.reach.node sv).id < x.tool.reach.mR.data.length := hx.nodes.id_lt sv
        obtain ⟨answer, hprec⟩ := General.precedes_returns (x := (x.tool.reach.node su).id) hrow
        refine ⟨answer, ?_⟩
        show (x.tool.reach.mR.precedes (x.tool.reach.node su).id (x.tool.reach.node sv).id).bind _ = _
        rw [hprec]
        rfl
      · exact ⟨false, rfl⟩
  obtain ⟨answer, hanswer⟩ := hanswer
  obtain ⟨f, rest, hf⟩ : ∃ f rest, x.prog.frames = f :: rest := List.exists_cons_of_ne_nil hk.stack.nonempty
  obtain ⟨g, grest, hg, -, -⟩ := hx.top hf
  have hstrand : x.strands[i]? = some i := by
    rw [hx.strands, List.getElem?_range hi]
  refine ⟨{ x with tool := { x.tool with reach := { x.tool.reach with mSp := sp } } }, answer, { b with reach := sp },
    ?_, rfl, ?_, rfl, rfl⟩
  · simp only [Exec.query, hstrand, Driver.precedesNow, hg, Option.bind_eq_bind, Option.bind_some]
    rw [show ds.precedesNow x.tool.reach g.data i = _ from hanswer]
    rfl
  · have hl := hk.linked
    exact ⟨⟨hk.ok, hk.stack, hk.bagsOk, ⟨hl.owned.same hsame, hl.frames, hl.noP, hl.futs_length, hl.futs, hl.noFut⟩,
      hk.strands.same hsame⟩, ⟨rfl, hx.bagged.sstack, hx.bagged.futs⟩, hx.sbag, hx.nodes.bags sp, hx.length,
      hx.tCurrent, hx.cur, hx.strands, hx.frames, hx.busy, hx.live.bags sp, hx.futs_length, hx.futs⟩

/-! ## Every run

The constructor makes the state in which the root strand runs, and from there on `inv_step` and `inv_query` are the
two cases of the induction. `R` has at most one node for each strand, besides the fake one, and its rows are indexed
by 64-bit numbers: this is where the bound on the strands of a run comes from. -/

/-- The state after `init`: the root strand in an attached set, with an edge from the fake node. -/
def initial : State where
  mR := ⟨[.new, .new]⟩
  mSp := (Bags.empty.new .S).1
  nodes := [⟨some 0, some 0, 1, some 0⟩]
  parent := [0]
  tCurrent := 0
  calls := [.addNode, .addEdge 1 1]

/-- The only node after `init`. -/
theorem node_initial (z : Nat) : initial.node z = if z = 0 then ⟨some 0, some 0, 1, some 0⟩ else default := by
  cases z with
  | zero => rfl
  | succ z => rfl

/-- It is its own root. -/
theorem find_initial (z : Nat) : initial.find z = z := by
  have hparent : UF.parentOf [0] z = z := by
    cases z with
    | zero => rfl
    | succ z => rfl
  exact hparent

/-- And it is attached. -/
theorem attached_initial : initial.attached 0 = true := rfl

/-- The nodes are as they should be. -/
theorem nodesOk_initial : NodesOk initial where
  forest := (UF.add_spec UF.wf_nil).1
  size := rfl
  root x _ := find_initial x
  id_lt x := by
    rw [node_initial]
    split
    · exact Nat.lt_succ_self 1
    · exact Nat.zero_lt_two
  pred x p hp := by
    rw [node_initial] at hp
    split at hp
    · cases hp
      exact Nat.one_pos
    · cases hp
  ids := Nat.le_refl 2

/-- The root strand runs, with nothing below it. -/
theorem live_initial : Live initial [] 0 where
  starts := attached_initial
  seg :=
    { le := Nat.le_refl 0
      within := by
        intro z _ hz
        rw [find_initial]
        exact ⟨Nat.zero_le z, hz⟩
      pred := by
        intro z _ hz
        obtain rfl := Nat.le_zero.mp hz
        exact Option.some_ne_none 0
      free := fun h => absurd h (by decide)
      held := fun _ => ⟨rfl, rfl⟩ }
  below := trivial

/-- `race_detector::race_detector`: the tool and the program start together. -/
theorem inv_init : ∃ x b h locs sbags, Exec.init ds = some x ∧ x.prog = Serial.init ∧ x.tool.reach = initial ∧
    Inv x b h locs sbags := by
  refine ⟨⟨Serial.init, ⟨initial, [⟨true, ⟨⟨some 0, none⟩, none, []⟩⟩], []⟩, [0]⟩, _, _, _, _, rfl, rfl, rfl,
    Structured.known_init isSp, ⟨rfl, rfl, rfl⟩, ?_, nodesOk_initial, rfl, rfl, rfl, rfl, .cons ⟨rfl, rfl⟩ .nil, ?_,
    live_initial, rfl, ?_⟩
  · intro i u hu
    cases i with
    | zero =>
        cases hu
        rfl
    | succ i => cases hu
  · exact ⟨(fun hu => by cases hu), trivial⟩
  · intro fut fin hfin
    cases hfin

/-- Strands are not removed. -/
theorem dag_length_le {s s' : Serial.State} {e : Event} (h : Step rules s e s') : s.dag.length ≤ s'.dag.length := by
  cases h with
  | call | ret | synced => exact Nat.le_refl _
  | spawn | spawnRet | sync | create | finish | get => exact Nat.le_of_lt (Ok.start_cur_lt s _)

/-- **After any run** the tool has returned from every callback, and stands beside the program. By induction on the
    run, with `inv_step` and `inv_query`. -/
theorem inv_of_progRun {as : List Action} {s : Serial.State} (h : ProgRun rules as s)
    (hroom : s.dag.length + 1 < 2 ^ 64) :
    ∃ x b h locs sbags, Exec.run ds rules as = some x ∧ x.prog = s ∧ Inv x b h locs sbags := by
  induction h with
  | nil =>
      obtain ⟨x, b, h, locs, sbags, hinit, hs, -, hinv⟩ := inv_init
      exact ⟨x, b, h, locs, sbags, by simp [Exec.run, hinit, Exec.runFrom], hs, hinv⟩
  | event _ hs ih =>
      have hle := dag_length_le (Step.of_step hs)
      obtain ⟨x, b, h, locs, sbags, hrun, rfl, hinv⟩ := ih (by omega)
      obtain ⟨x', b', h', locs', sbags', hstep, hs', hinv', -⟩ := inv_step hinv (by omega) hs
      exact ⟨x', b', h', locs', sbags', by rw [Exec.run_concat, hrun]; exact hstep, hs', hinv'⟩
  | query _ hi ih =>
      obtain ⟨x, b, h, locs, sbags, hrun, rfl, hinv⟩ := ih hroom
      obtain ⟨x', answer, b', hq, hs', hinv', -⟩ := inv_query hinv hi
      exact ⟨x', b', h, locs, sbags, by rw [Exec.run_concat, hrun]; simp [Exec.act, hq], hs', hinv'⟩

/-- **No assertion of MultiBags+ fails**, whatever the program does and asks on the way, and the set of the running
    strand, a join node after a sync, has an attached predecessor. Each strand has a node in memory, so there are
    fewer than `2 ^ 64` of them. -/
theorem nonblock_returns {as : List Action} {s : Serial.State} (h : ProgRun rules as s)
    (hroom : s.dag.length + 1 < 2 ^ 64) : ∃ x p, Exec.run ds rules as = some x ∧ x.prog = s ∧
      (x.tool.reach.setOf x.tool.reach.tCurrent).attPred = some p ∧ x.tool.reach.attached p = true := by
  obtain ⟨x, b, h, locs, sbags, hrun, hs, hinv⟩ := inv_of_progRun h hroom
  obtain ⟨p, hp⟩ := hinv.live.attachable.1
  exact ⟨x, p, hrun, hs, hp, hinv.nodes.attached_of_id (hinv.nodes.pred _ _ hp)⟩

/-- A block with two spawned children, one of which creates a future that is got behind the sync. -/
theorem nonblock_returns_twoForks : ∃ x p, Exec.run ds rules [.event .spawn, .event .create, .event (.finish 0),
      .event .spawnRet, .event .spawn, .event .spawnRet, .event .sync, .event (.get 0), .query 1] = some x ∧
    x.prog.cur = 8 ∧ (x.tool.reach.setOf x.tool.reach.tCurrent).attPred = some p ∧
      x.tool.reach.attached p = true := by
  have h : ProgRun rules [.event .spawn, .event .create, .event (.finish 0), .event .spawnRet, .event .spawn,
      .event .spawnRet, .event .sync, .event (.get 0)] _ :=
    ((((((((ProgRun.nil.event rfl).event rfl).event rfl).event rfl).event rfl).event rfl).event rfl).event rfl)
  obtain ⟨x, p, hrun, hs, hpred⟩ := nonblock_returns (h.query (x := 1) (by decide)) (by decide)
  exact ⟨x, p, hrun, by rw [hs]; rfl, hpred⟩

end FOrder.Futurerd.Nonblock
