import FOrder.Lib.Dag

/-!
# `Serial.Machine` — serial depth-first executions of programs with spawns and futures

One worker runs every spawned call and every future as soon as it meets it, and comes back to the parent
afterwards. A run is the sequence of events that the tools' callbacks see; the machine keeps the shadow
stack and records the computation dag. A **strand** is a node of the dag: a spawn, a create, a return to a
continuation, a sync and a get start a new one, a call and its return do not.
-/

namespace FOrder.Serial

abbrev Strand := Nat
abbrev FutId := Nat

/-- `sp` are the edges of spawns, continuations, syncs and creates, `get` leads from the last strand of a
    future to the strand after a get. `join` leads from the last strand of a future to the next sync of its
    creator: it is no edge of the computation, but orders built for fork-join code put it in. -/
inductive EdgeKind where
  | sp
  | get
  | join
  deriving DecidableEq

/-- The edges of the computation dag. -/
def isDep (k : EdgeKind) : Prop := k ≠ .join

/-- The series-parallel part: no edge comes in from a get. -/
def isSp (k : EdgeKind) : Prop := k = .sp

instance (k : EdgeKind) : Decidable (isDep k) := inferInstanceAs (Decidable (_ ≠ _))
instance (k : EdgeKind) : Decidable (isSp k) := inferInstanceAs (Decidable (_ = _))

theorem isDep_of_isSp (k : EdgeKind) (h : isSp k) : isDep k := by
  rw [show k = .sp from h]
  decide

/-- Why a frame is on the stack: a function (called, or the root), the helper of a spawn, or the frame of
    a future. The last two remember the strand that forked them. -/
inductive Kind where
  | function
  | spawned (fork : Strand)
  | future (fut : FutId) (fork : Strand)
  deriving DecidableEq

/-- A finished spawned child or future: the strand that forked it and its last strand. -/
structure Child where
  fork : Strand
  last : Strand
  deriving DecidableEq

/-- A frame of the shadow stack; `children` and `created` are the spawned children and the futures that
    finished since the last sync of the frame. -/
structure Frame where
  kind : Kind
  children : List Child
  created : List Child
  unsynced : Bool
  deriving DecidableEq

def Frame.new (kind : Kind) : Frame := ⟨kind, [], [], false⟩

/-- A finished future: its creator's strand, its last strand, and the continuation of the create. -/
structure Finished where
  fork : Strand
  last : Strand
  cont : Strand
  deriving DecidableEq

structure State where
  dag : Dag EdgeKind
  cur : Strand
  frames : List Frame
  futures : List (Option Finished)
  deriving DecidableEq

inductive Event where
  | call
  | ret
  | spawn
  | spawnRet
  | sync
  | create
  | finish (fut : FutId)
  | get (fut : FutId)
  deriving DecidableEq

/-- What the tools differ in: the frames in which a spawn or sync and a create can happen, and whether a
    create alone makes the next sync of its frame a real one. -/
structure Rules where
  canSpawn : Kind → Bool
  canCreate : Kind → Bool
  createUnsyncs : Bool

/-- The root function runs strand `0`. -/
def init : State := ⟨[[]], 0, [Frame.new .function], []⟩

/-- Start a new strand with the given in-edges. -/
def State.start (s : State) (es : List (InEdge EdgeKind)) : State :=
  { s with dag := s.dag ++ [es], cur := s.dag.length }

/-- The in-edges of the strand after a sync. -/
def syncEdges (cur : Strand) (f : Frame) : List (InEdge EdgeKind) :=
  ⟨cur, .sp⟩ :: f.children.map (fun c => ⟨c.last, .sp⟩) ++ f.created.map (fun c => ⟨c.last, .join⟩)

/-- One event. Functions return synced; `none` is an event that does not fit the state. -/
def step (rules : Rules) (s : State) (e : Event) : Option State :=
  match e, s.frames with
  | .call, f :: rest => some { s with frames := .new .function :: f :: rest }
  | .ret, f :: g :: rest =>
      if f.kind = .function ∧ f.unsynced = false then some { s with frames := g :: rest } else none
  | .spawn, f :: rest =>
      if rules.canSpawn f.kind then
        some { s.start [⟨s.cur, .sp⟩] with
          frames := .new (.spawned s.cur) :: { f with unsynced := true } :: rest }
      else none
  | .spawnRet, f :: g :: rest =>
      match f.kind with
      | .spawned fork =>
          if f.unsynced = false then
            some { s.start [⟨fork, .sp⟩] with
              frames := { g with children := ⟨fork, s.cur⟩ :: g.children } :: rest }
          else none
      | _ => none
  | .sync, f :: rest =>
      if rules.canSpawn f.kind then
        if f.unsynced then
          some { s.start (syncEdges s.cur f) with frames := .new f.kind :: rest }
        else some s
      else none
  | .create, f :: rest =>
      if rules.canCreate f.kind then
        some { s.start [⟨s.cur, .sp⟩] with
          frames := .new (.future s.futures.length s.cur) ::
            { f with unsynced := f.unsynced || rules.createUnsyncs } :: rest
          futures := s.futures ++ [none] }
      else none
  | .finish fut, f :: g :: rest =>
      match f.kind with
      | .future fut' fork =>
          if fut' = fut ∧ f.unsynced = false then
            some { s.start [⟨fork, .sp⟩] with
              frames := { g with created := ⟨fork, s.cur⟩ :: g.created } :: rest
              futures := s.futures.set fut (some ⟨fork, s.cur, s.dag.length⟩) }
          else none
      | _ => none
  | .get fut, _ =>
      match s.futures[fut]? with
      | some (some fin) => some (s.start [⟨s.cur, .sp⟩, ⟨fin.last, .get⟩])
      | _ => none
  | _, _ => none

/-- A run. -/
def run (rules : Rules) : State → List Event → Option State
  | s, [] => some s
  | s, e :: es => do
      let s' ← step rules s e
      run rules s' es

/-- The states a program can be in. -/
def Reachable (rules : Rules) (s : State) : Prop := ∃ es, run rules init es = some s

/-! ## What one event can do -/

/-- `step` as a relation: one constructor for each event that fits. -/
inductive Step (rules : Rules) (s : State) : Event → State → Prop where
  | call {f rest} (hf : s.frames = f :: rest) :
      Step rules s .call { s with frames := .new .function :: f :: rest }
  | ret {f g rest} (hf : s.frames = f :: g :: rest) (hk : f.kind = .function)
      (hu : f.unsynced = false) : Step rules s .ret { s with frames := g :: rest }
  | spawn {f rest} (hf : s.frames = f :: rest) (hk : rules.canSpawn f.kind = true) :
      Step rules s .spawn { s.start [⟨s.cur, .sp⟩] with
        frames := .new (.spawned s.cur) :: { f with unsynced := true } :: rest }
  | spawnRet {f g rest fork} (hf : s.frames = f :: g :: rest) (hk : f.kind = .spawned fork)
      (hu : f.unsynced = false) : Step rules s .spawnRet { s.start [⟨fork, .sp⟩] with
        frames := { g with children := ⟨fork, s.cur⟩ :: g.children } :: rest }
  | sync {f rest} (hf : s.frames = f :: rest) (hk : rules.canSpawn f.kind = true)
      (hu : f.unsynced = true) : Step rules s .sync { s.start (syncEdges s.cur f) with
        frames := .new f.kind :: rest }
  | synced {f rest} (hf : s.frames = f :: rest) (hk : rules.canSpawn f.kind = true)
      (hu : f.unsynced = false) : Step rules s .sync s
  | create {f rest} (hf : s.frames = f :: rest) (hk : rules.canCreate f.kind = true) :
      Step rules s .create { s.start [⟨s.cur, .sp⟩] with
        frames := .new (.future s.futures.length s.cur) ::
          { f with unsynced := f.unsynced || rules.createUnsyncs } :: rest
        futures := s.futures ++ [none] }
  | finish {f g rest fut fork} (hf : s.frames = f :: g :: rest) (hk : f.kind = .future fut fork)
      (hu : f.unsynced = false) : Step rules s (.finish fut) { s.start [⟨fork, .sp⟩] with
        frames := { g with created := ⟨fork, s.cur⟩ :: g.created } :: rest
        futures := s.futures.set fut (some ⟨fork, s.cur, s.dag.length⟩) }
  | get {fut fin} (hfin : s.futures[fut]? = some (some fin)) :
      Step rules s (.get fut) (s.start [⟨s.cur, .sp⟩, ⟨fin.last, .get⟩])

theorem Step.of_step {rules : Rules} {s s' : State} {e : Event} (h : step rules s e = some s') :
    Step rules s e s' := by
  unfold step at h
  split at h
  · rename_i f rest hf
    cases h
    exact .call hf
  · rename_i f g rest hf
    split at h
    · rename_i hc
      cases h
      exact .ret hf hc.1 hc.2
    · cases h
  · rename_i f rest hf
    split at h
    · rename_i hc
      cases h
      exact .spawn hf hc
    · cases h
  · rename_i f g rest hf
    split at h
    · rename_i fork hk
      split at h
      · rename_i hu
        cases h
        exact .spawnRet hf hk hu
      · cases h
    · cases h
  · rename_i f rest hf
    split at h
    · rename_i hc
      split at h
      · rename_i hu
        cases h
        exact .sync hf hc hu
      · rename_i hu
        cases h
        exact .synced hf hc (by simpa using hu)
    · cases h
  · rename_i f rest hf
    split at h
    · rename_i hc
      cases h
      exact .create hf hc
    · cases h
  · rename_i fut f g rest hf
    split at h
    · rename_i fut' fork hk
      split at h
      · rename_i hc
        obtain ⟨rfl, hu⟩ := hc
        cases h
        exact .finish hf hk hu
      · cases h
    · cases h
  · rename_i fut _
    split at h
    · rename_i fin hfin
      cases h
      exact .get hfin
    · cases h
  · cases h

/-! ## Runs -/

theorem run_append {rules : Rules} {s s' : State} {es fs : List Event} :
    run rules s (es ++ fs) = some s' ↔ ∃ t, run rules s es = some t ∧ run rules t fs = some s' := by
  induction es generalizing s with
  | nil => simp [run]
  | cons e es ih =>
      simp only [List.cons_append, run, Option.bind_eq_bind, Option.bind_eq_some_iff, ih]
      constructor
      · rintro ⟨u, hu, t, ht, hs'⟩
        exact ⟨t, ⟨u, hu, ht⟩, hs'⟩
      · rintro ⟨t, ⟨u, hu, ht⟩, hs'⟩
        exact ⟨u, hu, t, ht, hs'⟩

theorem Reachable.step {rules : Rules} {s s' : State} {e : Event} (hr : Reachable rules s)
    (h : step rules s e = some s') : Reachable rules s' := by
  obtain ⟨es, hes⟩ := hr
  exact ⟨es ++ [e], run_append.mpr ⟨s, hes, by simp [run, h]⟩⟩

/-- **Induction over runs.** -/
theorem Reachable.induct {rules : Rules} {q : State → Prop} (hinit : q init)
    (hstep : ∀ s e s', Reachable rules s → q s → Step rules s e s' → q s') {s : State}
    (hr : Reachable rules s) : q s := by
  obtain ⟨es, hes⟩ := hr
  suffices h : ∀ (es : List Event) (t : State), Reachable rules t → q t → run rules t es = some s → q s by
    exact h es init ⟨[], rfl⟩ hinit hes
  intro es
  induction es with
  | nil =>
      intro t _ hq h
      cases h
      exact hq
  | cons e es ih =>
      intro t ht hq h
      obtain ⟨u, hu, hrest⟩ := Option.bind_eq_some_iff.mp h
      exact ih u (ht.step hu) (hstep t e u ht hq (Step.of_step hu)) hrest

end FOrder.Serial
