import FOrder.Serial.Bags
import FOrder.Futurerd.Owned
import FOrder.Futurerd.Structured

/-!
# `Futurerd.StructuredExact` — MultiBags is exact on structured futures

The frames of the tool and of the program go together (`Linked`): a frame's S bag is the one of its task, its P bag
the one of its depth, and a finished future keeps the bag of its last strand. With `Serial.Bags` each callback is
then one move of a bag.

## Shape

`Serial.Bags` says, without any tool, in which bag each strand of a run belongs: with its task while that runs, in a
P bag once the task has returned and is not joined, and with its future once that has finished and has not been got.
It also says that a strand precedes the current one exactly when its bag is an S bag. What is left to do here is to
find these bags in the code, in three steps.

1. `Owned` and `StrandBags` (`Futurerd.Owned`) hold the roots of the forest against the owners of the bags.
2. `Linked` holds the frames of the tool against the frames of the program, for the same owners.
3. Each callback has a lemma `linked_…`: it returns, the frames are linked again, and the strands are in the bags
   that `bagStep` says.

`Known` is all of it, `Known.step` one event, and `inv_step` is where the get discipline comes in: the bag of a
future is there for the first get only, and the strand after it may take that bag for its own only if the future's
creator precedes it already (`StructuredGet.getOk`).
-/

namespace FOrder.Futurerd.Structured

open Serial (State Event FutId Strand Step Loc Ok StackOk BagsOk taskDepth moveBag bagStep gotAfter isDep)

/-- A **structured** get: the first one of the future, by a strand after the continuation of its create. The
    future has finished before that continuation, so the path between the two does not go through it. -/
structure StructuredGet (s : State) (got : List FutId) (fut : FutId) : Prop where
  once : fut ∉ got
  after : ∀ fin : Serial.Finished, s.futures[fut]? = some (some fin) → s.dag.Reach isDep fin.cont s.cur

/-- The runs of programs with structured futures; `got` are the futures that have been got. -/
inductive StructuredRun : List Action → List FutId → State → Prop where
  | nil : StructuredRun [] [] Serial.init
  | event {as got s s' e} (h : StructuredRun as got s) (hs : Serial.step rules s e = some s')
      (hget : ∀ fut, e = .get fut → StructuredGet s got fut) :
      StructuredRun (as ++ [.event e]) (gotAfter true got e) s'
  | query {as got s x} (h : StructuredRun as got s) (hx : x < s.dag.length) :
      StructuredRun (as ++ [.query x]) got s

/-- The get discipline says what `Serial.Bags` asks of a get: the task that takes the future's bag comes after the
    task that created it. -/
theorem StructuredGet.getOk {s : State} {got : List FutId} {fut : FutId} (hok : Ok s)
    (h : StructuredGet s got fut) : Serial.GetOk true isDep s got fut := by
  intro _
  refine ⟨h.once, ?_⟩
  intro fin hfin
  have hcont := (hok.futures fut fin hfin).cont
  exact (hcont.mono Serial.isDep_of_isSp).trans (h.after fin hfin)

/-! ## The frames of the tool

Two stacks side by side. A called function has the S bag of its caller in both, since the code copies the pointer and
`taskDepth` names one owner for both frames; so a frame is linked to the bag of its task, whichever frame of the task
it is. The P bag belongs to the frame itself, and a null pointer means that the owner has no bag. -/

abbrev Frames := List (ShadowFrame SframeData)

/-- Frame by frame, innermost first: synced or not; the S bag is the one of the frame's task, and the P bag the one
    of its depth, which a synced frame does not have. -/
def FramesLinked (h : Owner) : List Serial.Frame → Frames → Prop
  | [], [] => True
  | f :: rest, g :: grest =>
      g.synced = !f.unsynced ∧ (∃ b, g.data.sbag = some b ∧ h (.s (taskDepth (f :: rest))) = some b) ∧
        g.data.pbag = h (.p rest.length) ∧ (f.unsynced = false → h (.p rest.length) = none) ∧
        FramesLinked h rest grest
  | _, _ => False

/-- The tool beside the program: the frames, and the futures that have finished and not been got. Nothing else has a
    bag. -/
structure Linked (s : State) (got : List FutId) (d : DriverState Bags SframeData SfutData)
    (h : Owner) : Prop where
  owned : Owned d.reach h
  frames : FramesLinked h s.frames d.sstack
  noP : ∀ i, s.frames.length ≤ i → h (.p i) = none
  futs_length : d.futs.length = s.futures.length
  futs : ∀ (fut : FutId) (fin : Serial.Finished), s.futures[fut]? = some (some fin) → fut ∉ got →
    ∃ b, d.futs[fut]? = some ⟨some b⟩ ∧ h (.fut fut) = some b
  noFut : ∀ fut : FutId, (∀ fin : Serial.Finished, s.futures[fut]? ≠ some (some fin)) →
    h (.fut fut) = none

/-- Frames see the owners of their own depths only. -/
theorem FramesLinked.congr {h h' : Owner} {frames : List Serial.Frame} :
    ∀ {gs : Frames}, (∀ i, i < frames.length → h' (.s i) = h (.s i)) →
      (∀ i, i < frames.length → h' (.p i) = h (.p i)) → FramesLinked h frames gs →
      FramesLinked h' frames gs := by
  induction frames with
  | nil =>
      intro gs _ _ hl
      cases gs with
      | nil => trivial
      | cons g grest => exact hl.elim
  | cons f rest ih =>
      intro gs hs hp hl
      cases gs with
      | nil => exact hl.elim
      | cons g grest =>
          obtain ⟨hsync, ⟨b, hb, hsb⟩, hpbag, hnone, hrest⟩ := hl
          have htask := hs _ (Serial.taskDepth_lt (show f :: rest ≠ [] by simp))
          have hdepth := hp rest.length (Nat.lt_succ_self _)
          refine ⟨hsync, ⟨b, hb, htask.trans hsb⟩, hpbag.trans hdepth.symm, ?_, ?_⟩
          · intro hu
            rw [hdepth]
            exact hnone hu
          · exact ih (fun i hi => hs i (Nat.lt_succ_of_lt hi)) (fun i hi => hp i (Nat.lt_succ_of_lt hi)) hrest

/-- The tool has a frame where the program has one. -/
theorem FramesLinked.exists_cons {h : Owner} {f : Serial.Frame} {rest : List Serial.Frame} {gs : Frames}
    (hl : FramesLinked h (f :: rest) gs) : ∃ g grest, gs = g :: grest := by
  cases gs with
  | nil => exact hl.elim
  | cons g grest => exact ⟨g, grest, rfl⟩

/-- The active strand of the tool is in the S bag of the top frame's task. -/
theorem Linked.active {s : State} {got : List FutId} {d : DriverState Bags SframeData SfutData} {h : Owner}
    (hl : Linked s got d h) (hne : s.frames ≠ []) :
    ∃ b, Driver.active ds d = some b ∧ h (.s (taskDepth s.frames)) = some b := by
  have hfr := hl.frames
  cases hf : s.frames with
  | nil => exact absurd hf hne
  | cons f rest =>
      rw [hf] at hfr
      obtain ⟨g, grest, hg⟩ := hfr.exists_cons
      rw [hg] at hfr
      obtain ⟨b, hb, hsb⟩ := hfr.2.1
      exact ⟨b, by simp [Driver.active, hg, ds, hb], hsb⟩

/-! ## One callback

A callback merges at most one bag into another, and `bagStep` says which owner's bag that should have been. The proofs
have two parts: the merge the code makes is that of the two roots (`Owned`), and the owner that loses its bag is not
linked from anywhere any more: its frame is popped, its pointer cleared, or its future is one that has been got. A
call and a return leave the bags alone. -/

/-- What is known before an event; `p` are the edges that count. -/
structure Known (p : Serial.EdgeKind → Prop) (s : State) (got : List FutId)
    (d : DriverState Bags SframeData SfutData) (h : Owner) (bags : List Loc) (strands : List Nat) : Prop where
  ok : Ok s
  stack : StackOk s
  bagsOk : BagsOk p s bags got
  linked : Linked s got d h
  strands : StrandBags d.reach h bags strands

section Callback

variable {p : Serial.EdgeKind → Prop} {s : State} {got : List FutId}
  {d : DriverState Bags SframeData SfutData} {h : Owner} {bags : List Loc} {strands : List Nat}

/-- No strand is in a bag that nobody has. -/
theorem Known.free (hk : Known p s got d h bags strands) {l : Loc} (hl : h l = none) (x : Nat) :
    bags[x]? ≠ some l := by
  intro hx
  have hlt : x < strands.length := by
    rw [hk.strands.length]
    exact (List.getElem?_eq_some_iff.mp hx).1
  obtain ⟨-, hh⟩ := hk.strands.bag (List.getElem?_eq_getElem hlt) hx
  rw [hl] at hh
  cases hh

/-- Moving a bag that has no strands moves none. -/
theorem moveBag_of_free {l l' : Loc} (hfree : ∀ x : Nat, bags[x]? ≠ some l) : moveBag l l' bags = bags := by
  apply List.ext_getElem?
  intro x
  ext m
  rw [Serial.getElem?_moveBag]
  constructor
  · rintro (⟨hx, -⟩ | ⟨hx, -⟩)
    · exact absurd hx (hfree x)
    · exact hx
  · intro hx
    refine Or.inr ⟨hx, ?_⟩
    rintro rfl
    exact hfree x hx

/-- `cilk_enter_begin`. -/
theorem linked_call (hl : Linked s got d h) {f : Serial.Frame} {rest : List Serial.Frame}
    (hf : s.frames = f :: rest) : ∃ d', Driver.step ds d .call = some d' ∧ d'.reach = d.reach ∧
      Linked { s with frames := .new .function :: f :: rest } got d' h := by
  obtain ⟨ho, hfr, hnoP, hlen, hfuts, hnoFut⟩ := hl
  rw [hf] at hfr hnoP
  obtain ⟨g, grest, hg⟩ := hfr.exists_cons
  rw [hg] at hfr
  have hnone := hnoP _ (Nat.le_refl _)
  refine ⟨{ d with sstack := ⟨true, ⟨g.data.sbag, none⟩⟩ :: g :: grest }, ?_, rfl, ho, ?_, ?_, hlen, hfuts,
    hnoFut⟩
  · simp [Driver.step, hg, ds, beginStrand]
  · exact ⟨rfl, hfr.2.1, hnone.symm, fun _ => hnone, hfr⟩
  · intro i hi
    exact hnoP i (Nat.le_of_succ_le hi)

/-- `cilk_leave_begin` of a function. -/
theorem linked_ret (hl : Linked s got d h) {f g : Serial.Frame} {rest : List Serial.Frame}
    (hf : s.frames = f :: g :: rest) (hu : f.unsynced = false) :
    ∃ d', Driver.step ds d .ret = some d' ∧ d'.reach = d.reach ∧
      Linked { s with frames := g :: rest } got d' h := by
  obtain ⟨ho, hfr, hnoP, hlen, hfuts, hnoFut⟩ := hl
  rw [hf] at hfr hnoP
  obtain ⟨a, arest, ha⟩ := hfr.exists_cons
  rw [ha] at hfr
  obtain ⟨-, -, -, hnone, hrest⟩ := hfr
  obtain ⟨b, brest, rfl⟩ := hrest.exists_cons
  refine ⟨{ d with sstack := b :: brest }, by simp [Driver.step, ha], rfl, ho, hrest, ?_, hlen, hfuts, hnoFut⟩
  intro i hi
  rcases Nat.eq_or_lt_of_le hi with rfl | hi
  · exact hnone hu
  · exact hnoP i hi

/-- The frames after a fork: the new frame has a bag of its own. -/
theorem framesLinked_fork (hl : Linked s got d h) {f : Serial.Frame} (f' : Serial.Frame) {rest : List Serial.Frame}
    {g : ShadowFrame SframeData} {grest : Frames} (hf : s.frames = f :: rest) (hg : d.sstack = g :: grest)
    (hk : f'.kind = f.kind) (hu : f.unsynced = true → f'.unsynced = true) {kind : Serial.Kind}
    (hkind : kind ≠ .function) (b : Nat) :
    FramesLinked (h.set (.s s.frames.length) (some b)) (.new kind :: f' :: rest)
      (⟨true, ⟨some b, none⟩⟩ :: ⟨!f'.unsynced, g.data⟩ :: grest) := by
  obtain ⟨-, hfr, hnoP, -, -, -⟩ := hl
  have hnone := hnoP _ (Nat.le_refl _)
  rw [hf] at hfr hnone ⊢
  rw [hg] at hfr
  have hs : ∀ i, i < (f :: rest).length → (h.set (.s (f :: rest).length) (some b)) (.s i) = h (.s i) := by
    intro i hi
    have hne : i ≠ (f :: rest).length := Nat.ne_of_lt hi
    simp only [Owner.set, Loc.s.injEq, hne, if_false]
  have hfr' := hfr.congr hs (fun i _ => by simp [Owner.set])
  obtain ⟨-, ⟨c, hc, hsc⟩, hp, hnoPf, hrest⟩ := hfr'
  have htask : taskDepth (.new kind :: f' :: rest) = (f :: rest).length := Serial.taskDepth_of_ne hkind
  refine ⟨rfl, ⟨b, rfl, ?_⟩, ?_, ?_, rfl, ⟨c, hc, ?_⟩, hp, ?_, hrest⟩
  · rw [htask]
    simp [Owner.set]
  · show none = (h.set _ _) (.p (f' :: rest).length)
    simp only [Owner.set, reduceCtorEq, if_false]
    exact hnone.symm
  · intro _
    simp only [Owner.set, reduceCtorEq, if_false]
    exact hnone
  · rw [Serial.taskDepth_of_kind hk]
    exact hsc
  · intro hu'
    apply hnoPf
    cases hfu : f.unsynced with
    | false => rfl
    | true => rw [hu hfu] at hu'; cases hu'

/-- The bags after a fork. -/
theorem Known.fork (hk : Known p s got d h bags strands) :
    Owned (d.reach.new .S).1 (h.set (.s s.frames.length) (some d.reach.size)) ∧
      StrandBags (d.reach.new .S).1 (h.set (.s s.frames.length) (some d.reach.size))
        (bags ++ [.s s.frames.length]) (strands ++ [d.reach.size]) := by
  refine ⟨hk.linked.owned.new (.s s.frames.length), hk.strands.new hk.linked.owned.wf ?_ .S⟩
  intro x hx
  exact absurd (hk.bagsOk.s_lt x _ hx) (Nat.lt_irrefl _)

/-- `cilk_detach_begin`. -/
theorem linked_spawn (hk : Known p s got d h bags strands) {f : Serial.Frame} {rest : List Serial.Frame}
    (hf : s.frames = f :: rest) : ∃ d', Driver.step ds d .spawn = some d' ∧
      d'.reach = (d.reach.new .S).1 ∧
      Linked { s.start [⟨s.cur, .sp⟩] with
        frames := .new (.spawned s.cur) :: { f with unsynced := true } :: rest } got d'
        (h.set (.s s.frames.length) (some d.reach.size)) := by
  have hl := hk.linked
  have hfr := hl.frames
  rw [hf] at hfr
  obtain ⟨g, grest, hg⟩ := hfr.exists_cons
  refine ⟨⟨(d.reach.new .S).1, ⟨true, ⟨some d.reach.size, none⟩⟩ :: ⟨false, g.data⟩ :: grest, d.futs⟩,
    ?_, rfl, hk.fork.1, ?_, ?_, hl.futs_length, ?_, ?_⟩
  · simp [Driver.step, hg, ds, createStrand, Bags.new, Bags.size]
  · exact framesLinked_fork hl { f with unsynced := true } hf hg rfl (fun _ => rfl) (by simp) _
  · intro i hi
    simp only [Owner.set, reduceCtorEq, if_false]
    apply hl.noP
    rw [hf]
    exact Nat.le_of_succ_le hi
  · intro fut fin hfin hgot
    simpa [Owner.set] using hl.futs fut fin hfin hgot
  · intro fut hfut
    simpa [Owner.set] using hl.noFut fut hfut

/-- `cilk_future_create`: the new task is a future, and its number is the next one. -/
theorem linked_create (hk : Known p s got d h bags strands) {f : Serial.Frame} {rest : List Serial.Frame}
    (hf : s.frames = f :: rest) : ∃ d', Driver.step ds d .create = some d' ∧
      d'.reach = (d.reach.new .S).1 ∧
      Linked { s.start [⟨s.cur, .sp⟩] with
        frames := .new (.future s.futures.length s.cur) ::
          { f with unsynced := f.unsynced || rules.createUnsyncs } :: rest
        futures := s.futures ++ [none] } got d' (h.set (.s s.frames.length) (some d.reach.size)) := by
  have hl := hk.linked
  have hfr := hl.frames
  rw [hf] at hfr
  obtain ⟨g, grest, hg⟩ := hfr.exists_cons
  rw [hg] at hfr
  have hold : ∀ (fut : FutId) (fin : Serial.Finished),
      (s.futures ++ [none])[fut]? = some (some fin) ↔ s.futures[fut]? = some (some fin) := by
    intro fut fin
    rcases Nat.lt_trichotomy fut s.futures.length with hlt | rfl | hgt
    · rw [List.getElem?_append_left hlt]
    · simp
    · rw [List.getElem?_eq_none (by simp; omega), List.getElem?_eq_none (Nat.le_of_lt hgt)]
  refine ⟨⟨(d.reach.new .S).1, ⟨true, ⟨some d.reach.size, none⟩⟩ :: g :: grest, d.futs ++ [⟨none⟩]⟩,
    ?_, rfl, hk.fork.1, ?_, ?_, ?_, ?_, ?_⟩
  · simp [Driver.step, hg, ds, createStrand, Bags.new, Bags.size]
  · -- a create alone leaves its frame as synced as it was
    have hsync : (⟨!(f.unsynced || rules.createUnsyncs), g.data⟩ : ShadowFrame SframeData) = g := by
      rw [show rules.createUnsyncs = false from rfl, Bool.or_false, ← hfr.1]
    have hfork := framesLinked_fork hl { f with unsynced := f.unsynced || rules.createUnsyncs } hf hg rfl
      (fun hu => by simp [hu])
      (show Serial.Kind.future s.futures.length s.cur ≠ .function by simp) d.reach.size
    rw [hsync] at hfork
    exact hfork
  · intro i hi
    simp only [Owner.set, reduceCtorEq, if_false]
    apply hl.noP
    rw [hf]
    exact Nat.le_of_succ_le hi
  · simp [hl.futs_length]
  · intro fut fin hfin hgot
    obtain ⟨b, hb, hhb⟩ := hl.futs fut fin ((hold fut fin).mp hfin) hgot
    refine ⟨b, ?_, by simpa [Owner.set] using hhb⟩
    rw [List.getElem?_append_left (List.getElem?_eq_some_iff.mp hb).1]
    exact hb
  · intro fut hfut
    have hnone := hl.noFut fut fun fin hfin => hfut fin ((hold fut fin).mpr hfin)
    simpa [Owner.set] using hnone

/-- The frames below a frame that returns, once its bag has moved elsewhere: they have other depths, and see nothing
    of it. -/
theorem FramesLinked.below {f g : Serial.Frame} {rest : List Serial.Frame} {a : ShadowFrame SframeData}
    {arest : Frames} (hfr : FramesLinked h (f :: g :: rest) (a :: arest)) (l' : Loc) (b : Option Nat)
    (hl' : ∀ i, i < (g :: rest).length → l' ≠ .s i ∧ l' ≠ .p i) :
    FramesLinked ((h.set (.s (g :: rest).length) none).set l' b) (g :: rest) arest := by
  obtain ⟨-, -, -, -, hrest⟩ := hfr
  refine hrest.congr ?_ ?_
  · intro i hi
    have hne : i ≠ (g :: rest).length := Nat.ne_of_lt hi
    simp only [Owner.set, (hl' i hi).1.symm, Loc.s.injEq, hne, if_false]
  · intro i hi
    simp only [Owner.set, (hl' i hi).2.symm, reduceCtorEq, if_false]

/-- `continuation`: the bag of the child goes into the P bag of the parent, or becomes it. -/
theorem continuation_spec {m : Bags} (ho : Owned m h) {f p : SframeData} {l : Loc} {i b : Nat}
    (hf : f.sbag = some b) (hl : h l = some b) (hp : p.pbag = h (.p i)) :
    ∃ m' b', continuation m f p = some (m', { p with pbag := some b' }) ∧ MovedTo m m' b b' .P ∧
      ((h (.p i) = none ∧ b' = b) ∨ h (.p i) = some b') := by
  cases hpi : h (.p i) with
  | none =>
      obtain ⟨m₁, hfind, hm⟩ := (ho.stay hl).find_setKind .P (ho.lt hl) (ho.root hl)
      refine ⟨_, b, ?_, hm, Or.inl ⟨rfl, rfl⟩⟩
      simp [continuation, hf, hp, hpi, hfind]
  | some c =>
      obtain ⟨m', hmerge, hm⟩ := ho.merge hl hpi
      have hroot : m'.rep c = c := by
        rw [hm.rep, ho.root hpi]
        split <;> rfl
      obtain ⟨m₁, hfind, hm₁⟩ := hm.find_setKind .P (ho.lt hpi) hroot
      refine ⟨_, c, ?_, hm₁, Or.inr rfl⟩
      have hpp : p.pbag = some c := hp.trans hpi
      have hpc : { p with pbag := some c } = p := by rw [← hpp]
      simp [continuation, hf, hpp, hmerge, hfind, hpc]

/-- `cilk_leave_begin` of a helper: the bag of the child goes into the P bag of the parent. -/
theorem linked_spawnRet (hk : Known p s got d h bags strands) {f g : Serial.Frame}
    {rest : List Serial.Frame} {fork : Strand} (hf : s.frames = f :: g :: rest)
    (hkind : f.kind = .spawned fork) (hu : f.unsynced = false) :
    ∃ d' h', Driver.step ds d .spawnRet = some d' ∧
      Linked { s.start [⟨fork, .sp⟩] with
        frames := { g with children := ⟨fork, s.cur⟩ :: g.children } :: rest } got d' h' ∧
      StrandBags d'.reach h' (moveBag (.s (g :: rest).length) (.p rest.length) bags) strands := by
  obtain ⟨ho, hfr, hnoP, hlen, hfuts, hnoFut⟩ := hk.linked
  have hparents := hk.stack.parents
  rw [hf] at hfr hnoP hparents
  have hgu : g.unsynced = true := (List.isChain_cons_cons.mp hparents).1 fork hkind
  obtain ⟨a, arest, ha⟩ := hfr.exists_cons
  rw [ha] at hfr
  obtain ⟨-, ⟨b, hb, hsb⟩, -, hnone, hrest⟩ := hfr
  obtain ⟨c, crest, rfl⟩ := hrest.exists_cons
  rw [Serial.taskDepth_of_ne (by rw [hkind]; simp)] at hsb
  obtain ⟨hcsync, ⟨cb, hcb, hcsb⟩, hcp, -, hcrest⟩ := hrest
  obtain ⟨m', b', hcont, hm, hb'⟩ := continuation_spec ho hb hsb hcp
  have hne : Loc.s (g :: rest).length ≠ .p rest.length := by simp
  refine ⟨⟨m', { c with data := { c.data with pbag := some b' } } :: crest, d.futs⟩,
    (h.set (.s (g :: rest).length) none).set (.p rest.length) (some b'), ?_, ?_, ?_⟩
  · simp [Driver.step, ha, ds, hcont]
  · refine ⟨ho.move hne hsb hb' hm, ?_, ?_, hlen, ?_, ?_⟩
    · have htask : ∀ i, i < rest.length → i ≠ (g :: rest).length := by
        intro i hi heq
        rw [heq] at hi
        exact absurd hi (by simp)
      refine ⟨hcsync, ⟨cb, hcb, ?_⟩, ?_, ?_, ?_⟩
      · have hg : taskDepth ({ g with children := ⟨fork, s.cur⟩ :: g.children } :: rest) =
            taskDepth (g :: rest) := Serial.taskDepth_of_kind rfl
        rw [hg]
        have hlt := Nat.ne_of_lt (Serial.taskDepth_lt (show g :: rest ≠ [] by simp))
        simp only [Owner.set, reduceCtorEq, if_false, Loc.s.injEq, hlt]
        exact hcsb
      · simp [Owner.set]
      · intro hu'
        rw [show g.unsynced = false from hu'] at hgu
        cases hgu
      · refine hcrest.congr ?_ ?_
        · intro i hi
          simp only [Owner.set, reduceCtorEq, if_false, Loc.s.injEq, htask i hi]
        · intro i hi
          have hi' : i ≠ rest.length := Nat.ne_of_lt hi
          simp only [Owner.set, reduceCtorEq, if_false, Loc.p.injEq, hi']
    · intro i hi
      have hi' : i ≠ rest.length := Nat.ne_of_gt hi
      simp only [Owner.set, reduceCtorEq, if_false, Loc.p.injEq, hi']
      rcases Nat.eq_or_lt_of_le hi with rfl | hi
      · exact hnone hu
      · exact hnoP i hi
    · intro fut fin hfin hgot
      simpa [Owner.set] using hfuts fut fin hfin hgot
    · intro fut hfut
      simpa [Owner.set] using hnoFut fut hfut
  · exact hk.strands.move ho hne hsb hb' hm

/-- `cilk_future_finish_end`: the bag of the future stays with the future, until that is got. -/
theorem linked_finish (hk : Known p s got d h bags strands) {f g : Serial.Frame}
    {rest : List Serial.Frame} {fut : FutId} {fork : Strand} (hf : s.frames = f :: g :: rest)
    (hkind : f.kind = .future fut fork) (hu : f.unsynced = false) :
    ∃ d' h', Driver.step ds d (.finish fut) = some d' ∧
      Linked { s.start [⟨fork, .sp⟩] with
        frames := { g with created := ⟨fork, s.cur⟩ :: g.created } :: rest
        futures := s.futures.set fut (some ⟨fork, s.cur, s.dag.length⟩) } got d' h' ∧
      StrandBags d'.reach h' (moveBag (.s (g :: rest).length) (.fut fut) bags) strands := by
  obtain ⟨ho, hfr, hnoP, hlen, hfuts, hnoFut⟩ := hk.linked
  rw [hf] at hfr hnoP
  obtain ⟨a, arest, ha⟩ := hfr.exists_cons
  rw [ha] at hfr
  have hbelow := hfr.below (.fut fut)
  obtain ⟨-, ⟨b, hb, hsb⟩, -, hnone, hrest⟩ := hfr
  obtain ⟨c, crest, rfl⟩ := hrest.exists_cons
  rw [Serial.taskDepth_of_ne (by rw [hkind]; simp)] at hsb
  obtain ⟨m₁, hfind, hm⟩ := (ho.stay hsb).find_setKind .P (ho.lt hsb) (ho.root hsb)
  -- the future was running, so it had no bag
  have hrunning : s.futures[fut]? = some none := by
    apply hk.stack.running
    rw [hf, Serial.futIds_cons, hkind]
    simp
  have hfree : h (.fut fut) = none := by
    apply hnoFut
    intro fin hfin
    rw [hrunning] at hfin
    cases hfin
  have hlt : fut < s.futures.length := (List.getElem?_eq_some_iff.mp hrunning).1
  have hdlt : fut < d.futs.length := by
    rw [hlen]
    exact hlt
  have hne : Loc.s (g :: rest).length ≠ .fut fut := by simp
  refine ⟨⟨m₁.setKind b .P, c :: crest, d.futs.set fut ⟨some b⟩⟩,
    (h.set (.s (g :: rest).length) none).set (.fut fut) (some b), ?_, ?_, ?_⟩
  · simp [Driver.step, ha, ds, atFutureFinish, hb, hfind, List.getElem?_eq_getElem hdlt]
  · refine ⟨ho.move hne hsb (Or.inl ⟨hfree, rfl⟩) hm, ?_, ?_, by simp [hlen], ?_, ?_⟩
    · exact hbelow (some b) (fun i _ => by simp)
    · intro i hi
      simp only [Owner.set, reduceCtorEq, if_false]
      rcases Nat.eq_or_lt_of_le hi with rfl | hi
      · exact hnone hu
      · exact hnoP i hi
    · intro fut' fin hfin hgot
      by_cases heq : fut' = fut
      · subst heq
        exact ⟨b, by simp [hdlt], by simp [Owner.set]⟩
      · rw [List.getElem?_set_ne (fun h => heq h.symm)] at hfin ⊢
        simpa [Owner.set, heq] using hfuts fut' fin hfin hgot
    · intro fut' hfut'
      have heq : fut' ≠ fut := by
        rintro rfl
        exact hfut' ⟨fork, s.cur, s.dag.length⟩ (by simp [hlt])
      have hnone' : h (.fut fut') = none := by
        apply hnoFut
        intro fin hfin
        apply hfut' fin
        rw [List.getElem?_set_ne (fun h => heq h.symm)]
        exact hfin
      simpa [Owner.set, heq] using hnone'
  · exact hk.strands.move ho hne hsb (Or.inl ⟨hfree, rfl⟩) hm

/-- `cilk_sync_end`: the P bag of the frame goes into its S bag, when there is one. -/
theorem linked_sync (hk : Known p s got d h bags strands) {f : Serial.Frame} {rest : List Serial.Frame}
    (hf : s.frames = f :: rest) (hu : f.unsynced = true) :
    ∃ d' h', Driver.step ds d .sync = some d' ∧
      Linked { s.start (Serial.syncEdges s.cur f) with frames := .new f.kind :: rest } got d' h' ∧
      StrandBags d'.reach h' (moveBag (.p rest.length) (.s (taskDepth (f :: rest))) bags) strands := by
  obtain ⟨ho, hfr, hnoP, hlen, hfuts, hnoFut⟩ := hk.linked
  rw [hf] at hfr hnoP
  obtain ⟨a, arest, ha⟩ := hfr.exists_cons
  rw [ha] at hfr
  obtain ⟨hsync, ⟨b, hb, hsb⟩, hp, -, hrest⟩ := hfr
  rw [hu] at hsync
  have htask : taskDepth (.new f.kind :: rest) = taskDepth (f :: rest) := Serial.taskDepth_of_kind rfl
  cases hpbag : h (.p rest.length) with
  | none =>
      -- no child has come back: nothing to merge
      rw [hpbag] at hp
      refine ⟨{ d with sstack := ⟨true, a.data⟩ :: arest }, h, ?_, ?_, ?_⟩
      · simp [Driver.step, ha, ds, atSync, hsync, hp]
      · refine ⟨ho, ⟨rfl, ⟨b, hb, ?_⟩, ?_, fun _ => hpbag, hrest⟩, ?_, hlen, hfuts, hnoFut⟩
        · rw [htask]
          exact hsb
        · rw [hpbag]
          exact hp
        · exact hnoP
      · rw [moveBag_of_free (hk.free hpbag)]
        exact hk.strands
  | some c =>
      rw [hpbag] at hp
      obtain ⟨m', hmerge, hm⟩ := ho.merge hpbag hsb
      have hroot : m'.rep b = b := by
        rw [hm.rep, ho.root hsb]
        split <;> rfl
      obtain ⟨m₁, hfind, hm₁⟩ := hm.find_setKind .S (ho.lt hsb) hroot
      have hne : Loc.p rest.length ≠ .s (taskDepth (f :: rest)) := by simp
      have hset : ∀ i, i ≠ taskDepth (f :: rest) →
          ((h.set (.p rest.length) none).set (.s (taskDepth (f :: rest))) (some b)) (.s i) = h (.s i) := by
        intro i hi
        simp only [Owner.set, reduceCtorEq, if_false, Loc.s.injEq, hi]
      refine ⟨⟨m₁.setKind b .S, ⟨true, { a.data with pbag := none }⟩ :: arest, d.futs⟩,
        (h.set (.p rest.length) none).set (.s (taskDepth (f :: rest))) (some b), ?_, ?_, ?_⟩
      · simp [Driver.step, ha, ds, atSync, hsync, hp, hb, hmerge, hfind]
      · refine ⟨ho.move hne hpbag (Or.inr hsb) hm₁, ⟨rfl, ⟨b, hb, ?_⟩, ?_, ?_, ?_⟩, ?_, hlen, ?_, ?_⟩
        · rw [htask]
          simp [Owner.set]
        · simp [Owner.set]
        · intro _
          simp [Owner.set]
        · refine hrest.congr ?_ ?_
          · intro i _
            by_cases hi : i = taskDepth (f :: rest)
            · subst hi
              simp [Owner.set, hsb]
            · exact hset i hi
          · intro i hi
            have hi' : i ≠ rest.length := Nat.ne_of_lt hi
            simp only [Owner.set, reduceCtorEq, if_false, Loc.p.injEq, hi']
        · intro i hi
          have hi' : i ≠ rest.length := Nat.ne_of_gt hi
          simp only [Owner.set, reduceCtorEq, if_false, Loc.p.injEq, hi']
          exact hnoP i hi
        · intro fut fin hfin hgot
          simpa [Owner.set] using hfuts fut fin hfin hgot
        · intro fut hfut
          simpa [Owner.set] using hnoFut fut hfut
      · exact hk.strands.move ho hne hpbag (Or.inr hsb) hm₁

/-- A sync of a synced frame. -/
theorem synced_step (hl : Linked s got d h) {f : Serial.Frame} {rest : List Serial.Frame}
    (hf : s.frames = f :: rest) (hu : f.unsynced = false) : Driver.step ds d .sync = some d := by
  have hfr := hl.frames
  rw [hf] at hfr
  obtain ⟨a, arest, ha⟩ := hfr.exists_cons
  rw [ha] at hfr
  have hsync := hfr.1
  rw [hu] at hsync
  simp [Driver.step, ha, hsync]

/-- `cilk_future_get_end`: the bag of the future goes into the S bag of the current task. -/
theorem linked_get (hk : Known p s got d h bags strands) {fut : FutId} {fin : Serial.Finished}
    (hfin : s.futures[fut]? = some (some fin)) (hgot : fut ∉ got) :
    ∃ d' h', Driver.step ds d (.get fut) = some d' ∧
      Linked (s.start [⟨s.cur, .sp⟩, ⟨fin.last, .get⟩]) (fut :: got) d' h' ∧
      StrandBags d'.reach h' (moveBag (.fut fut) (.s (taskDepth s.frames)) bags) strands := by
  obtain ⟨ho, hfr, hnoP, hlen, hfuts, hnoFut⟩ := hk.linked
  obtain ⟨put, hput, hhput⟩ := hfuts fut fin hfin hgot
  cases hf : s.frames with
  | nil => exact absurd hf hk.stack.nonempty
  | cons f rest =>
      rw [hf] at hfr hnoP
      obtain ⟨a, arest, ha⟩ := hfr.exists_cons
      rw [ha] at hfr
      obtain ⟨b, hb, hsb⟩ := hfr.2.1
      obtain ⟨m', hmerge, hm⟩ := ho.merge hhput hsb
      have hne : Loc.fut fut ≠ .s (taskDepth (f :: rest)) := by simp
      refine ⟨⟨m', a :: arest, d.futs⟩,
        (h.set (.fut fut) none).set (.s (taskDepth (f :: rest))) (some b), ?_, ?_, ?_⟩
      · simp [Driver.step, ha, ds, atFutureGet, hput, hb, hmerge]
      · refine ⟨ho.move hne hhput (Or.inr hsb) hm, ?_, ?_, hlen, ?_, ?_⟩
        · show FramesLinked _ s.frames _
          rw [hf]
          refine FramesLinked.congr ?_ ?_ hfr
          · intro i _
            by_cases hi : i = taskDepth (f :: rest)
            · subst hi
              simp [Owner.set, hsb]
            · simp only [Owner.set, reduceCtorEq, if_false, Loc.s.injEq, hi]
          · intro i _
            simp [Owner.set]
        · intro i hi
          rw [show (s.start _).frames = s.frames from rfl, hf] at hi
          simpa [Owner.set] using hnoP i hi
        · intro fut' fin' hfin' hgot'
          rw [List.mem_cons, not_or] at hgot'
          simpa [Owner.set, hgot'.1] using hfuts fut' fin' hfin' hgot'.2
        · intro fut' hfut'
          have hnone := hnoFut fut' hfut'
          by_cases heq : fut' = fut
          · subst heq
            simp [Owner.set]
          · simpa [Owner.set, heq] using hnone
      · exact hk.strands.move ho hne hhput (Or.inr hsb) hm

/-- What an access of the current strand stores, when the event has started one. -/
def Stranded (s s' : State) (d' : DriverState Bags SframeData SfutData) (strands strands' : List Nat) : Prop :=
  if s.dag.length < s'.dag.length then ∃ u, Driver.active ds d' = some u ∧ strands' = strands ++ [u]
  else strands' = strands

/-- **One event, but for gets**: the callback returns, and the bags are right again. -/
theorem Known.step (mergeGet : Bool) {s' : State} {e : Event} (hk : Known p s got d h bags strands) (hsp : p .sp)
    (hjoin : ¬p .join) (hget : p .get ↔ mergeGet = true) (hstep : Step rules s e s')
    (hne : ∀ fut, e ≠ .get fut) : ∃ d' h' bags' strands', Driver.step ds d e = some d' ∧
      Known p s' got d' h' bags' strands' ∧ Stranded s s' d' strands strands' := by
  have hok := Serial.ok_step hk.ok hstep
  have hst := Serial.stackOk_step hk.stack hstep
  have hbags := Serial.bagsOk_step hk.bagsOk hk.ok hk.stack hsp hjoin hget hstep
    (fun fut he => absurd he (hne fut))
  have hgot : gotAfter mergeGet got e = got := by
    cases e with
    | get fut => exact absurd rfl (hne fut)
    | _ => rfl
  rw [hgot] at hbags
  -- an event that starts a strand, from the callback's lemma
  have hstart : ∀ {d' : DriverState Bags SframeData SfutData} {h' : Owner} {bags' : List Loc},
      Driver.step ds d e = some d' → s.dag.length < s'.dag.length → Linked s' got d' h' →
      StrandBags d'.reach h' bags' strands →
      bagStep mergeGet s bags e = bags' ++ [.s (taskDepth s'.frames)] →
      ∃ d' h' bags' strands', Driver.step ds d e = some d' ∧ Known p s' got d' h' bags' strands' ∧
        Stranded s s' d' strands strands' := by
    intro d' h' bags' hd hlt hl hb hbs
    obtain ⟨u, hu, hsu⟩ := hl.active hst.nonempty
    rw [hbs] at hbags
    refine ⟨d', h', _, strands ++ [u], hd, ⟨hok, hst, hbags, hl, hb.concat hl.owned hsu⟩, ?_⟩
    rw [Stranded, if_pos hlt]
    exact ⟨u, hu, rfl⟩
  -- a fork, which also makes the bag of the new strand
  have hfork : ∀ {d' : DriverState Bags SframeData SfutData}, Driver.step ds d e = some d' →
      d'.reach = (d.reach.new .S).1 → s.dag.length < s'.dag.length →
      Linked s' got d' (h.set (.s s.frames.length) (some d.reach.size)) →
      taskDepth s'.frames = s.frames.length →
      bagStep mergeGet s bags e = bags ++ [.s s.frames.length] →
      ∃ d' h' bags' strands', Driver.step ds d e = some d' ∧ Known p s' got d' h' bags' strands' ∧
        Stranded s s' d' strands strands' := by
    intro d' hd hreach hlt hl htask hbs
    obtain ⟨u, hu, hsu⟩ := hl.active hst.nonempty
    have hself : d.reach.size = u := by
      rw [htask] at hsu
      simpa [Owner.set] using hsu
    rw [hbs] at hbags
    refine ⟨d', _, _, strands ++ [u], hd, ⟨hok, hst, hbags, hl, ?_⟩, ?_⟩
    · rw [hreach, ← hself]
      exact hk.fork.2
    · rw [Stranded, if_pos hlt]
      exact ⟨u, hu, rfl⟩
  cases hstep with
  | @call f rest hf =>
      obtain ⟨d', hd, hreach, hl⟩ := linked_call hk.linked hf
      rw [show bagStep mergeGet s bags .call = bags by simp [bagStep]] at hbags
      refine ⟨d', h, bags, strands, hd, ⟨hok, hst, hbags, hl, ?_⟩, by simp [Stranded]⟩
      rw [hreach]
      exact hk.strands
  | @ret f g rest hf hkind hu =>
      obtain ⟨d', hd, hreach, hl⟩ := linked_ret hk.linked hf hu
      rw [show bagStep mergeGet s bags .ret = bags by simp [bagStep]] at hbags
      refine ⟨d', h, bags, strands, hd, ⟨hok, hst, hbags, hl, ?_⟩, by simp [Stranded]⟩
      rw [hreach]
      exact hk.strands
  | @spawn f rest hf _ =>
      obtain ⟨d', hd, hreach, hl⟩ := linked_spawn hk hf
      refine hfork hd hreach (Ok.start_cur_lt s _) hl ?_ (by simp [bagStep])
      rw [hf]
      exact Serial.taskDepth_of_ne (by simp)
  | @spawnRet f g rest fork hf hkind hu =>
      obtain ⟨d', h', hd, hl, hb⟩ := linked_spawnRet hk hf hkind hu
      refine hstart hd (Ok.start_cur_lt s _) hl hb ?_
      have htask : taskDepth ({ g with children := ⟨fork, s.cur⟩ :: g.children } :: rest) =
          taskDepth (g :: rest) := Serial.taskDepth_of_kind rfl
      rw [htask]
      simp [bagStep, hf]
  | @sync f rest hf _ hu =>
      obtain ⟨d', h', hd, hl, hb⟩ := linked_sync hk hf hu
      refine hstart hd (Ok.start_cur_lt s _) hl hb ?_
      have htask : taskDepth (.new f.kind :: rest) = taskDepth (f :: rest) := Serial.taskDepth_of_kind rfl
      rw [htask]
      simp [bagStep, hf, hu]
  | @synced f rest hf _ hu =>
      exact ⟨d, h, bags, strands, synced_step hk.linked hf hu, hk, by simp [Stranded]⟩
  | @create f rest hf _ =>
      obtain ⟨d', hd, hreach, hl⟩ := linked_create hk hf
      refine hfork hd hreach (Ok.start_cur_lt s _) hl ?_ (by simp [bagStep])
      rw [hf]
      exact Serial.taskDepth_of_ne (by simp)
  | @finish f g rest fut fork hf hkind hu =>
      obtain ⟨d', h', hd, hl, hb⟩ := linked_finish hk hf hkind hu
      refine hstart hd (Ok.start_cur_lt s _) hl hb ?_
      have htask : taskDepth ({ g with created := ⟨fork, s.cur⟩ :: g.created } :: rest) =
          taskDepth (g :: rest) := Serial.taskDepth_of_kind rfl
      rw [htask]
      simp [bagStep, hf]
  | get => exact absurd rfl (hne _)

end Callback

/-! ## Every run

The queries are part of the runs, because `find` shortens paths while it answers. `inv_step` and `inv_query` are the
two cases of the induction; the answer of a query is then `BagsOk.mem_s`, read off the bag that the code finds. -/

/-- The tool beside the program, after any run so far. -/
def Inv (x : Exec Bags SframeData SfutData Nat) (got : List FutId) : Prop :=
  ∃ (h : Owner) (bags : List Loc), Known isDep x.prog got x.tool h bags x.strands

/-- The root strand in a bag of its own. -/
theorem known_init (p : Serial.EdgeKind → Prop) :
    Known p Serial.init [] ⟨(Bags.empty.new .S).1, [⟨true, ⟨some 0, none⟩⟩], []⟩
      (Owner.set (fun _ => none) (.s 0) (some 0)) [.s 0] [0] := by
  have howned : Owned Bags.empty fun _ => none := by
    refine ⟨⟨UF.wf_nil, rfl⟩, ?_, ?_, ?_, ?_⟩ <;> intros <;> contradiction
  have hnil : StrandBags Bags.empty (fun _ => none) [] [] := ⟨rfl, fun hu => by simp at hu⟩
  have hnew := hnil.new (l := .s 0) howned.wf (by simp) .S
  refine ⟨Serial.ok_init, Serial.stackOk_init, Serial.bagsOk_init, ?_, hnew⟩
  refine ⟨howned.new (.s 0), ?_, ?_, rfl, ?_, ?_⟩
  · exact ⟨rfl, ⟨0, rfl, rfl⟩, rfl, fun _ => rfl, trivial⟩
  · intro i _
    rfl
  · intro fut fin hfin
    simp [Serial.init] at hfin
  · intro fut _
    rfl

/-- Before the first event. -/
theorem inv_init : ∃ x, Exec.init ds = some x ∧ x.prog = Serial.init ∧ Inv x [] :=
  ⟨⟨Serial.init, ⟨(Bags.empty.new .S).1, [⟨true, ⟨some 0, none⟩⟩], []⟩, [0]⟩, rfl, rfl, _, _, known_init isDep⟩

/-- A callback that returns, with what is then known. -/
theorem exec_step {x : Exec Bags SframeData SfutData Nat} {got : List FutId} {e : Event} {s' : State}
    {d' : DriverState Bags SframeData SfutData} {h' : Owner} {bags' : List Loc} {strands' : List Nat}
    (hs : Serial.step rules x.prog e = some s') (hd : Driver.step ds x.tool e = some d')
    (hk : Known isDep s' got d' h' bags' strands') (hst : Stranded x.prog s' d' x.strands strands') :
    ∃ x', Exec.step ds rules x e = some x' ∧ x'.prog = s' ∧ Inv x' got := by
  refine ⟨⟨s', d', strands'⟩, ?_, rfl, h', bags', hk⟩
  unfold Stranded at hst
  split at hst
  · rename_i hlt
    obtain ⟨u, hu, rfl⟩ := hst
    simp [Exec.step, hs, hd, hlt, hu]
  · rename_i hlt
    rw [hst]
    simp [Exec.step, hs, hd, hlt]

/-- **One event** keeps the tool and the program together. -/
theorem inv_step {x : Exec Bags SframeData SfutData Nat} {got : List FutId} {e : Event} {s' : State}
    (hx : Inv x got) (hs : Serial.step rules x.prog e = some s')
    (hget : ∀ fut, e = .get fut → StructuredGet x.prog got fut) :
    ∃ x', Exec.step ds rules x e = some x' ∧ x'.prog = s' ∧ Inv x' (gotAfter true got e) := by
  obtain ⟨h, bags, hk⟩ := hx
  have hstep := Step.of_step hs
  by_cases hne : ∀ fut, e ≠ .get fut
  · obtain ⟨d', h', bags', strands', hd, hk', hst⟩ := hk.step true (by decide) (by decide)
      (by simp [isDep]) hstep hne
    have hgot : gotAfter true got e = got := by
      cases e with
      | get fut => exact absurd rfl (hne fut)
      | _ => rfl
    rw [hgot]
    exact exec_step hs hd hk' hst
  · obtain ⟨fut, rfl⟩ : ∃ fut, e = .get fut := by simpa using hne
    have hok := Serial.ok_step hk.ok hstep
    have hst := Serial.stackOk_step hk.stack hstep
    have hbags := Serial.bagsOk_step hk.bagsOk hk.ok hk.stack (p := isDep) (by decide) (by decide)
      (by simp [isDep]) hstep (fun fut he => (hget fut he).getOk hk.ok)
    cases hstep with
    | get hfin =>
        obtain ⟨d', h', hd, hl, hb⟩ := linked_get hk hfin (hget fut rfl).once
        obtain ⟨u, hu, hsu⟩ := hl.active hst.nonempty
        rw [show bagStep true x.prog bags (.get fut) =
          moveBag (.fut fut) (.s (taskDepth x.prog.frames)) bags ++ [.s (taskDepth x.prog.frames)] by
            simp [bagStep]] at hbags
        refine exec_step hs hd ⟨hok, hst, hbags, hl, hb.concat hl.owned hsu⟩ ?_
        rw [Stranded, if_pos (show x.prog.dag.length < (x.prog.start _).dag.length from Ok.start_cur_lt x.prog _)]
        exact ⟨u, hu, rfl⟩

/-- **A query** answers whether there is a path to the current strand, and moves no bag. -/
theorem inv_query {x : Exec Bags SframeData SfutData Nat} {got : List FutId} (hx : Inv x got) {i : Strand}
    (hi : i < x.prog.dag.length) : ∃ x' answer, Exec.query ds x i = some (x', answer) ∧
      x'.prog = x.prog ∧ Inv x' got ∧ (answer = true ↔ x.prog.dag.Reach isDep i x.prog.cur) := by
  obtain ⟨h, bags, hk⟩ := hx
  have hbi : i < bags.length := by
    rw [hk.bagsOk.length]
    exact hi
  have hsi : i < x.strands.length := by
    rw [hk.strands.length]
    exact hbi
  have hu := List.getElem?_eq_getElem hsi
  have hl := List.getElem?_eq_getElem hbi
  obtain ⟨m', hrun, hsame⟩ := hk.strands.precedesNow hk.linked.owned hu hl
  obtain ⟨f, rest, hf⟩ : ∃ f rest, x.tool.sstack = f :: rest := by
    obtain ⟨b, hb, -⟩ := hk.linked.active hk.stack.nonempty
    unfold Driver.active at hb
    cases hst : x.tool.sstack with
    | nil =>
        rw [hst] at hb
        cases hb
    | cons f rest => exact ⟨f, rest, rfl⟩
  refine ⟨{ x with tool := { x.tool with reach := m' } }, decide (kindOf bags[i] = .S), ?_, rfl, ?_, ?_⟩
  · simp [Exec.query, hu, Driver.precedesNow, hf, ds, hrun]
  · have hlk := hk.linked
    exact ⟨h, bags, hk.ok, hk.stack, hk.bagsOk, ⟨hlk.owned.same hsame, hlk.frames, hlk.noP, hlk.futs_length,
      hlk.futs, hlk.noFut⟩, hk.strands.same hsame⟩
  · rw [decide_eq_true_iff, ← hk.bagsOk.mem_s hk.stack i, hl]
    cases bags[i] with
    | s depth => simp [kindOf]
    | p depth => simp [kindOf]
    | fut fut => simp [kindOf]

/-- Every run: by induction, an event at a time. -/
theorem StructuredRun.inv {actions : List Action} {got : List FutId} {s : State}
    (h : StructuredRun actions got s) :
    ∃ x, Exec.run ds rules actions = some x ∧ x.prog = s ∧ Inv x got := by
  induction h with
  | nil =>
      obtain ⟨x, hx, hs, hinv⟩ := inv_init
      exact ⟨x, by simp [Exec.run, hx, Exec.runFrom], hs, hinv⟩
  | event _ hs hget ih =>
      obtain ⟨x, hrun, rfl, hinv⟩ := ih
      obtain ⟨x', hstep, hs', hinv'⟩ := inv_step hinv hs hget
      exact ⟨x', by rw [Exec.run_concat, hrun]; exact hstep, hs', hinv'⟩
  | query _ hi ih =>
      obtain ⟨x, hrun, rfl, hinv⟩ := ih
      obtain ⟨x', answer, hq, hs', hinv', -⟩ := inv_query hinv hi
      exact ⟨x', by rw [Exec.run_concat, hrun]; simp [Exec.act, hq], hs', hinv'⟩

/-- **MultiBags is exact.** After every run with structured futures, whatever was asked on the way, the tool
    answers for each strand so far, and says yes exactly when the strand is the current one or has a path
    to it. -/
theorem structured_exact {actions : List Action} {got : List FutId} {s : State}
    (h : StructuredRun actions got s) : ∃ x, Exec.run ds rules actions = some x ∧ x.prog = s ∧
      ∀ i, i < s.dag.length → ∃ x' answer, Exec.query ds x i = some (x', answer) ∧
        (answer = true ↔ s.dag.Reach isDep i s.cur) := by
  obtain ⟨x, hrun, rfl, hinv⟩ := h.inv
  refine ⟨x, hrun, rfl, ?_⟩
  intro i hi
  obtain ⟨x', answer, hq, -, -, hiff⟩ := inv_query hinv hi
  exact ⟨x', answer, hq, hiff⟩

/-- A future is created, got by its creator, and asked about: the state after that run. -/
def gotOnce : State :=
  ⟨[[], [⟨0, .sp⟩], [⟨0, .sp⟩], [⟨2, .sp⟩, ⟨1, .get⟩]], 3,
    [⟨.function, [], [⟨0, 1⟩], false⟩], [some ⟨0, 1, 2⟩]⟩

/-- There the future precedes the strand after the get. -/
theorem structured_exact_gotOnce : ∃ x,
    Exec.run ds rules [.event .create, .event (.finish 0), .event (.get 0), .query 1] = some x ∧
      x.prog = gotOnce ∧ ∀ i, i < gotOnce.dag.length → ∃ x' answer, Exec.query ds x i = some (x', answer) ∧
        (answer = true ↔ gotOnce.dag.Reach isDep i gotOnce.cur) := by
  have hcreate : StructuredRun [.event .create] [] _ := StructuredRun.nil.event rfl (by simp)
  have hfinish : StructuredRun [.event .create, .event (.finish 0)] [] _ :=
    hcreate.event rfl (by simp)
  have hget : StructuredRun [.event .create, .event (.finish 0), .event (.get 0)] [0] gotOnce := by
    refine hfinish.event (e := .get 0) rfl ?_
    rintro fut ⟨⟩
    refine ⟨by simp, ?_⟩
    rintro fin ⟨⟩
    exact Dag.Reach.refl 2
  exact structured_exact (hget.query (show 1 < gotOnce.dag.length by decide))

end FOrder.Futurerd.Structured
