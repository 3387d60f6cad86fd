import Mathlib.Data.List.Induction
import FOrder.Rdtool.Linked
import FOrder.Rdtool.OrderOk

/-!
# `Rdtool.SpOrder` — the two orders are the fork-join view of the program

`isForkJoin` leaves the gets out and takes a future for a spawned child that its creator's next sync joins. After
every run the two orders agree exactly on the pairs that this dag orders; for a program without futures it is the
computation dag itself.

`OrderOk` is about nodes in two lists and about a relation on strands. Here the relation is the fork-join view, and
the nodes that are pending are read off the stack: `pendings` goes down the frames, and says for the continuation
and for the sync of each which strands are before it. The sync of a frame comes after everything that has run in the
frames above it as well, which is what `acc` collects.

An event moves one frame on and leaves those below alone. `pendings_move` and `pendings_stay` say what this does to
the pending nodes: the strand that starts is before all syncs, and before no continuation. Each event is then one of
the steps of `OrderOk`, and has a lemma `spOk_…`; `spOk_step` puts them together.

Two events in the code are not what the dag suggests. A get starts a strand but no node, so that two strands may
have one node (`NodesGrow`). And a sync of a frame that has nothing to join makes no node either.
-/

namespace FOrder.Serial

/-- The dag as code that knows spawns and syncs only sees it. -/
def isForkJoin (k : EdgeKind) : Prop := k ≠ .get

instance (k : EdgeKind) : Decidable (isForkJoin k) := inferInstanceAs (Decidable (_ ≠ _))

/-- Spawns, continuations and syncs are in the view. -/
theorem isForkJoin_of_isSp (k : EdgeKind) (h : isSp k) : isForkJoin k := by
  rw [show k = .sp from h]
  decide

/-- With `createUnsyncs`, a frame that waits for a fork is unsynced, and a synced one has created nothing. -/
structure GroupsOk (s : State) : Prop where
  parents : s.frames.IsChain fun f g => f.kind ≠ .function → g.unsynced = true
  created : ∀ f ∈ s.frames, f.unsynced = false → f.created = []

/-- Before the first event. -/
theorem groupsOk_init : GroupsOk init where
  parents := List.IsChain.singleton _
  created := by simp [init, Frame.new]

/-- The frames below see the kind of the top frame only. -/
theorem chain_replace {f f' : Frame} {rest : List Frame}
    (h : (f :: rest).IsChain fun f g => f.kind ≠ .function → g.unsynced = true) (hk : f'.kind = f.kind) :
    (f' :: rest).IsChain fun f g => f.kind ≠ .function → g.unsynced = true := by
  cases rest with
  | nil => exact List.IsChain.singleton f'
  | cons g rest =>
      rw [List.isChain_cons_cons] at h ⊢
      rw [hk]
      exact h

/-- It holds after every event: a future unsyncs its creator. -/
theorem groupsOk_step {rules : Rules} (hrules : rules.createUnsyncs = true) {s s' : State} {e : Event}
    (hok : GroupsOk s) (h : Step rules s e s') : GroupsOk s' := by
  obtain ⟨hpar, hcreated⟩ := hok
  -- a frame of the old stack below the top
  have hold : ∀ {f g : Frame} {rest : List Frame}, s.frames = f :: rest → g ∈ rest →
      g.unsynced = false → g.created = [] := fun hf hmem hu =>
    hcreated _ (by rw [hf]; exact List.mem_cons_of_mem _ hmem) hu
  cases h with
  | call hf =>
      rw [hf] at hpar hcreated
      exact ⟨List.isChain_cons_cons.mpr ⟨fun h => absurd rfl h, hpar⟩, by simpa [Frame.new] using hcreated⟩
  | ret hf hk _ =>
      rw [hf] at hpar hcreated
      exact ⟨(List.isChain_cons_cons.mp hpar).2, fun f hmem => hcreated f (List.mem_cons_of_mem _ hmem)⟩
  | spawn hf _ =>
      rw [hf] at hpar
      refine ⟨List.isChain_cons_cons.mpr ⟨fun _ => rfl, chain_replace hpar rfl⟩, ?_⟩
      intro f hmem hu
      rcases List.mem_cons.mp hmem with rfl | hmem
      · rfl
      · rcases List.mem_cons.mp hmem with rfl | hmem
        · cases hu
        · exact hold hf hmem hu
  | @spawnRet f g rest fork hf hk _ =>
      rw [hf] at hpar
      obtain ⟨hg, hpar⟩ := List.isChain_cons_cons.mp hpar
      refine ⟨chain_replace hpar rfl, ?_⟩
      intro f' hmem hu
      rcases List.mem_cons.mp hmem with rfl | hmem
      · exact hcreated g (by rw [hf]; simp) hu
      · exact hold hf (List.mem_cons_of_mem _ hmem) hu
  | sync hf _ _ =>
      rw [hf] at hpar
      refine ⟨chain_replace hpar rfl, ?_⟩
      intro f hmem hu
      rcases List.mem_cons.mp hmem with rfl | hmem
      · rfl
      · exact hold hf hmem hu
  | synced => exact ⟨hpar, hcreated⟩
  | @create f rest hf _ =>
      rw [hf] at hpar
      have hu : (f.unsynced || rules.createUnsyncs) = true := by simp [hrules]
      rw [hu]
      refine ⟨List.isChain_cons_cons.mpr ⟨fun _ => rfl, chain_replace hpar rfl⟩, ?_⟩
      intro f hmem hu
      rcases List.mem_cons.mp hmem with rfl | hmem
      · rfl
      · rcases List.mem_cons.mp hmem with rfl | hmem
        · cases hu
        · exact hold hf hmem hu
  | @finish f g rest fut fork hf hk _ =>
      rw [hf] at hpar
      obtain ⟨hg, hpar⟩ := List.isChain_cons_cons.mp hpar
      have hgu : g.unsynced = true := hg (by simp [hk])
      refine ⟨chain_replace hpar rfl, ?_⟩
      intro f' hmem hu
      rcases List.mem_cons.mp hmem with rfl | hmem
      · rw [show g.unsynced = false from hu] at hgu
        cases hgu
      · exact hold hf (List.mem_cons_of_mem _ hmem) hu
  | get _ => exact ⟨hpar, hcreated⟩

/-- The current strand is the last one started. -/
theorem cur_step {rules : Rules} {s s' : State} {e : Event} (hcur : s.cur + 1 = s.dag.length)
    (h : Step rules s e s') : s'.cur + 1 = s'.dag.length := by
  cases h <;> first
    | exact hcur
    | simp [State.start]

end FOrder.Serial

namespace FOrder.Rdtool

open Serial (State Event FutId Strand Step EdgeKind Ok StackOk GroupsOk FramesOk isForkJoin isDep kind_new)

/-- The strands that a sync of `f` joins, besides those in `acc`: what has run before the last strand of a child,
    or, in this view, of a future that the frame has created. -/
def Joined (d : Dag EdgeKind) (acc : Strand → Prop) (f : Serial.Frame) (x : Strand) : Prop :=
  acc x ∨ ∃ c ∈ f.children ++ f.created, d.Reach isForkJoin x c.last

/-- The pending nodes of the frames, from the top frame at strand `w` down: a frame's continuation comes after
    the strand it waits at, its sync after all that has run in it and in the frames above (`acc`). -/
def pendings (d : Dag EdgeKind) : (Strand → Prop) → Strand → List Serial.Frame → List FrameData → List Pending
  | acc, w, f :: rest, g :: grest =>
      (g.cont.toList.map fun n => ⟨n, false, fun x => d.Reach isForkJoin x w⟩) ++
        ((g.sync.toList.map fun n => ⟨n, true, Joined d acc f⟩) ++
          pendings d (fun x => Joined d acc f x ∨ d.Reach isForkJoin x (f.kind.outer w)) (f.kind.outer w)
            rest grest)
  | _, _, _, _ => []

section Pendings

variable {d : Dag EdgeKind} {es : List (InEdge EdgeKind)}

/-- The last strands of the children are old strands. -/
theorem joined_grown (hd : d.WF) {acc acc' : Strand → Prop} {w : Strand} {f : Serial.Frame}
    {rest : List Serial.Frame} (hfr : FramesOk d w (f :: rest)) (hacc : ∀ x, x < d.length → (acc' x ↔ acc x))
    (x : Strand) (hx : x < d.length) : Joined (d ++ [es]) acc' f x ↔ Joined d acc f x := by
  have hlast : ∀ c ∈ f.children ++ f.created,
      ((d ++ [es]).Reach isForkJoin x c.last ↔ d.Reach isForkJoin x c.last) := by
    intro c hc
    refine Dag.reach_concat_old hd ?_
    rcases List.mem_append.mp hc with hc | hc
    · exact (hfr.1 c hc).lt
    · exact (hfr.2.1 c hc).lt
  unfold Joined
  rw [hacc x hx]
  constructor
  · rintro (h | ⟨c, hc, h⟩)
    · exact Or.inl h
    · exact Or.inr ⟨c, hc, (hlast c hc).mp h⟩
  · rintro (h | ⟨c, hc, h⟩)
    · exact Or.inl h
    · exact Or.inr ⟨c, hc, (hlast c hc).mpr h⟩

/-- A new strand does not come before a continuation that waits at `w`. -/
theorem cont_grown (hd : d.WF) {w : Strand} (hw : w < d.length) (hes : ∀ e ∈ es, e.src < d.length)
    (cont : Option OmNode) : List.Forall₂ (Grown d.length)
      (cont.toList.map fun n => ⟨n, false, fun x => d.Reach isForkJoin x w⟩)
      (cont.toList.map fun n => ⟨n, false, fun x => (d ++ [es]).Reach isForkJoin x w⟩) := by
  cases cont with
  | none => exact .nil
  | some n =>
      refine .cons ⟨rfl, rfl, fun x _ => Dag.reach_concat_old hd hw, ?_⟩ .nil
      constructor
      · intro h
        exact absurd ((Dag.reach_from_new hd hes h (Nat.le_of_lt hw)).symm) (Nat.ne_of_gt hw)
      · intro h
        cases h

/-- A sync joins the new strand. -/
theorem sync_grown {z : Strand} {pre pre' : Strand → Prop} (hpre : ∀ x, x < z → (pre' x ↔ pre x))
    (hnew : pre' z) (sync : Option OmNode) :
    List.Forall₂ (Grown z) (sync.toList.map fun n => ⟨n, true, pre⟩)
      (sync.toList.map fun n => ⟨n, true, pre'⟩) := by
  cases sync with
  | none => exact .nil
  | some n => exact .cons ⟨rfl, rfl, hpre, fun _ => rfl, fun _ => hnew⟩ .nil

/-- The frames that wait below a strand `w` that stays. Their continuations keep the strands before them, and each
    sync joins the new strand as well, since that runs above it. -/
theorem pendings_stay (hd : d.WF) (hes : ∀ e ∈ es, e.src < d.length) {frames : List Serial.Frame} :
    ∀ {gs : List FrameData} {acc acc' : Strand → Prop} {w : Strand}, w < d.length → FramesOk d w frames →
      (∀ x, x < d.length → (acc' x ↔ acc x)) → acc' d.length →
      List.Forall₂ (Grown d.length) (pendings d acc w frames gs) (pendings (d ++ [es]) acc' w frames gs) := by
  induction frames with
  | nil =>
      intro gs acc acc' w _ _ _ _
      exact .nil
  | cons f rest ih =>
      intro gs acc acc' w hw hfr hacc hnew
      cases gs with
      | nil => exact .nil
      | cons g grest =>
          have hout : f.kind.outer w < d.length := Nat.lt_of_le_of_lt (hfr.2.2.1.le hd) hw
          refine List.rel_append (cont_grown hd hw hes g.cont)
            (List.rel_append (sync_grown (joined_grown hd hfr hacc) (Or.inl hnew) g.sync) (ih hout hfr.2.2.2 ?_ (Or.inl (Or.inl hnew))))
          intro x hx
          rw [joined_grown hd hfr hacc x hx, Dag.reach_concat_old hd hout]

/-- What has run above the next frame, after a frame has moved from `w` to the new strand. -/
theorem outer_moved (hd : d.WF) {kind : Serial.Kind} {w x : Strand} (hout : kind.outer w < d.length)
    {joined joined' : Prop} (hjoined : joined' ↔ joined) (hfrom : d.Reach isForkJoin x w → joined)
    (hto : (d ++ [es]).Reach isForkJoin x d.length → joined) :
    (joined' ∨ (d ++ [es]).Reach isForkJoin x (kind.outer d.length)) ↔
      (joined ∨ d.Reach isForkJoin x (kind.outer w)) := by
  rw [hjoined]
  by_cases hk : kind = .function
  · subst hk
    exact ⟨fun h => Or.inl (h.elim id hto), fun h => Or.inl (h.elim id hfrom)⟩
  · rw [Serial.Kind.outer_of_ne hk d.length w, Dag.reach_concat_old hd hout]

/-- The frames of a task that moves from `w` to the new strand, and the frames below it. -/
theorem pendings_move (hd : d.WF) (hes : ∀ e ∈ es, e.src < d.length) {n : Nat} {frames : List Serial.Frame} :
    ∀ {gs : List FrameData} {acc acc' : Strand → Prop} {w : Strand} {kind : Serial.Kind}, w < d.length →
      d.Reach Serial.isSp (kind.outer w) w → FramesOk d (kind.outer w) frames →
      FramesLinked n (decide (kind ≠ .function)) frames gs → (∀ x, x < d.length → (acc' x ↔ acc x)) →
      acc' d.length → (∀ x, x < d.length → d.Reach isForkJoin x w → acc x) →
      (∀ x, x < d.length → (d ++ [es]).Reach isForkJoin x d.length → acc x) →
      List.Forall₂ (Grown d.length) (pendings d acc (kind.outer w) frames gs)
        (pendings (d ++ [es]) acc' (kind.outer d.length) frames gs) := by
  induction frames with
  | nil =>
      intro gs acc acc' w kind _ _ _ _ _ _ _ _
      exact .nil
  | cons f rest ih =>
      intro gs acc acc' w kind hw hout hfr hl hacc hnew hfrom hto
      by_cases hkind : kind = .function
      · subst hkind
        obtain ⟨g, grest, rfl, hg, hgrest⟩ := hl.exists_cons
        have hcont : g.cont = none := by simpa using hg.cont
        show List.Forall₂ _ ((g.cont.toList.map _) ++ _) ((g.cont.toList.map _) ++ _)
        rw [hcont]
        refine List.rel_append (sync_grown (joined_grown hd hfr hacc) (Or.inl hnew) g.sync) ?_
        refine ih hw hfr.2.2.1 hfr.2.2.2 hgrest ?_ (Or.inl (Or.inl hnew))
          (fun x hx hr => Or.inl (Or.inl (hfrom x hx hr))) (fun x hx hr => Or.inl (Or.inl (hto x hx hr)))
        intro x hx
        exact outer_moved hd (Nat.lt_of_le_of_lt (hfr.2.2.1.le hd) hw) (joined_grown hd hfr hacc x hx)
          (fun hr => Or.inl (hfrom x hx hr)) (fun hr => Or.inl (hto x hx hr))
      · rw [Serial.Kind.outer_of_ne hkind d.length w]
        exact pendings_stay hd hes (Nat.lt_of_le_of_lt (hout.le hd) hw) hfr hacc hnew

end Pendings

/-! ## Every run

Each callback is one or two of the steps that `OrderOk` knows, and `Linked` tells what it does to the frames. What is
shown here, event by event, is that the pending nodes of the new stack are the old ones with that step made: a fork
puts the sync of its frame in front, and then the continuation; a frame that ends or syncs takes the one that is in
front. -/

/-- The pending nodes of a state. -/
def pendingNodes (s : State) (t : Tool) : List Pending :=
  pendings s.dag (fun x => s.dag.Reach isForkJoin x s.cur) s.cur s.frames t.stack

/-- The orders of the tool beside the program; `nodes` are the nodes of the strands. -/
structure SpOk (s : State) (t : Tool) (nodes : List OmNode) : Prop where
  ok : Ok s
  stack : StackOk s
  groups : GroupsOk s
  cur : s.cur + 1 = s.dag.length
  linked : Linked s t
  length : nodes.length = s.dag.length
  node : nodes[s.cur]? = some t.current.node
  order : OrderOk t.orders nodes (s.dag.Reach isForkJoin) t.current.node (pendingNodes s t)

section Steps

variable {s s' : State} {t : Tool} {nodes : List OmNode} {es : List (InEdge EdgeKind)}

/-- A strand with in-edges `es` starts. -/
theorem startedAt_concat (hd : s.dag.WF) (hes : ∀ e ∈ es, e.src < s.dag.length) {pre : Strand → Prop}
    (hpre : ∀ x, x < s.dag.length →
      ((∃ e ∈ es, isForkJoin e.kind ∧ s.dag.Reach isForkJoin x e.src) ↔ pre x)) :
    StartedAt (s.dag.Reach isForkJoin) (Dag.Reach (s.dag ++ [es]) isForkJoin) s.dag.length pre where
  old x y _ hy := Dag.reach_concat_old hd hy
  into x hx := by
    rw [Dag.reach_concat_new hd hes, ← hpre x hx]
    simp [Nat.ne_of_lt hx]
  self := Dag.Reach.refl _
  outOf y hy h := absurd (Dag.reach_from_new hd hes h (Nat.le_of_lt hy)) (Nat.ne_of_lt hy)

/-- The new strand's only in-edge of the view comes from `w`. -/
theorem startedAt_single (hd : s.dag.WF) {w : Strand} (hw : w < s.dag.length) :
    StartedAt (s.dag.Reach isForkJoin) (Dag.Reach (s.dag ++ [[⟨w, .sp⟩]]) isForkJoin) s.dag.length
      (fun x => s.dag.Reach isForkJoin x w) := by
  refine startedAt_concat hd (Serial.single_lt hw) ?_
  intro x _
  simp [isForkJoin]

/-- The current strand has no path to another one. -/
theorem SpOk.last (h : SpOk s t nodes) (y : Strand) (hy : y < nodes.length)
    (hr : s.dag.Reach isForkJoin s.cur y) : y = s.cur := by
  have hle := hr.le h.ok.wf
  refine Nat.le_antisymm (Nat.le_of_lt_succ ?_) hle
  rw [Nat.succ_eq_add_one, h.cur, ← h.length]
  exact hy

/-- The frame on top has no continuation. -/
theorem pendingNodes_top (h : SpOk s t nodes) {f : Serial.Frame} {rest : List Serial.Frame}
    (hf : s.frames = f :: rest) {g : FrameData} {grest : List FrameData} (hg : t.stack = g :: grest) :
    pendingNodes s t = (g.sync.toList.map fun n =>
        ⟨n, true, Joined s.dag (fun x => s.dag.Reach isForkJoin x s.cur) f⟩) ++
      pendings s.dag (fun x => Joined s.dag (fun x => s.dag.Reach isForkJoin x s.cur) f x ∨
        s.dag.Reach isForkJoin x (f.kind.outer s.cur)) (f.kind.outer s.cur) rest grest := by
  have hfr := h.linked.frames
  rw [hf, hg] at hfr
  have hcont : g.cont = none := by simpa using hfr.1.cont
  unfold pendingNodes
  rw [hf, hg]
  show (g.cont.toList.map _) ++ _ = _
  rw [hcont]
  rfl

/-- A synced frame joins nothing. -/
theorem joined_synced (h : SpOk s t nodes) {f : Serial.Frame} (hmem : f ∈ s.frames)
    (hu : f.unsynced = false) (acc : Strand → Prop) (x : Strand) : Joined s.dag acc f x ↔ acc x := by
  unfold Joined
  rw [h.stack.synced f hmem hu, h.groups.created f hmem hu]
  simp

/-- The frames below the top one, when it moves on to the new strand. -/
theorem pendings_below (h : SpOk s t nodes) (hes : ∀ e ∈ es, e.src < s.dag.length) {f : Serial.Frame}
    {rest : List Serial.Frame} (hf : s.frames = f :: rest) {g : FrameData} {grest : List FrameData}
    (hg : t.stack = g :: grest) {acc acc' : Strand → Prop}
    (hacc : ∀ x, x < s.dag.length → (acc' x ↔ acc x)) (hnew : acc' s.dag.length)
    (hfrom : ∀ x, x < s.dag.length → s.dag.Reach isForkJoin x s.cur → acc x)
    (hto : ∀ x, x < s.dag.length → Dag.Reach (s.dag ++ [es]) isForkJoin x s.dag.length → acc x) :
    List.Forall₂ (Grown s.dag.length) (pendings s.dag acc (f.kind.outer s.cur) rest grest)
      (pendings (s.dag ++ [es]) acc' (f.kind.outer s.dag.length) rest grest) := by
  have hfr := h.ok.frames
  have hlk := h.linked.frames
  rw [hf] at hfr hlk
  rw [hg] at hlk
  exact pendings_move h.ok.wf hes h.ok.cur_lt hfr.2.2.1 hfr.2.2.2 hlk.2 hacc hnew hfrom hto

/-- A call changes frames only. -/
theorem spOk_call (h : SpOk s t nodes) {f : Serial.Frame} {rest : List Serial.Frame}
    (hf : s.frames = f :: rest) (hs : Step rules s .call { s with frames := .new .function :: f :: rest }) :
    ∃ t', t.step .call = some t' ∧ SpOk { s with frames := .new .function :: f :: rest } t' nodes ∧
      t'.current.node = t.current.node := by
  obtain ⟨g, grest, hg, hstep, hl⟩ := linked_call h.linked hf
  refine ⟨_, hstep, ⟨Serial.ok_step h.ok hs, Serial.stackOk_step h.stack hs,
    Serial.groupsOk_step rfl h.groups hs, h.cur, hl, h.length, h.node, ?_⟩, rfl⟩
  have hsame : pendingNodes { s with frames := .new .function :: f :: rest } (t.called g grest) =
      pendingNodes s t := by
    have hacc : (fun x => Joined s.dag (fun x => s.dag.Reach isForkJoin x s.cur) (.new .function) x ∨
        s.dag.Reach isForkJoin x s.cur) = fun x => s.dag.Reach isForkJoin x s.cur := by
      funext x
      simp [Joined, Serial.Frame.new]
    show pendings s.dag (fun x => Joined s.dag _ (.new .function) x ∨ s.dag.Reach isForkJoin x s.cur) s.cur
      (f :: rest) (g :: grest) = _
    rw [hacc]
    unfold pendingNodes
    rw [hf, hg]
  rw [hsame]
  exact h.order

/-- So does a return: the frame is synced, and has no pending nodes. -/
theorem spOk_ret (h : SpOk s t nodes) {f g : Serial.Frame} {rest : List Serial.Frame}
    (hf : s.frames = f :: g :: rest) (hk : f.kind = .function) (hu : f.unsynced = false)
    (hs : Step rules s .ret { s with frames := g :: rest }) :
    ∃ t', t.step .ret = some t' ∧ SpOk { s with frames := g :: rest } t' nodes ∧
      t'.current.node = t.current.node := by
  obtain ⟨a, b, brest, ha, hstep, hl⟩ := linked_ret h.linked hf hk
  refine ⟨_, hstep, ⟨Serial.ok_step h.ok hs, Serial.stackOk_step h.stack hs,
    Serial.groupsOk_step rfl h.groups hs, h.cur, hl, h.length, h.node, ?_⟩, rfl⟩
  have hsame : pendingNodes { s with frames := g :: rest } (t.returned a b brest) = pendingNodes s t := by
    have hlk := h.linked.frames
    rw [hf, ha] at hlk
    have hsync : a.sync = none := by
      have := hlk.1.sync
      rw [hu] at this
      simpa using this
    have hacc : (fun x => Joined s.dag (fun x => s.dag.Reach isForkJoin x s.cur) f x ∨
        s.dag.Reach isForkJoin x (f.kind.outer s.cur)) = fun x => s.dag.Reach isForkJoin x s.cur := by
      funext x
      rw [joined_synced h (by rw [hf]; simp) hu, hk]
      simp
    rw [pendingNodes_top h hf ha, hsync, hacc, hk]
    rfl
  rw [hsame]
  exact h.order

/-- The spawn group is open: its sync comes first among the pending nodes. -/
theorem order_opened (h : SpOk s t nodes) {f : Serial.Frame} {rest : List Serial.Frame}
    (hf : s.frames = f :: rest) {g : FrameData} {grest : List FrameData} (hg : t.stack = g :: grest) :
    ∃ n, (t.openGroup g t.current.node).2.sync = some n ∧
      OrderOk (t.openGroup g t.current.node).1.orders nodes (s.dag.Reach isForkJoin) t.current.node
        (⟨n, true, Joined s.dag (fun x => s.dag.Reach isForkJoin x s.cur) f⟩ ::
          pendings s.dag (fun x => Joined s.dag (fun x => s.dag.Reach isForkJoin x s.cur) f x ∨
            s.dag.Reach isForkJoin x (f.kind.outer s.cur)) (f.kind.outer s.cur) rest grest) := by
  have horder := h.order
  rw [pendingNodes_top h hf hg] at horder
  have hlk := h.linked.frames
  rw [hf, hg] at hlk
  unfold Tool.openGroup
  cases hsync : g.sync with
  | some n =>
      rw [hsync] at horder
      exact ⟨n, hsync, horder⟩
  | none =>
      have hu : f.unsynced = false := by
        rw [← hlk.1.sync, hsync]
        rfl
      rw [hsync] at horder
      refine ⟨t.orders.fresh, rfl, horder.openGroup h.node h.last ?_⟩
      intro x _
      exact joined_synced h (by rw [hf]; simp) hu _ x

/-- The node of the child is a new one. -/
theorem child_notMem (h : SpOk s t nodes) {f : Serial.Frame} {rest : List Serial.Frame}
    (hf : s.frames = f :: rest) {g : FrameData} {grest : List FrameData} (hg : t.stack = g :: grest) :
    (t.openGroup g t.current.node).1.orders.fresh ∉ nodes := by
  obtain ⟨n, -, horder⟩ := order_opened h hf hg
  exact horder.fresh_notMem

/-- The orders after `do_detach_begin`, which every fork starts with: the group is open, and child and continuation
    are behind the current node, in opposite orders, so that they are parallel. The continuation is pending. -/
theorem order_detached (h : SpOk s t nodes) {f : Serial.Frame} {rest : List Serial.Frame}
    (hf : s.frames = f :: rest) {g : FrameData} {grest : List FrameData} (hg : t.stack = g :: grest)
    {kind : Serial.Kind} (hkind : kind.outer s.dag.length = s.cur) {a b : FrameData}
    (ha : a.cont = none ∧ a.sync = none)
    (hb : b.cont = some ((t.openGroup g t.current.node).1.orders.fresh + 1) ∧
      b.sync = (t.openGroup g t.current.node).2.sync) (unsynced : Bool) :
    OrderOk (t.detached g grest t.current.node).orders
      (nodes ++ [(t.openGroup g t.current.node).1.orders.fresh])
      (Dag.Reach (s.dag ++ [[⟨s.cur, .sp⟩]]) isForkJoin) (t.openGroup g t.current.node).1.orders.fresh
      (pendings (s.dag ++ [[⟨s.cur, .sp⟩]])
        (fun x => Dag.Reach (s.dag ++ [[⟨s.cur, .sp⟩]]) isForkJoin x s.dag.length) s.dag.length
        (.new kind :: { f with unsynced := unsynced } :: rest) (a :: b :: grest)) := by
  obtain ⟨n, hn, horder⟩ := order_opened h hf hg
  have hes := Serial.single_lt h.ok.cur_lt
  have hstart := startedAt_single h.ok.wf h.ok.cur_lt
  have hfr := h.ok.frames
  rw [hf] at hfr
  have hout : f.kind.outer s.cur < s.dag.length := Nat.lt_of_le_of_lt (hfr.2.2.1.le h.ok.wf) h.ok.cur_lt
  -- what has run in the child's frame, or before the fork
  have hacc : ∀ x, x < s.dag.length →
      ((Joined (s.dag ++ [[⟨s.cur, .sp⟩]])
          (fun x => Dag.Reach (s.dag ++ [[⟨s.cur, .sp⟩]]) isForkJoin x s.dag.length) (.new kind) x ∨
        Dag.Reach (s.dag ++ [[⟨s.cur, .sp⟩]]) isForkJoin x s.cur) ↔ s.dag.Reach isForkJoin x s.cur) := by
    intro x hx
    rw [hstart.old x s.cur hx h.ok.cur_lt]
    simp [Joined, Serial.Frame.new, hstart.into x hx]
  have hfr' : FramesOk s.dag s.cur ({ f with unsynced := unsynced } :: rest) := hfr
  have hpend : pendings (s.dag ++ [[⟨s.cur, .sp⟩]])
      (fun x => Dag.Reach (s.dag ++ [[⟨s.cur, .sp⟩]]) isForkJoin x s.dag.length) s.dag.length
      (.new kind :: { f with unsynced := unsynced } :: rest) (a :: b :: grest) =
      pendings (s.dag ++ [[⟨s.cur, .sp⟩]])
        (fun x => Joined (s.dag ++ [[⟨s.cur, .sp⟩]])
            (fun x => Dag.Reach (s.dag ++ [[⟨s.cur, .sp⟩]]) isForkJoin x s.dag.length) (.new kind) x ∨
          Dag.Reach (s.dag ++ [[⟨s.cur, .sp⟩]]) isForkJoin x s.cur) s.cur
        ({ f with unsynced := unsynced } :: rest) (b :: grest) := by
    show (a.cont.toList.map _) ++ ((a.sync.toList.map _) ++ pendings _ _ (kind.outer s.dag.length) _ _) = _
    rw [ha.1, ha.2]
    simp only [kind_new, hkind]
    rfl
  rw [hpend]
  show OrderOk _ _ _ _ ((b.cont.toList.map _) ++ ((b.sync.toList.map _) ++ _))
  rw [hb.1, hb.2, hn]
  rw [← h.length] at hstart
  refine horder.fork h.node h.last hstart ?_ ?_ ?_
  · rw [h.length]
    refine .cons ⟨rfl, rfl, joined_grown h.ok.wf hfr' hacc, ?_⟩ ?_
    · exact ⟨fun _ => rfl, fun _ => Or.inl (Or.inl (Or.inl (Dag.Reach.refl _)))⟩
    · refine pendings_stay h.ok.wf hes hout hfr.2.2.2 ?_ (Or.inl (Or.inl (Or.inl (Or.inl (Dag.Reach.refl _)))))
      intro x hx
      rw [joined_grown h.ok.wf hfr' hacc x hx, Dag.reach_concat_old h.ok.wf hout]
      exact Iff.rfl
  · intro x hx
    rw [h.length] at hx
    exact Dag.reach_concat_old h.ok.wf h.ok.cur_lt
  · rw [h.length]
    exact fun hr => absurd (Dag.reach_from_new h.ok.wf hes hr (Nat.le_of_lt h.ok.cur_lt))
      (Nat.ne_of_lt h.ok.cur_lt)

/-- Only functions spawn, create and sync. -/
theorem function_of_canSpawn {kind : Serial.Kind} (h : rules.canSpawn kind = true) : kind = .function :=
  of_decide_eq_true h

/-- A spawn opens the group of the frame, if it is not open, and forks. The strand that starts has the child's node.
    -/
theorem spOk_spawn (h : SpOk s t nodes) {f : Serial.Frame} {rest : List Serial.Frame}
    (hf : s.frames = f :: rest) (hk : f.kind = .function)
    (hs : Step rules s .spawn { s.start [⟨s.cur, .sp⟩] with
      frames := .new (.spawned s.cur) :: { f with unsynced := true } :: rest }) :
    ∃ t', t.step .spawn = some t' ∧ SpOk { s.start [⟨s.cur, .sp⟩] with
      frames := .new (.spawned s.cur) :: { f with unsynced := true } :: rest } t'
        (nodes ++ [t'.current.node]) ∧ t'.current.node ∉ nodes := by
  obtain ⟨g, grest, hg, hcur, hstep, hl⟩ := linked_spawn h.linked hf hk
  refine ⟨_, hstep, ⟨Serial.ok_step h.ok hs, Serial.stackOk_step h.stack hs,
    Serial.groupsOk_step rfl h.groups hs, Serial.cur_step h.cur hs, hl, ?_, ?_, ?_⟩, child_notMem h hf hg⟩
  · simp [h.length, State.start]
  · show (nodes ++ [_])[s.dag.length]? = _
    rw [← h.length]
    simp
  · exact order_detached (b := { (t.openGroup g t.current.node).2 with
      current := none
      cont := some ((t.openGroup g t.current.node).1.orders.fresh + 1) }) h hf hg rfl ⟨rfl, rfl⟩ ⟨rfl, rfl⟩ true

/-- A future is forked as a spawned child is. -/
theorem spOk_create (h : SpOk s t nodes) {f : Serial.Frame} {rest : List Serial.Frame}
    (hf : s.frames = f :: rest) (hk : f.kind = .function)
    (hs : Step rules s .create { s.start [⟨s.cur, .sp⟩] with
      frames := .new (.future s.futures.length s.cur) ::
        { f with unsynced := f.unsynced || rules.createUnsyncs } :: rest
      futures := s.futures ++ [none] }) :
    ∃ t', t.step .create = some t' ∧ SpOk { s.start [⟨s.cur, .sp⟩] with
      frames := .new (.future s.futures.length s.cur) ::
        { f with unsynced := f.unsynced || rules.createUnsyncs } :: rest
      futures := s.futures ++ [none] } t' (nodes ++ [t'.current.node]) ∧
        t'.current.node ∉ nodes := by
  obtain ⟨g, grest, hg, hcur, kept, hstep, hl⟩ := linked_create h.linked hf hk
  refine ⟨_, hstep, ⟨Serial.ok_step h.ok hs, Serial.stackOk_step h.stack hs,
    Serial.groupsOk_step rfl h.groups hs, Serial.cur_step h.cur hs, hl, ?_, ?_, ?_⟩, child_notMem h hf hg⟩
  · simp [h.length, State.start]
  · show (nodes ++ [_])[s.dag.length]? = _
    rw [← h.length]
    simp
  · refine order_detached (b := if kept then { (t.openGroup g t.current.node).2 with
        current := none
        cont := some ((t.openGroup g t.current.node).1.orders.fresh + 1)
        currentList := (t.detached g grest t.current.node).lists.length }
      else { (t.openGroup g t.current.node).2 with
        current := none
        cont := some ((t.openGroup g t.current.node).1.orders.fresh + 1) }) h hf hg rfl ⟨rfl, rfl⟩ ?_ _
    cases kept with
    | false => exact ⟨rfl, rfl⟩
    | true => exact ⟨rfl, rfl⟩

/-- The orders when the top frame has ended and the frame below goes on at its continuation. The frame that ends is
    synced, so nothing of it is pending, and the continuation is the next pending node. -/
theorem order_continued (h : SpOk s t nodes) {f g : Serial.Frame} {rest : List Serial.Frame}
    (hf : s.frames = f :: g :: rest) (hu : f.unsynced = false) {fork : Strand}
    (hfork : f.kind.outer s.cur = fork) (g' : Serial.Frame) (hgk : g'.kind = g.kind)
    (hgc : ∀ c, c ∈ g'.children ++ g'.created ↔ c = ⟨fork, s.cur⟩ ∨ c ∈ g.children ++ g.created)
    {a b : FrameData} {brest : List FrameData} (ha : t.stack = a :: b :: brest) {n : OmNode}
    (hn : b.cont = some n) (b' : FrameData) (hb' : b'.cont = none ∧ b'.sync = b.sync) :
    OrderOk t.orders (nodes ++ [n]) (Dag.Reach (s.dag ++ [[⟨fork, .sp⟩]]) isForkJoin) n
      (pendings (s.dag ++ [[⟨fork, .sp⟩]])
        (fun x => Dag.Reach (s.dag ++ [[⟨fork, .sp⟩]]) isForkJoin x s.dag.length) s.dag.length
        (g' :: rest) (b' :: brest)) ∧ n ∉ nodes := by
  obtain ⟨hout, hlt, hfr⟩ := h.ok.returning hf
  rw [hfork] at hlt hfr hout
  have hlk := h.linked.frames
  rw [hf, ha] at hlk
  have hsync : a.sync = none := by
    have := hlk.1.sync
    rw [hu] at this
    simpa using this
  have horder := h.order
  rw [pendingNodes_top h hf ha, hsync] at horder
  -- the frame that ended has nothing to join
  have hacc : ∀ x, (Joined s.dag (fun x => s.dag.Reach isForkJoin x s.cur) f x ∨
      s.dag.Reach isForkJoin x (f.kind.outer s.cur)) ↔ s.dag.Reach isForkJoin x s.cur := by
    intro x
    rw [joined_synced h (by rw [hf]; simp) hu, hfork]
    exact ⟨fun hor => hor.elim id fun hr => hr.trans (hout.mono Serial.isForkJoin_of_isSp), Or.inl⟩
  rw [hfork] at horder hacc
  have hcons : OrderOk t.orders nodes (s.dag.Reach isForkJoin) t.current.node
      (⟨n, false, fun x => s.dag.Reach isForkJoin x fork⟩ ::
        ((b.sync.toList.map fun n => ⟨n, true, Joined s.dag (fun x =>
          Joined s.dag (fun x => s.dag.Reach isForkJoin x s.cur) f x ∨ s.dag.Reach isForkJoin x fork) g⟩) ++
        pendings s.dag (fun x => Joined s.dag (fun x =>
          Joined s.dag (fun x => s.dag.Reach isForkJoin x s.cur) f x ∨ s.dag.Reach isForkJoin x fork) g x ∨
            s.dag.Reach isForkJoin x (g.kind.outer fork)) (g.kind.outer fork) rest brest)) := by
    have hshape : pendings s.dag (fun x => Joined s.dag (fun x => s.dag.Reach isForkJoin x s.cur) f x ∨
        s.dag.Reach isForkJoin x fork) fork (g :: rest) (b :: brest) =
        (b.cont.toList.map fun n => ⟨n, false, fun x => s.dag.Reach isForkJoin x fork⟩) ++ _ := rfl
    rw [hshape, hn] at horder
    exact horder
  have hes := Serial.single_lt (s := s) hlt
  have hstart := startedAt_single h.ok.wf hlt
  have hgout : g.kind.outer fork < s.dag.length := Nat.lt_of_le_of_lt (hfr.2.2.1.le h.ok.wf) hlt
  have hnew : Joined (s.dag ++ [[⟨fork, .sp⟩]])
      (fun x => Dag.Reach (s.dag ++ [[⟨fork, .sp⟩]]) isForkJoin x s.dag.length) g' s.dag.length :=
    Or.inl (Dag.Reach.refl _)
  -- the frame's next sync joins the child that has ended
  have hjoined : ∀ x, x < s.dag.length → (Joined (s.dag ++ [[⟨fork, .sp⟩]])
      (fun x => Dag.Reach (s.dag ++ [[⟨fork, .sp⟩]]) isForkJoin x s.dag.length) g' x ↔
      Joined s.dag (fun x => Joined s.dag (fun x => s.dag.Reach isForkJoin x s.cur) f x ∨
        s.dag.Reach isForkJoin x fork) g x) := by
    intro x hx
    have hg : Joined (s.dag ++ [[⟨fork, .sp⟩]])
        (fun x => Dag.Reach (s.dag ++ [[⟨fork, .sp⟩]]) isForkJoin x s.dag.length) g x ↔
        Joined s.dag (fun x => s.dag.Reach isForkJoin x fork) g x :=
      joined_grown h.ok.wf hfr hstart.into x hx
    have hcur : Dag.Reach (s.dag ++ [[⟨fork, .sp⟩]]) isForkJoin x s.cur ↔ s.dag.Reach isForkJoin x s.cur :=
      Dag.reach_concat_old h.ok.wf h.ok.cur_lt
    have hfork : s.dag.Reach isForkJoin x fork → s.dag.Reach isForkJoin x s.cur :=
      fun hr => (hacc x).mp (Or.inr hr)
    have hbefore := hacc x
    unfold Joined at hg hbefore ⊢
    beta_reduce at hg hbefore ⊢
    rw [hbefore]
    simp only [hgc, or_and_right, exists_or, exists_eq_left, hcur]
    rw [or_left_comm, hg, ← or_assoc]
    exact or_congr_left (or_iff_left_of_imp hfork)
  refine ⟨?_, hcons.pending_notMem List.mem_cons_self⟩
  show OrderOk _ _ _ _ ((b'.cont.toList.map _) ++ _)
  rw [hb'.1]
  show OrderOk _ _ _ _ ((b'.sync.toList.map _) ++ _)
  rw [hb'.2, hgk]
  refine hcons.next (h.length.symm ▸ hstart) ?_
  rw [h.length]
  refine List.rel_append (sync_grown hjoined hnew b.sync) ?_
  refine pendings_move h.ok.wf hes hlt hfr.2.2.1 hfr.2.2.2 hlk.2.2 ?_ ?_ ?_ ?_
  · intro x hx
    exact outer_moved h.ok.wf hgout (hjoined x hx) (fun hr => Or.inl (Or.inr hr))
      (fun hr => Or.inl (Or.inr ((hstart.into x hx).mp hr)))
  · exact Or.inl hnew
  · exact fun x _ hr => Or.inl (Or.inl (Or.inr hr))
  · exact fun x hx hr => Or.inl (Or.inl (Or.inr ((hstart.into x hx).mp hr)))

/-- A spawned child comes back, and the continuation of its parent is the next pending node. -/
theorem spOk_spawnRet (h : SpOk s t nodes) {f g : Serial.Frame} {rest : List Serial.Frame} {fork : Strand}
    (hf : s.frames = f :: g :: rest) (hk : f.kind = .spawned fork) (hu : f.unsynced = false)
    (hs : Step rules s .spawnRet { s.start [⟨fork, .sp⟩] with
      frames := { g with children := ⟨fork, s.cur⟩ :: g.children } :: rest }) :
    ∃ t', t.step .spawnRet = some t' ∧ SpOk { s.start [⟨fork, .sp⟩] with
      frames := { g with children := ⟨fork, s.cur⟩ :: g.children } :: rest } t'
        (nodes ++ [t'.current.node]) ∧ t'.current.node ∉ nodes := by
  obtain ⟨a, b, brest, n, ha, hn, hstep, hl⟩ := linked_spawnRet h.linked h.stack hf hk
  have hfork : f.kind.outer s.cur = fork := by rw [hk]; rfl
  obtain ⟨horder, hnew⟩ := order_continued h hf hu hfork { g with children := ⟨fork, s.cur⟩ :: g.children } rfl
    (by
      intro c
      simp only [List.mem_append, List.mem_cons]
      exact or_assoc) ha hn { b with current := some n, cont := none } ⟨rfl, rfl⟩
  refine ⟨_, hstep, ⟨Serial.ok_step h.ok hs, Serial.stackOk_step h.stack hs,
    Serial.groupsOk_step rfl h.groups hs, Serial.cur_step h.cur hs, hl, ?_, ?_, horder⟩, hnew⟩
  · simp [h.length, State.start]
  · show (nodes ++ [_])[s.dag.length]? = _
    rw [← h.length]
    simp

/-- A future finishes. In the view it is a child that has come back. -/
theorem spOk_finish (h : SpOk s t nodes) {f g : Serial.Frame} {rest : List Serial.Frame} {fork : Strand}
    {fut : Serial.FutId} (hf : s.frames = f :: g :: rest) (hk : f.kind = .future fut fork)
    (hu : f.unsynced = false) (hs : Step rules s (.finish fut) { s.start [⟨fork, .sp⟩] with
      frames := { g with created := ⟨fork, s.cur⟩ :: g.created } :: rest
      futures := s.futures.set fut (some ⟨fork, s.cur, s.dag.length⟩) }) :
    ∃ t', t.step (.finish fut) = some t' ∧ SpOk { s.start [⟨fork, .sp⟩] with
      frames := { g with created := ⟨fork, s.cur⟩ :: g.created } :: rest
      futures := s.futures.set fut (some ⟨fork, s.cur, s.dag.length⟩) } t'
        (nodes ++ [t'.current.node]) ∧ t'.current.node ∉ nodes := by
  obtain ⟨a, b, brest, n, ha, hn, hstep, hl⟩ := linked_finish h.linked h.stack hf hk
  have hfork : f.kind.outer s.cur = fork := by rw [hk]; rfl
  obtain ⟨horder, hnew⟩ := order_continued h hf hu hfork { g with created := ⟨fork, s.cur⟩ :: g.created } rfl
    (by
      intro c
      simp only [List.mem_append, List.mem_cons]
      exact or_left_comm) ha hn { b with current := some n, cont := none } ⟨rfl, rfl⟩
  refine ⟨_, hstep, ⟨Serial.ok_step h.ok hs, Serial.stackOk_step h.stack hs,
    Serial.groupsOk_step rfl h.groups hs, Serial.cur_step h.cur hs, hl, ?_, ?_, horder⟩, hnew⟩
  · simp [h.length, State.start]
  · show (nodes ++ [_])[s.dag.length]? = _
    rw [← h.length]
    simp

/-- The edges into the strand after a sync come from all that the sync joins. -/
theorem startedAt_sync (h : SpOk s t nodes) {f : Serial.Frame} {rest : List Serial.Frame}
    (hf : s.frames = f :: rest) :
    StartedAt (s.dag.Reach isForkJoin) (Dag.Reach (s.dag ++ [Serial.syncEdges s.cur f]) isForkJoin)
      s.dag.length (Joined s.dag (fun x => s.dag.Reach isForkJoin x s.cur) f) := by
  refine startedAt_concat h.ok.wf (Serial.syncEdges_lt h.ok hf) ?_
  intro x _
  simp [Serial.syncEdges, Joined, isForkJoin, or_and_right, exists_or]

/-- The sync node of the frame is the next pending node, and all that it joins comes before it. The strands that the
    frame and the frames above it have run are before it by `pendings`, and the edges of the sync come from the last
    ones of these. -/
theorem spOk_sync (h : SpOk s t nodes) {f : Serial.Frame} {rest : List Serial.Frame}
    (hf : s.frames = f :: rest) (hk : f.kind = .function) (hu : f.unsynced = true)
    (hs : Step rules s .sync { s.start (Serial.syncEdges s.cur f) with frames := .new f.kind :: rest }) :
    ∃ t', t.step .sync = some t' ∧
      SpOk { s.start (Serial.syncEdges s.cur f) with frames := .new f.kind :: rest } t'
        (nodes ++ [t'.current.node]) ∧ t'.current.node ∉ nodes := by
  obtain ⟨g, grest, n, hg, hn, hstep, hl⟩ := linked_sync h.linked hf hk hu
  refine ⟨_, hstep, ⟨Serial.ok_step h.ok hs, Serial.stackOk_step h.stack hs,
    Serial.groupsOk_step rfl h.groups hs, Serial.cur_step h.cur hs, hl, ?_, ?_, ?_⟩, ?_⟩
  · simp [h.length, State.start]
  · show (nodes ++ [_])[s.dag.length]? = _
    rw [← h.length]
    simp
  · have hstart := startedAt_sync h hf
    have horder := h.order
    rw [pendingNodes_top h hf hg, hn] at horder
    have hes := Serial.syncEdges_lt h.ok hf
    -- the frame is synced and waits for nothing
    have hnew : ∀ x, Joined (s.dag ++ [Serial.syncEdges s.cur f])
        (fun x => Dag.Reach (s.dag ++ [Serial.syncEdges s.cur f]) isForkJoin x s.dag.length)
        (.new f.kind) x ↔ Dag.Reach (s.dag ++ [Serial.syncEdges s.cur f]) isForkJoin x s.dag.length := by
      intro x
      simp [Joined, Serial.Frame.new]
    have hout : f.kind.outer s.cur < s.dag.length := by
      rw [hk]
      exact h.ok.cur_lt
    have hto : ∀ x, x < s.dag.length →
        Dag.Reach (s.dag ++ [Serial.syncEdges s.cur f]) isForkJoin x s.dag.length →
        Joined s.dag (fun x => s.dag.Reach isForkJoin x s.cur) f x :=
      fun x hx hr => (hstart.into x hx).mp hr
    have hcont : g.cont = none := by
      have hlk := h.linked.frames
      rw [hf, hg] at hlk
      simpa using hlk.1.cont
    refine horder.next (h.length.symm ▸ hstart) ?_
    rw [h.length]
    show List.Forall₂ _ _ ((g.cont.toList.map _) ++ _)
    rw [hcont]
    show List.Forall₂ _
      (pendings s.dag (fun x => Joined s.dag (fun x => s.dag.Reach isForkJoin x s.cur) f x ∨
        s.dag.Reach isForkJoin x (f.kind.outer s.cur)) (f.kind.outer s.cur) rest grest)
      (pendings (s.dag ++ [Serial.syncEdges s.cur f]) (fun x => Joined (s.dag ++ [Serial.syncEdges s.cur f])
          (fun x => Dag.Reach (s.dag ++ [Serial.syncEdges s.cur f]) isForkJoin x s.dag.length)
          (.new f.kind) x ∨
        Dag.Reach (s.dag ++ [Serial.syncEdges s.cur f]) isForkJoin x (f.kind.outer s.dag.length))
        (f.kind.outer s.dag.length) rest grest)
    refine pendings_below h hes hf hg ?_ ?_ ?_ ?_
    · intro x hx
      refine outer_moved h.ok.wf hout ?_ Or.inl (hto x hx)
      rw [hnew]
      exact hstart.into x hx
    · exact Or.inl ((hnew _).mpr (Dag.Reach.refl _))
    · exact fun x _ hr => Or.inl (Or.inl hr)
    · exact fun x hx hr => Or.inl (hto x hx hr)
  · have horder := h.order
    rw [pendingNodes_top h hf hg, hn] at horder
    exact horder.pending_notMem List.mem_cons_self

/-- The strand after a get starts at the node of the strand before it. In this view its only edge is the one from
    there, so the two have the same strands before them. -/
theorem spOk_get (h : SpOk s t nodes) {fut : Serial.FutId} {fin : Serial.Finished} (hne : s.frames ≠ [])
    (hfin : s.futures[fut]? = some (some fin))
    (hs : Step rules s (.get fut) (s.start [⟨s.cur, .sp⟩, ⟨fin.last, .get⟩])) :
    ∃ t', t.step (.get fut) = some t' ∧ SpOk (s.start [⟨s.cur, .sp⟩, ⟨fin.last, .get⟩]) t'
      (nodes ++ [t'.current.node]) := by
  obtain ⟨g, grest, l, hg, -, -, hstep, hl⟩ := linked_get h.linked hne hfin
  refine ⟨_, hstep, Serial.ok_step h.ok hs, Serial.stackOk_step h.stack hs,
    Serial.groupsOk_step rfl h.groups hs, Serial.cur_step h.cur hs, hl, ?_, ?_, ?_⟩
  · simp [h.length, State.start]
  · show (nodes ++ [_])[s.dag.length]? = _
    rw [← h.length]
    simp
  · have hes : ∀ e ∈ ([⟨s.cur, .sp⟩, ⟨fin.last, .get⟩] : List (InEdge EdgeKind)), e.src < s.dag.length := by
      simp [h.ok.cur_lt, (h.ok.futures fut fin hfin).last_lt]
    have hstart : StartedAt (s.dag.Reach isForkJoin)
        (Dag.Reach (s.dag ++ [[⟨s.cur, .sp⟩, ⟨fin.last, .get⟩]]) isForkJoin) s.dag.length
        (fun x => s.dag.Reach isForkJoin x s.cur) := by
      refine startedAt_concat h.ok.wf hes ?_
      intro x _
      simp [isForkJoin]
    refine h.order.again h.node h.last (h.length.symm ▸ hstart) ?_
    rw [h.length]
    obtain ⟨f, rest, hf⟩ := List.exists_cons_of_ne_nil hne
    have hfr := h.ok.frames
    have hlk := h.linked.frames
    unfold pendingNodes
    show List.Forall₂ _ _ (pendings _ _ _ s.frames _)
    rw [hg] at hlk ⊢
    rw [hf] at hfr hlk ⊢
    show List.Forall₂ _ (pendings s.dag _ (Serial.Kind.outer .function s.cur) (f :: rest) (g :: grest))
      (pendings (s.dag ++ [_]) _ (Serial.Kind.outer .function s.dag.length) (f :: rest) (g :: grest))
    exact pendings_move h.ok.wf hes h.ok.cur_lt (Dag.Reach.refl _) hfr hlk hstart.into (Dag.Reach.refl _)
      (fun _ _ hr => hr) (fun x hx hr => (hstart.into x hx).mp hr)

/-- The nodes after an event: a strand that starts has a new one, unless it starts with a get. -/
def NodesGrow (e : Event) (nodes nodes' : List OmNode) : Prop :=
  nodes' = nodes ∨ ∃ n, nodes' = nodes ++ [n] ∧ (n ∉ nodes ∨ ∃ fut, e = .get fut)

/-- Nodes are added at the end. -/
theorem NodesGrow.isPrefix {e : Event} {nodes nodes' : List OmNode} (h : NodesGrow e nodes nodes') :
    nodes <+: nodes' := by
  rcases h with rfl | ⟨n, rfl, -⟩
  · exact List.prefix_rfl
  · exact List.prefix_append _ _

/-- Without gets every strand has a node of its own. -/
theorem NodesGrow.nodup {e : Event} {nodes nodes' : List OmNode} (h : NodesGrow e nodes nodes')
    (hget : ∀ fut, e ≠ .get fut) (hnodup : nodes.Nodup) : nodes'.Nodup := by
  rcases h with rfl | ⟨n, rfl, hn | ⟨fut, he⟩⟩
  · exact hnodup
  · refine List.nodup_append.mpr ⟨hnodup, List.nodup_singleton n, ?_⟩
    rintro x hx y hy rfl
    exact hn (List.mem_singleton.mp hy ▸ hx)
  · exact absurd he (hget fut)

/-- **One event**: the tool follows the program, and only a get starts a strand at an old node. By cases on the
    event, with the callback's effect from `Linked`. -/
theorem spOk_step (h : SpOk s t nodes) {e : Event} (hs : Step rules s e s') : ∃ t' nodes',
    t.step e = some t' ∧ SpOk s' t' nodes' ∧ NodesGrow e nodes nodes' := by
  cases hs with
  | call hf =>
      obtain ⟨t', hstep, hok, -⟩ := spOk_call h hf (.call hf)
      exact ⟨t', nodes, hstep, hok, Or.inl rfl⟩
  | ret hf hk hu =>
      obtain ⟨t', hstep, hok, -⟩ := spOk_ret h hf hk hu (.ret hf hk hu)
      exact ⟨t', nodes, hstep, hok, Or.inl rfl⟩
  | spawn hf hk =>
      obtain ⟨t', hstep, hok, hn⟩ := spOk_spawn h hf (function_of_canSpawn hk) (.spawn hf hk)
      exact ⟨t', _, hstep, hok, Or.inr ⟨_, rfl, Or.inl hn⟩⟩
  | spawnRet hf hk hu =>
      obtain ⟨t', hstep, hok, hn⟩ := spOk_spawnRet h hf hk hu (.spawnRet hf hk hu)
      exact ⟨t', _, hstep, hok, Or.inr ⟨_, rfl, Or.inl hn⟩⟩
  | sync hf hk hu =>
      obtain ⟨t', hstep, hok, hn⟩ := spOk_sync h hf (function_of_canSpawn hk) hu (.sync hf hk hu)
      exact ⟨t', _, hstep, hok, Or.inr ⟨_, rfl, Or.inl hn⟩⟩
  | synced hf hk hu =>
      exact ⟨t, nodes, linked_synced h.linked hf (function_of_canSpawn hk) hu, h, Or.inl rfl⟩
  | create hf hk =>
      obtain ⟨t', hstep, hok, hn⟩ := spOk_create h hf (function_of_canSpawn hk) (.create hf hk)
      exact ⟨t', _, hstep, hok, Or.inr ⟨_, rfl, Or.inl hn⟩⟩
  | finish hf hk hu =>
      obtain ⟨t', hstep, hok, hn⟩ := spOk_finish h hf hk hu (.finish hf hk hu)
      exact ⟨t', _, hstep, hok, Or.inr ⟨_, rfl, Or.inl hn⟩⟩
  | @get fut fin hfin =>
      obtain ⟨t', hstep, hok⟩ := spOk_get h h.stack.nonempty hfin (.get hfin)
      exact ⟨t', _, hstep, hok, Or.inr ⟨_, rfl, Or.inr ⟨fut, rfl⟩⟩⟩

end Steps

/-! ## The initial state, and runs

The tool and the program start with one strand each. `ExecOk` adds what was remembered on the way: each `Current` that
was noted has the node of its strand, now and later, since nodes are only ever added. -/

/-- Before the first event one frame stands beside one frame. -/
theorem linked_init : Linked Serial.init .init where
  frames := ⟨⟨rfl, rfl, rfl, rfl, rfl, rfl, Nat.zero_lt_one, by rintro l ⟨⟩⟩, trivial⟩
  current := by
    rintro g grest ⟨rfl, rfl⟩
    exact ⟨rfl, rfl, rfl⟩
  nextFutureId := rfl
  handles_length := rfl
  handles := by simp [Serial.init]

/-- And one node is in both orders. -/
theorem spOk_init : SpOk Serial.init .init [0] := by
  have hzero : ∀ {x n : Nat}, ([0] : List OmNode)[x]? = some n → x = 0 ∧ n = 0 := by
    intro x n hx
    obtain ⟨hlt, rfl⟩ := List.getElem?_eq_some_iff.mp hx
    obtain rfl := Nat.lt_one_iff.mp hlt
    exact ⟨rfl, rfl⟩
  have hwf : Orders.WF ⟨[0], [0]⟩ := by
    refine ⟨⟨List.nodup_singleton 0, List.nodup_singleton 0, fun _ => Iff.rfl⟩, ?_⟩
    intro n
    show n ∈ [0] ↔ n < 1
    simp
  refine ⟨Serial.ok_init, Serial.stackOk_init, Serial.groupsOk_init, rfl, linked_init, rfl, rfl, hwf, ?_, ?_, ?_,
    ?_, ?_, ?_, .nil⟩
  · intro x n hx
    obtain ⟨rfl, rfl⟩ := hzero hx
    exact Nat.zero_lt_one
  · intro x y n m hx hy
    obtain ⟨rfl, rfl⟩ := hzero hx
    obtain ⟨rfl, rfl⟩ := hzero hy
    exact ⟨fun hb => absurd hb (not_both_self hwf.twin), fun h => absurd rfl h.2⟩
  · intro x y n hx hy _
    obtain ⟨rfl, rfl⟩ := hzero hx
    obtain ⟨rfl, -⟩ := hzero hy
    exact Dag.Reach.refl 0
  · rintro q ⟨⟩
  · rintro q ⟨⟩
  · rintro q ⟨⟩

/-- The tool beside the program after a run. -/
structure ExecOk (x : Exec) (nodes : List OmNode) : Prop where
  sp : SpOk x.prog x.tool nodes
  past : ∀ q ∈ x.past, nodes[q.1]? = some q.2.node

/-- An event, with the queries about it that were remembered: what was remembered has its strand's node for good. -/
theorem execOk_step {x : Exec} {s' : State} {e : Event} {nodes : List OmNode} (h : ExecOk x nodes)
    (hs : Serial.step rules x.prog e = some s') : ∃ x' nodes', x.step e = some x' ∧ x'.prog = s' ∧
      ExecOk x' nodes' ∧ ((∀ fut, e ≠ .get fut) → nodes.Nodup → nodes'.Nodup) := by
  obtain ⟨t', nodes', hstep, hsp, hgrow⟩ := spOk_step h.sp (Step.of_step hs)
  have hpre := hgrow.isPrefix
  refine ⟨⟨s', t', x.past ++ [(s'.cur, t'.current)]⟩, nodes', ?_, rfl, ⟨hsp, ?_⟩, hgrow.nodup⟩
  · simp [Exec.step, hs, hstep]
  · intro q hq
    rcases List.mem_append.mp hq with hq | hq
    · have hold := h.past q hq
      obtain ⟨more, rfl⟩ := hpre
      rw [List.getElem?_append_left (lt_length_of_getElem? hold), hold]
    · rw [List.mem_singleton.mp hq]
      exact hsp.node

/-- Before the first event nothing was remembered. -/
theorem execOk_init : ExecOk .init [0] := by
  refine ⟨spOk_init, ?_⟩
  intro q hq
  rw [List.mem_singleton.mp hq]
  rfl

/-- **Every run of a program is followed by the tool**, and the orders are right after it. -/
theorem execOk_run {es : List Event} {s : State} (h : Serial.run rules Serial.init es = some s) :
    ∃ x nodes, Exec.run es = some x ∧ x.prog = s ∧ ExecOk x nodes ∧
      ((∀ fut, .get fut ∉ es) → nodes.Nodup) := by
  induction es using List.reverseRecOn generalizing s with
  | nil =>
      cases h
      exact ⟨.init, [0], rfl, rfl, execOk_init, fun _ => List.nodup_singleton 0⟩
  | append_singleton es e ih =>
      obtain ⟨s₁, hrun, hlast⟩ := Serial.run_append.mp h
      obtain ⟨s₂, hs, hnil⟩ := Option.bind_eq_some_iff.mp hlast
      cases hnil
      obtain ⟨x, nodes, hx, rfl, hok, hnodup⟩ := ih hrun
      obtain ⟨x', nodes', hstep, hprog, hok', hnodup'⟩ := execOk_step hok hs
      refine ⟨x', nodes', by rw [Exec.run_concat, hx]; exact hstep, hprog, hok', ?_⟩
      intro hget
      refine hnodup' ?_ (hnodup ?_)
      · rintro fut rfl
        exact hget fut (by simp)
      · exact fun fut hmem => hget fut (List.mem_append_left _ hmem)

/-! ## Programs without futures

Where there are no futures the fork-join view leaves nothing out and adds nothing, so what has been proved of the view
is about the computation dag. There are no gets either, so every strand has a node of its own. -/

/-- The event has nothing to do with futures. -/
def isForkJoinEvent : Event → Prop
  | .create => False
  | .finish _ => False
  | .get _ => False
  | _ => True

/-- Without futures every edge belongs to the fork-join view, and the other way round. -/
structure NoFutures (s : State) : Prop where
  edges : ∀ {x y : Strand}, s.dag.Edge isForkJoin x y ↔ s.dag.Edge isDep x y
  created : ∀ f ∈ s.frames, f.created = []

/-- There are no edges at first. -/
theorem noFutures_init : NoFutures Serial.init where
  edges := by
    rintro x y
    have hnone : ∀ {p : EdgeKind → Prop}, ¬Serial.init.dag.Edge p x y := by
      rintro p ⟨es, hes, e, he, -⟩
      obtain ⟨hlt, rfl⟩ := List.getElem?_eq_some_iff.mp hes
      obtain rfl := Nat.lt_one_iff.mp hlt
      cases he
    exact ⟨fun h => absurd h hnone, fun h => absurd h hnone⟩
  created := by simp [Serial.init, Serial.Frame.new]

/-- Edges of spawns and syncs are in both. -/
theorem edges_concat {d : Dag EdgeKind} {es : List (InEdge EdgeKind)} (hes : ∀ e ∈ es, e.kind = .sp)
    (h : ∀ {x y : Strand}, d.Edge isForkJoin x y ↔ d.Edge isDep x y) {x y : Strand} :
    (d ++ [es]).Edge isForkJoin x y ↔ (d ++ [es]).Edge isDep x y := by
  rw [Dag.edge_concat, Dag.edge_concat, h]
  refine or_congr_right (and_congr_right fun _ => exists_congr fun e => and_congr_right fun he => ?_)
  rw [hes e he]
  simp [isForkJoin, isDep]

/-- No event but those of futures adds another edge. -/
theorem noFutures_step {s s' : State} {e : Event} (h : NoFutures s) (he : isForkJoinEvent e)
    (hs : Step rules s e s') : NoFutures s' := by
  obtain ⟨hedges, hcreated⟩ := h
  have hsingle : ∀ {w : Strand}, ∀ e ∈ ([⟨w, .sp⟩] : List (InEdge EdgeKind)), e.kind = .sp := by simp
  cases hs with
  | call hf =>
      rw [hf] at hcreated
      exact ⟨hedges, List.forall_mem_cons.mpr ⟨rfl, hcreated⟩⟩
  | ret hf _ _ =>
      rw [hf] at hcreated
      exact ⟨hedges, (List.forall_mem_cons.mp hcreated).2⟩
  | spawn hf _ =>
      rw [hf] at hcreated
      obtain ⟨htop, hrest⟩ := List.forall_mem_cons.mp hcreated
      exact ⟨edges_concat hsingle hedges,
        List.forall_mem_cons.mpr ⟨rfl, List.forall_mem_cons.mpr ⟨htop, hrest⟩⟩⟩
  | spawnRet hf _ _ =>
      rw [hf] at hcreated
      obtain ⟨htop, hrest⟩ := List.forall_mem_cons.mp (List.forall_mem_cons.mp hcreated).2
      exact ⟨edges_concat hsingle hedges, List.forall_mem_cons.mpr ⟨htop, hrest⟩⟩
  | sync hf _ _ =>
      rw [hf] at hcreated
      obtain ⟨htop, hrest⟩ := List.forall_mem_cons.mp hcreated
      refine ⟨edges_concat ?_ hedges, List.forall_mem_cons.mpr ⟨rfl, hrest⟩⟩
      simp [Serial.syncEdges, htop]
  | synced => exact ⟨hedges, hcreated⟩
  | create => exact he.elim
  | finish => exact he.elim
  | get => exact he.elim

/-- So there is none after any run. -/
theorem noFutures_run {es : List Event} (hes : ∀ e ∈ es, isForkJoinEvent e) :
    ∀ {s s' : State}, NoFutures s → Serial.run rules s es = some s' → NoFutures s' := by
  induction es with
  | nil =>
      intro s s' h hrun
      cases hrun
      exact h
  | cons e es ih =>
      intro s s' h hrun
      obtain ⟨u, hu, hrest⟩ := Option.bind_eq_some_iff.mp hrun
      obtain ⟨he, hes⟩ := List.forall_mem_cons.mp hes
      exact ih hes (noFutures_step h he (Step.of_step hu)) hrest

/-- **SP-order is exact for fork-join code.** The tool follows every run without futures; one strand's node is
    before another's in both orders exactly when the dag has a path from the one strand to the other, and the
    orders disagree exactly on the parallel strands. -/
theorem sp_order_exact {es : List Event} {s : State} (hes : ∀ e ∈ es, isForkJoinEvent e)
    (h : Serial.run rules Serial.init es = some s) : ∃ x, Exec.run es = some x ∧ x.prog = s ∧
      ∀ a ∈ x.past, ∀ b ∈ x.past,
        (x.tool.precE a.2.node b.2.node = true ∧ x.tool.precH a.2.node b.2.node = true ↔
          s.dag.Path isDep a.1 b.1) ∧
        ((x.tool.precE a.2.node b.2.node = true ∧ x.tool.precH b.2.node a.2.node = true) ∨
          (x.tool.precE b.2.node a.2.node = true ∧ x.tool.precH a.2.node b.2.node = true) ↔
          s.dag.Parallel isDep a.1 b.1) := by
  obtain ⟨x, nodes, hx, rfl, hok, hnodup⟩ := execOk_run h
  have hno := noFutures_run hes noFutures_init h
  have horder := hok.sp.order
  have htwin := horder.wf.twin
  refine ⟨x, hx, rfl, ?_⟩
  rintro ⟨i, a⟩ ha ⟨j, b⟩ hb
  have hi := hok.past _ ha
  have hj := hok.past _ hb
  -- distinct strands have distinct nodes
  have hne : a.node ≠ b.node ↔ i ≠ j := by
    refine not_congr ⟨?_, ?_⟩
    · intro heq
      rw [← heq] at hj
      have hget : nodes.Nodup := hnodup fun fut hmem => hes _ hmem
      exact (List.getElem?_inj (lt_length_of_getElem? hi) hget).mp (hi.trans hj.symm)
    · rintro rfl
      exact Option.some.inj (hi.symm.trans hj)
  have hpath : ∀ {i j : Strand} {a b : OmNode}, nodes[i]? = some a → nodes[j]? = some b →
      (a ≠ b ↔ i ≠ j) → (x.tool.orders.both a b ↔ x.prog.dag.Path isDep i j) := by
    intro i j a b hi hj hne
    have hreach : x.prog.dag.Reach isForkJoin = x.prog.dag.Reach isDep := by
      unfold Dag.Reach
      congr 1
      funext u v
      exact propext hno.edges
    rw [horder.exec hi hj, hne, hreach, Dag.path_iff hok.sp.ok.wf]
  have hab := hpath hi hj hne
  have hba := hpath hj hi (by rw [ne_comm, hne, ne_comm])
  unfold Tool.precE Tool.precH
  simp only [decide_eq_true_eq]
  refine ⟨hab, ?_⟩
  unfold Dag.Parallel
  rw [← hab, ← hba]
  by_cases hij : i = j
  · have heq : a.node = b.node := by
      by_contra hn
      exact hne.mp hn hij
    rw [heq]
    constructor
    · rintro (⟨h, -⟩ | ⟨h, -⟩)
      · exact absurd h (not_before_self htwin.nodupE)
      · exact absurd h (not_before_self htwin.nodupE)
    · exact fun h => absurd hij h.1
  · rw [and_iff_right hij]
    exact disagree_iff htwin ((horder.wf.mem _).mpr (horder.lt hi)) ((horder.wf.mem _).mpr (horder.lt hj))
      (hne.mpr hij)

/-- The root spawns a function and syncs. -/
def spawnedOnce : State :=
  ⟨[[], [⟨0, .sp⟩], [⟨0, .sp⟩], [⟨2, .sp⟩, ⟨1, .sp⟩]], 3, [.new .function], []⟩

/-- There the child and the continuation are parallel, and the strand after the sync comes last. -/
theorem sp_order_exact_spawnedOnce : ∃ x,
    Exec.run [.spawn, .call, .ret, .spawnRet, .sync] = some x ∧ x.prog = spawnedOnce ∧
      ∀ a ∈ x.past, ∀ b ∈ x.past,
        (x.tool.precE a.2.node b.2.node = true ∧ x.tool.precH a.2.node b.2.node = true ↔
          spawnedOnce.dag.Path isDep a.1 b.1) ∧
        ((x.tool.precE a.2.node b.2.node = true ∧ x.tool.precH b.2.node a.2.node = true) ∨
          (x.tool.precE b.2.node a.2.node = true ∧ x.tool.precH a.2.node b.2.node = true) ↔
          spawnedOnce.dag.Parallel isDep a.1 b.1) :=
  sp_order_exact (by simp [isForkJoinEvent]) rfl

end FOrder.Rdtool
