import FOrder.Serial.Machine

/-!
# `Serial.Facts` — what holds in every state of a serial run

Edges go forward, the strand that forked a frame has a path to whatever the frame runs, and finished children and
futures hang off an earlier strand of their parent.

These are the facts about programs that all three detectors use; they do not depend on which of the rules a detector
has. `Ok` is about strands and paths, `StackOk` about the frames and the futures. Both hold at the start and after
every step (`ok_step`, `stackOk_step`): the first needs of each event only that a new strand has its edges from
earlier ones, and which frames are left.
-/

namespace FOrder.Serial

/-- The strand the frames below are waiting at, when this frame's strand is `w`. -/
def Kind.outer (k : Kind) (w : Strand) : Strand :=
  match k with
  | .function => w
  | .spawned fork => fork
  | .future _ fork => fork

@[simp] theorem outer_function (w : Strand) : Kind.outer .function w = w := rfl
@[simp] theorem outer_spawned (fork w : Strand) : Kind.outer (.spawned fork) w = fork := rfl
@[simp] theorem outer_future (fut : FutId) (fork w : Strand) :
    Kind.outer (.future fut fork) w = fork := rfl

/-- A forked frame does not move its parent. -/
theorem Kind.outer_of_ne {k : Kind} (hk : k ≠ .function) (w w' : Strand) : k.outer w = k.outer w' := by
  cases k with
  | function => exact absurd rfl hk
  | spawned _ => rfl
  | future _ _ => rfl

/-- A finished child or future of a frame that has come to strand `w`. -/
structure ChildOk (d : Dag EdgeKind) (w : Strand) (c : Child) : Prop where
  fork : d.Reach isSp c.fork w
  last : d.Reach isSp c.fork c.last
  lt : c.last < d.length

/-- The frames of the stack, the top one at strand `w`. -/
def FramesOk (d : Dag EdgeKind) : Strand → List Frame → Prop
  | _, [] => True
  | w, f :: rest =>
      (∀ c ∈ f.children, ChildOk d w c) ∧ (∀ c ∈ f.created, ChildOk d w c) ∧
        d.Reach isSp (f.kind.outer w) w ∧ FramesOk d (f.kind.outer w) rest

/-- A future that has finished: its last strand and the continuation of its create come after its fork. -/
structure FinishedOk (d : Dag EdgeKind) (fin : Finished) : Prop where
  last : d.Reach isSp fin.fork fin.last
  cont : d.Reach isSp fin.fork fin.cont
  last_lt : fin.last < d.length
  cont_lt : fin.cont < d.length

/-- The dag, the current strand, the frames and the finished futures. -/
structure Ok (s : State) : Prop where
  wf : s.dag.WF
  cur_lt : s.cur < s.dag.length
  frames : FramesOk s.dag s.cur s.frames
  futures : ∀ (fut : FutId) (fin : Finished), s.futures[fut]? = some (some fin) → FinishedOk s.dag fin

/-! ## One strand more

The new strand is the last one of the dag, so paths between old strands stay as they are, and facts about children,
futures and frames go over to the larger dag. Only the top frame moves on. -/

section Extend

variable {d : Dag EdgeKind} {es : List (InEdge EdgeKind)}

/-- Paths survive the start of a strand. -/
theorem reach_start {p : EdgeKind → Prop} (hd : d.WF) {x y : Strand} (hy : y < d.length)
    (h : d.Reach p x y) : (d ++ [es]).Reach p x y :=
  (Dag.reach_concat_old hd hy).mpr h

/-- The new strand comes after the sources of its `sp` edges. -/
theorem reach_new_of_sp (hd : d.WF) (hes : ∀ e ∈ es, e.src < d.length) {x : Strand}
    (he : (⟨x, .sp⟩ : InEdge EdgeKind) ∈ es) : (d ++ [es]).Reach isSp x d.length :=
  (Dag.reach_concat_new hd hes).mpr (Or.inr ⟨_, he, rfl, Dag.Reach.refl x⟩)

/-- A child stays as it was when its parent moves on. -/
theorem ChildOk.extend (hd : d.WF) {w w' : Strand} (hw : w < d.length)
    (hww : (d ++ [es]).Reach isSp w w') {c : Child} (hc : ChildOk d w c) :
    ChildOk (d ++ [es]) w' c where
  fork := (reach_start hd hw hc.fork).trans hww
  last := reach_start hd hc.lt hc.last
  lt := by
    rw [List.length_append]
    exact Nat.lt_add_right _ hc.lt

/-- So does a future. -/
theorem FinishedOk.extend (hd : d.WF) {fin : Finished} (hf : FinishedOk d fin) :
    FinishedOk (d ++ [es]) fin where
  last := reach_start hd hf.last_lt hf.last
  cont := reach_start hd hf.cont_lt hf.cont
  last_lt := by
    rw [List.length_append]
    exact Nat.lt_add_right _ hf.last_lt
  cont_lt := by
    rw [List.length_append]
    exact Nat.lt_add_right _ hf.cont_lt

/-- A new strand is started, and the top frame moves on to a strand that `w` has a path to. -/
theorem FramesOk.extend (hd : d.WF) {frames : List Frame} :
    ∀ {w w' : Strand}, w < d.length → (d ++ [es]).Reach isSp w w' → FramesOk d w frames →
      FramesOk (d ++ [es]) w' frames := by
  induction frames with
  | nil =>
      intro w w' _ _ _
      trivial
  | cons f rest ih =>
      rintro w w' hw hww ⟨hch, hcr, hout, hrest⟩
      refine ⟨fun c hc => (hch c hc).extend hd hw hww, fun c hc => (hcr c hc).extend hd hw hww, ?_, ?_⟩
      · -- a function stands where its caller stands, another frame keeps its fork
        cases hk : f.kind with
        | function => exact Dag.Reach.refl w'
        | spawned fork =>
            rw [hk] at hout
            exact (reach_start hd hw hout).trans hww
        | future fut fork =>
            rw [hk] at hout
            exact (reach_start hd hw hout).trans hww
      · have houtlt : f.kind.outer w < d.length := Nat.lt_of_le_of_lt (hout.le hd) hw
        cases hk : f.kind with
        | function =>
            rw [hk] at hrest
            exact ih hw hww hrest
        | spawned fork =>
            rw [hk] at hrest houtlt
            exact ih houtlt (Dag.Reach.refl fork) hrest
        | future fut fork =>
            rw [hk] at hrest houtlt
            exact ih houtlt (Dag.Reach.refl fork) hrest

end Extend

/-- The top frame may be replaced by another one of its kind with good children. -/
theorem FramesOk.replace {d : Dag EdgeKind} {w : Strand} {f f' : Frame} {rest : List Frame}
    (h : FramesOk d w (f :: rest)) (hk : f'.kind = f.kind)
    (hch : ∀ c ∈ f'.children, c ∈ f.children ∨ ChildOk d w c)
    (hcr : ∀ c ∈ f'.created, c ∈ f.created ∨ ChildOk d w c) : FramesOk d w (f' :: rest) := by
  obtain ⟨hc, hc', hout, hrest⟩ := h
  refine ⟨?_, ?_, by rw [hk]; exact hout, by rw [hk]; exact hrest⟩
  · intro c hmem
    exact (hch c hmem).elim (hc c) id
  · intro c hmem
    exact (hcr c hmem).elim (hc' c) id

/-- A frame pushed at the fork `w`. -/
theorem FramesOk.push {d : Dag EdgeKind} {w w' : Strand} {kind : Kind} {frames : List Frame}
    (h : FramesOk d w frames) (hk : kind.outer w' = w) (hww : d.Reach isSp w w') :
    FramesOk d w' (.new kind :: frames) := by
  refine ⟨by simp [Frame.new], by simp [Frame.new], ?_, ?_⟩
  · show d.Reach isSp (kind.outer w') w'
    rw [hk]
    exact hww
  · show FramesOk d (kind.outer w') frames
    rw [hk]
    exact h

/-- Before the first event. -/
theorem ok_init : Ok init where
  wf := Dag.wf_nil.concat (by simp)
  cur_lt := by decide
  frames := ⟨by simp [Frame.new], by simp [Frame.new], Dag.Reach.refl 0, trivial⟩
  futures := by
    intro fut fin h
    simp [init] at h

/-- In-edges of a sync come from earlier strands. -/
theorem syncEdges_lt {s : State} {f : Frame} {rest : List Frame} (hok : Ok s)
    (hf : s.frames = f :: rest) : ∀ e ∈ syncEdges s.cur f, e.src < s.dag.length := by
  have hfr := hok.frames
  rw [hf] at hfr
  obtain ⟨hch, hcr, -, -⟩ := hfr
  intro e he
  simp only [syncEdges, List.cons_append, List.mem_cons, List.mem_append, List.mem_map] at he
  rcases he with rfl | ⟨c, hc, rfl⟩ | ⟨c, hc, rfl⟩
  · exact hok.cur_lt
  · exact (hch c hc).lt
  · exact (hcr c hc).lt

section Steps

variable {s : State}

/-- Every edge of a new strand comes from an earlier one. -/
theorem single_lt {x : Strand} (hx : x < s.dag.length) :
    ∀ e ∈ [(⟨x, .sp⟩ : InEdge EdgeKind)], e.src < s.dag.length := by
  intro e he
  rw [List.mem_singleton.mp he]
  exact hx

/-- The facts that every start of a strand shares. -/
theorem Ok.start_futures (hok : Ok s) {es : List (InEdge EdgeKind)} :
    ∀ (fut : FutId) (fin : Finished), s.futures[fut]? = some (some fin) →
      FinishedOk (s.dag ++ [es]) fin :=
  fun fut fin hfin => (hok.futures fut fin hfin).extend hok.wf

/-- The strand that starts is the current one. -/
theorem Ok.start_cur_lt (s : State) (es : List (InEdge EdgeKind)) :
    s.dag.length < (s.dag ++ [es]).length := by
  simp

/-- A frame that returns: its fork, and the frames below at that fork. -/
theorem Ok.returning (hok : Ok s) {f : Frame} {rest : List Frame} (hf : s.frames = f :: rest) :
    s.dag.Reach isSp (f.kind.outer s.cur) s.cur ∧ f.kind.outer s.cur < s.dag.length ∧
      FramesOk s.dag (f.kind.outer s.cur) rest := by
  have hfr := hok.frames
  rw [hf] at hfr
  obtain ⟨-, -, hout, hrest⟩ := hfr
  exact ⟨hout, Nat.lt_of_le_of_lt (hout.le hok.wf) hok.cur_lt, hrest⟩

/-- The top frame is left for a new one, forked at the current strand. -/
theorem Ok.fork_frames (hok : Ok s) {f : Frame} {rest : List Frame} (hf : s.frames = f :: rest)
    (unsynced : Bool) {kind : Kind} (hk : kind.outer s.dag.length = s.cur) :
    FramesOk (s.dag ++ [[⟨s.cur, .sp⟩]]) s.dag.length
      (.new kind :: { f with unsynced := unsynced } :: rest) := by
  have hfr := hok.frames
  rw [hf] at hfr
  have hstay : FramesOk (s.dag ++ [[⟨s.cur, .sp⟩]]) s.cur ({ f with unsynced := unsynced } :: rest) :=
    hfr.extend hok.wf hok.cur_lt (Dag.Reach.refl s.cur)
  exact hstay.push hk (reach_new_of_sp hok.wf (single_lt hok.cur_lt) (List.mem_singleton.mpr rfl))

/-- The top frame ends; the frame below goes on after the fork. -/
theorem Ok.join_frames (hok : Ok s) {f g : Frame} {rest : List Frame} (fork : Strand)
    (hf : s.frames = f :: g :: rest) (hfork : f.kind.outer s.cur = fork) :
    FramesOk (s.dag ++ [[⟨fork, .sp⟩]]) s.dag.length (g :: rest) ∧
      ChildOk (s.dag ++ [[⟨fork, .sp⟩]]) s.dag.length ⟨fork, s.cur⟩ ∧ fork < s.dag.length := by
  obtain ⟨hout, hlt, hrest⟩ := hok.returning hf
  rw [hfork] at hout hlt hrest
  have hnew : Dag.Reach (s.dag ++ [[⟨fork, .sp⟩]]) isSp fork s.dag.length :=
    reach_new_of_sp hok.wf (single_lt hlt) (List.mem_singleton.mpr rfl)
  refine ⟨hrest.extend hok.wf hlt hnew, ⟨hnew, reach_start hok.wf hok.cur_lt hout, ?_⟩, hlt⟩
  exact Nat.lt_trans hok.cur_lt (Ok.start_cur_lt s _)

/-- **One event.** -/
theorem ok_step {rules : Rules} {s' : State} {e : Event} (hok : Ok s) (h : Step rules s e s') : Ok s' := by
  cases h with
  | call hf =>
      refine ⟨hok.wf, hok.cur_lt, ?_, hok.futures⟩
      have hfr := hok.frames
      rw [hf] at hfr
      exact hfr.push rfl (Dag.Reach.refl s.cur)
  | ret hf hk _ =>
      refine ⟨hok.wf, hok.cur_lt, ?_, hok.futures⟩
      have hrest := (hok.returning hf).2.2
      rw [hk] at hrest
      exact hrest
  | spawn hf _ =>
      exact ⟨hok.wf.concat (single_lt hok.cur_lt), Ok.start_cur_lt s _,
        hok.fork_frames hf _ rfl, hok.start_futures⟩
  | @spawnRet f g rest fork hf hk _ =>
      obtain ⟨hrest, hchild, hlt⟩ := hok.join_frames fork hf (by rw [hk]; rfl)
      refine ⟨hok.wf.concat (single_lt hlt), Ok.start_cur_lt s _, ?_, hok.start_futures⟩
      refine FramesOk.replace hrest ?_ ?_ ?_
      · rfl
      · intro c hc
        rcases List.mem_cons.mp hc with rfl | hc
        · exact Or.inr hchild
        · exact Or.inl hc
      · exact fun c hc => Or.inl hc
  | @sync f rest hf _ _ =>
      have hlt := syncEdges_lt hok hf
      refine ⟨hok.wf.concat hlt, Ok.start_cur_lt s _, ?_, hok.start_futures⟩
      have hfr := hok.frames
      rw [hf] at hfr
      have hnew : (s.dag ++ [syncEdges s.cur f]).Reach isSp s.cur s.dag.length :=
        reach_new_of_sp hok.wf hlt (by simp [syncEdges])
      refine FramesOk.replace (hfr.extend hok.wf hok.cur_lt hnew) ?_ ?_ ?_
      · rfl
      · exact fun c hc => absurd hc (by simp [Frame.new])
      · exact fun c hc => absurd hc (by simp [Frame.new])
  | synced => exact hok
  | create hf _ =>
      refine ⟨hok.wf.concat (single_lt hok.cur_lt), Ok.start_cur_lt s _,
        hok.fork_frames hf _ rfl, ?_⟩
      intro fut fin hfin
      apply hok.start_futures fut fin
      rcases Nat.lt_trichotomy fut s.futures.length with hlt | rfl | hgt
      · exact (List.getElem?_append_left hlt) ▸ hfin
      · simp at hfin
      · rw [List.getElem?_eq_none (by simp; omega)] at hfin
        cases hfin
  | @finish f g rest fut fork hf hk _ =>
      obtain ⟨hrest, hchild, hlt⟩ := hok.join_frames fork hf (by rw [hk]; rfl)
      refine ⟨hok.wf.concat (single_lt hlt), Ok.start_cur_lt s _, ?_, ?_⟩
      · refine FramesOk.replace hrest ?_ ?_ ?_
        · rfl
        · exact fun c hc => Or.inl hc
        · intro c hc
          rcases List.mem_cons.mp hc with rfl | hc
          · exact Or.inr hchild
          · exact Or.inl hc
      · intro fut' fin hfin
        rw [List.getElem?_set] at hfin
        split at hfin
        · split at hfin
          · cases hfin
            exact ⟨hchild.last, hchild.fork, hchild.lt, Ok.start_cur_lt s _⟩
          · cases hfin
        · exact hok.start_futures fut' fin hfin
  | @get fut fin hfin =>
      have hlt : ∀ e ∈ [(⟨s.cur, .sp⟩ : InEdge EdgeKind), ⟨fin.last, .get⟩], e.src < s.dag.length := by
        intro e he
        simp only [List.mem_cons, List.not_mem_nil, or_false] at he
        rcases he with rfl | rfl
        · exact hok.cur_lt
        · exact (hok.futures fut fin hfin).last_lt
      refine ⟨hok.wf.concat hlt, Ok.start_cur_lt s _, ?_, hok.start_futures⟩
      exact hok.frames.extend hok.wf hok.cur_lt (reach_new_of_sp hok.wf hlt (by simp))

end Steps

/-! ## The stack

Facts about the frames and the futures, without paths. The tools assert some of them: a helper that returns has a
parent that waits for it, and a future that finishes has not finished before. -/

/-- The future a frame runs. -/
def Kind.futId? : Kind → Option FutId
  | .future fut _ => some fut
  | _ => none

@[simp] theorem futId?_function : Kind.futId? .function = none := rfl
@[simp] theorem futId?_spawned (fork : Strand) : Kind.futId? (.spawned fork) = none := rfl
@[simp] theorem futId?_future (fut : FutId) (fork : Strand) :
    Kind.futId? (.future fut fork) = some fut := rfl
@[simp] theorem kind_new (kind : Kind) : (Frame.new kind).kind = kind := rfl

/-- The futures that are still running. -/
def futIds (frames : List Frame) : List FutId := frames.filterMap fun f => f.kind.futId?

/-- While a spawned child runs, its parent is unsynced. -/
def ParentUnsynced (f g : Frame) : Prop := ∀ fork, f.kind = .spawned fork → g.unsynced = true

/-- The stack has a frame; a parent of a spawned child is unsynced; a synced frame has no children to join; and the
    futures on the stack are running, each of them once. -/
structure StackOk (s : State) : Prop where
  nonempty : s.frames ≠ []
  parents : s.frames.IsChain ParentUnsynced
  synced : ∀ f ∈ s.frames, f.unsynced = false → f.children = []
  nodup : (futIds s.frames).Nodup
  running : ∀ fut ∈ futIds s.frames, s.futures[fut]? = some none

/-- The future of the top frame comes first. -/
@[simp] theorem futIds_cons (f : Frame) (rest : List Frame) :
    futIds (f :: rest) = f.kind.futId?.toList ++ futIds rest := by
  unfold futIds
  cases h : f.kind.futId? <;> simp [h]

/-- It is a question about kinds and flags. -/
theorem parentUnsynced_of_kind {f f' g : Frame} (hk : f'.kind = f.kind) (h : ParentUnsynced f g) :
    ParentUnsynced f' g := by
  intro fork hf
  exact h fork (hk ▸ hf)

/-- The top frame may change its flag and its children. -/
theorem parents_replace {f f' : Frame} {rest : List Frame}
    (h : (f :: rest).IsChain ParentUnsynced) (hk : f'.kind = f.kind) : (f' :: rest).IsChain ParentUnsynced := by
  cases rest with
  | nil => exact List.IsChain.singleton f'
  | cons g rest =>
      rw [List.isChain_cons_cons] at h ⊢
      exact ⟨parentUnsynced_of_kind hk h.1, h.2⟩

/-- Before the first event. -/
theorem stackOk_init : StackOk init where
  nonempty := by simp [init]
  parents := List.IsChain.singleton _
  synced := by simp [init, Frame.new]
  nodup := by decide
  running := by simp [init, futIds]

/-- **One event.** -/
theorem stackOk_step {rules : Rules} {s s' : State} {e : Event} (hok : StackOk s)
    (h : Step rules s e s') : StackOk s' := by
  obtain ⟨hne, hpar, hsync, hnodup, hrun⟩ := hok
  cases h with
  | call hf =>
      rw [hf] at hpar hsync hnodup hrun
      refine ⟨by simp, ?_, ?_, by simpa using hnodup, by simpa using hrun⟩
      · exact List.isChain_cons_cons.mpr ⟨fun _ hk => absurd hk (by simp), hpar⟩
      · simpa [Frame.new] using hsync
  | ret hf hk _ =>
      rw [hf] at hpar hsync hnodup hrun
      rw [futIds_cons, hk] at hnodup hrun
      exact ⟨by simp, (List.isChain_cons_cons.mp hpar).2,
        fun f hmem => hsync f (List.mem_cons_of_mem _ hmem), hnodup, hrun⟩
  | spawn hf _ =>
      rw [hf] at hpar hsync hnodup hrun
      refine ⟨by simp, ?_, ?_, by simpa using hnodup, by simpa [State.start] using hrun⟩
      · refine List.isChain_cons_cons.mpr ⟨fun _ _ => rfl, ?_⟩
        exact parents_replace hpar rfl
      · intro f hmem hu
        simp only [List.mem_cons] at hmem
        rcases hmem with rfl | rfl | hmem
        · rfl
        · cases hu
        · exact hsync f (List.mem_cons_of_mem _ hmem) hu
  | spawnRet hf hk _ =>
      rw [hf] at hpar hsync hnodup hrun
      rw [futIds_cons, hk] at hnodup hrun
      obtain ⟨hg, hpar⟩ := List.isChain_cons_cons.mp hpar
      have hgu := hg _ hk
      refine ⟨by simp, ?_, ?_, by simpa using hnodup, by simpa [State.start] using hrun⟩
      · exact parents_replace hpar rfl
      · intro f hmem hu
        rcases List.mem_cons.mp hmem with rfl | hmem
        · exact absurd (hgu.symm.trans hu) (by decide)
        · exact hsync f (by simp [hmem]) hu
  | sync hf _ _ =>
      rw [hf] at hpar hsync hnodup hrun
      refine ⟨by simp, ?_, ?_, by simpa using hnodup, by simpa [State.start] using hrun⟩
      · exact parents_replace hpar rfl
      · intro f hmem hu
        rcases List.mem_cons.mp hmem with rfl | hmem
        · rfl
        · exact hsync f (List.mem_cons_of_mem _ hmem) hu
  | synced => exact ⟨hne, hpar, hsync, hnodup, hrun⟩
  | @create f rest hf _ =>
      rw [hf] at hpar hsync hnodup hrun
      have hold : ∀ fut ∈ futIds s.frames, fut < s.futures.length := by
        intro fut hfut
        rw [hf] at hfut
        exact (List.getElem?_eq_some_iff.mp (hrun fut hfut)).1
      rw [hf] at hold
      refine ⟨by simp, ?_, ?_, ?_, ?_⟩
      · refine List.isChain_cons_cons.mpr ⟨fun _ hk => absurd hk (by simp), ?_⟩
        exact parents_replace hpar rfl
      · intro f' hmem hu
        simp only [List.mem_cons] at hmem
        rcases hmem with rfl | rfl | hmem
        · rfl
        · exact hsync f List.mem_cons_self (Bool.or_eq_false_iff.mp hu).1
        · exact hsync f' (List.mem_cons_of_mem _ hmem) hu
      · -- the new future has a fresh number
        rw [futIds_cons]
        refine List.nodup_append.mpr ⟨by simp, by simpa using hnodup, ?_⟩
        intro a ha b hb heq
        obtain rfl : a = s.futures.length := by simpa using ha
        rw [← heq] at hb
        exact absurd (hold _ (by simpa using hb)) (Nat.lt_irrefl _)
      · intro fut hfut
        rw [futIds_cons, kind_new, futId?_future, Option.toList_some, List.mem_append,
          List.mem_singleton] at hfut
        rcases hfut with rfl | hfut
        · simp
        · have hfut' : fut ∈ futIds (f :: rest) := by simpa using hfut
          rw [List.getElem?_append_left (hold fut hfut')]
          exact hrun fut hfut'
  | @finish f g rest fut fork hf hk _ =>
      rw [hf] at hpar hsync hnodup hrun
      rw [futIds_cons, hk, futId?_future, Option.toList_some] at hnodup hrun
      obtain ⟨hnot, hnodup⟩ := List.nodup_cons.mp hnodup
      refine ⟨by simp, ?_, ?_, by simpa using hnodup, ?_⟩
      · exact parents_replace (List.isChain_cons_cons.mp hpar).2 rfl
      · intro f hmem hu
        rcases List.mem_cons.mp hmem with rfl | hmem
        · exact hsync g (by simp) hu
        · exact hsync f (by simp [hmem]) hu
      · intro fut' hfut'
        have hmem : fut' ∈ futIds (g :: rest) := by simpa using hfut'
        have hne' : fut ≠ fut' := by
          rintro rfl
          exact hnot hmem
        show (s.futures.set fut _)[fut']? = _
        rw [List.getElem?_set_ne hne']
        exact hrun fut' (List.mem_append_right _ hmem)
  | get _ => exact ⟨hne, hpar, hsync, hnodup, hrun⟩

/-! ## Which events start a strand

Two kinds of events. What is said of strands and paths has to be looked at again only for the events that add a strand
to the dag. -/

/-- The events that start no strand. -/
inductive Stays (s : State) : Event → Prop where
  | call : Stays s .call
  | ret {f g rest} (hf : s.frames = f :: g :: rest) (hk : f.kind = .function) : Stays s .ret
  | synced {f rest} (hf : s.frames = f :: rest) (hu : f.unsynced = false) : Stays s .sync

/-- **What an event does to the dag**: nothing, or it starts one strand. -/
theorem step_dag {rules : Rules} {s s' : State} {e : Event} (h : Step rules s e s') :
    (s'.dag = s.dag ∧ s'.cur = s.cur ∧ Stays s e) ∨ ∃ es, s'.dag = s.dag ++ [es] ∧ s'.cur = s.dag.length := by
  cases h with
  | call _ => exact Or.inl ⟨rfl, rfl, .call⟩
  | ret hf hk _ => exact Or.inl ⟨rfl, rfl, .ret hf hk⟩
  | synced hf _ hu => exact Or.inl ⟨rfl, rfl, .synced hf hu⟩
  | _ => exact Or.inr ⟨_, rfl, rfl⟩

end FOrder.Serial
