import FOrder.Serial.Facts

/-!
# `Serial.Bags` — the bags of a serial run, by what they are for

An abstract view of the S and P bags: each strand is in the S bag of an active task, in the P bag of an active
frame, or in the bag of a finished future. A bag is named by the place that owns it (the depth of its frame, or the
future), so moving a bag is a relabelling. The point is `BagsOk.mem_s`: the strands in S bags are exactly those with
a path to the current strand.

With `mergeGet` the bag of a future joins the S bag of the getter, and gets count as edges; without it the bag stays
and only the series-parallel part counts.

`Levels` is the invariant, frame by frame. The S bags up to a frame have what precedes the strand that the frame has
come to, and its P bag what its finished children have done since they were forked. An event starts a strand at the
top and moves at most one bag, so all levels below that bag's frame stay as they are (`Levels.stable`), and the top
one gains what was moved (`Levels.advance`). The lemmas `bagsOk_…` say so for each event.

A get is different: it may move the bag of a future into a task that the future's strands have nothing to do with.
`GetOk` is what has to be asked of it, that the future's fork precedes the getter already; then nothing but the
strands of the future comes to precede it.
-/

namespace FOrder.Serial

/-- The owner of a bag. -/
inductive Loc where
  | s (depth : Nat)
  | p (depth : Nat)
  | fut (fut : FutId)
  deriving DecidableEq

/-- The depth of the frame whose S bag the top frame uses: a called function shares its caller's. -/
def taskDepth : List Frame → Nat
  | [] => 0
  | f :: rest =>
      match f.kind with
      | .function => taskDepth rest
      | _ => rest.length

/-- The bag of `l` becomes part of the bag of `l'`. -/
def moveBag (l l' : Loc) (bags : List Loc) : List Loc := bags.map fun m => if m = l then l' else m

/-- The bags after an event; `bags` holds the owner of each strand's bag. -/
def bagStep (mergeGet : Bool) (s : State) (bags : List Loc) (e : Event) : List Loc :=
  match e, s.frames with
  | .spawn, frames => bags ++ [.s frames.length]
  | .spawnRet, _ :: rest =>
      moveBag (.s rest.length) (.p (rest.length - 1)) bags ++ [.s (taskDepth rest)]
  | .sync, f :: rest =>
      if f.unsynced then
        moveBag (.p rest.length) (.s (taskDepth (f :: rest))) bags ++ [.s (taskDepth (f :: rest))]
      else bags
  | .create, frames => bags ++ [.s frames.length]
  | .finish fut, _ :: rest => moveBag (.s rest.length) (.fut fut) bags ++ [.s (taskDepth rest)]
  | .get fut, frames =>
      (if mergeGet then moveBag (.fut fut) (.s (taskDepth frames)) bags else bags) ++
        [.s (taskDepth frames)]
  | _, _ => bags

/-- The task of the top frame is on the stack. -/
theorem taskDepth_lt {frames : List Frame} (h : frames ≠ []) : taskDepth frames < frames.length := by
  induction frames with
  | nil => exact absurd rfl h
  | cons f rest ih =>
      unfold taskDepth
      split
      · cases rest with
        | nil => exact Nat.zero_lt_one
        | cons g rest => exact Nat.lt_succ_of_lt (ih (by simp))
      · exact Nat.lt_succ_self _

/-- A forked frame is a task of its own. -/
theorem taskDepth_of_ne {f : Frame} {rest : List Frame} (hk : f.kind ≠ .function) :
    taskDepth (f :: rest) = rest.length := by
  unfold taskDepth
  split
  · rename_i h
    exact absurd h hk
  · rfl

/-- Tasks depend on the kinds of the frames only. -/
theorem taskDepth_of_kind {f f' : Frame} {rest : List Frame} (hk : f'.kind = f.kind) :
    taskDepth (f' :: rest) = taskDepth (f :: rest) := by
  simp [taskDepth, hk]

/-- Where a strand is after a move. -/
theorem getElem?_moveBag {l l' m : Loc} {bags : List Loc} {x : Nat} :
    (moveBag l l' bags)[x]? = some m ↔
      (bags[x]? = some l ∧ m = l') ∨ (bags[x]? = some m ∧ m ≠ l) := by
  unfold moveBag
  rw [List.getElem?_map]
  cases hx : bags[x]? with
  | none => simp
  | some k =>
      by_cases hk : k = l
      · subst hk
        simp only [Option.map_some, if_true, Option.some.injEq, true_and]
        constructor
        · rintro rfl
          exact Or.inl rfl
        · rintro (rfl | ⟨rfl, hne⟩)
          · rfl
          · exact absurd rfl hne
      · simp only [Option.map_some, Option.some.injEq, hk, false_and, false_or]
        constructor
        · rintro rfl
          exact ⟨rfl, hk⟩
        · rintro ⟨rfl, -⟩
          rfl

/-- Where a strand is after another one has started. -/
theorem getElem?_concat {bags : List Loc} {l m : Loc} {x : Nat} :
    (bags ++ [l])[x]? = some m ↔ bags[x]? = some m ∨ (x = bags.length ∧ m = l) := by
  rcases Nat.lt_trichotomy x bags.length with hx | rfl | hx
  · rw [List.getElem?_append_left hx]
    simp [Nat.ne_of_lt hx]
  · simp [eq_comm]
  · rw [List.getElem?_eq_none (by simp; omega), List.getElem?_eq_none (Nat.le_of_lt hx)]
    simp [Nat.ne_of_gt hx]

/-- Where a strand is after a move and a start. -/
theorem getElem?_move_concat {l l' m k : Loc} {bags : List Loc} {x : Nat} :
    (moveBag l l' bags ++ [m])[x]? = some k ↔ (bags[x]? = some l ∧ k = l') ∨
      (bags[x]? = some k ∧ k ≠ l) ∨ (x = bags.length ∧ k = m) := by
  rw [getElem?_concat, getElem?_moveBag, or_assoc]
  simp [moveBag]

/-! ## The invariant

`Levels` goes down the stack, and says of each frame what its S bags and its P bag hold in terms of paths to the
strand that the frame has come to. This is a statement about a frame that waits as well as about the top one, and for
a waiting frame its strand does not move, so nothing has to be proved of it again. -/

/-- The strand is in an S bag at depth `i` or below. -/
def SBelow (bags : List Loc) (i : Nat) (x : Strand) : Prop := ∃ j ≤ i, bags[x]? = some (.s j)

/-- The P bag of a frame at depth `i` holds what its finished children did. -/
def PBag (bags : List Loc) (d : Dag EdgeKind) (p : EdgeKind → Prop) (i : Nat) (f : Frame) : Prop :=
  ∀ x, bags[x]? = some (.p i) ↔ ∃ c ∈ f.children, d.Reach p x c.last ∧ ¬d.Reach p x c.fork

/-- Frame by frame: the S bags up to a frame hold the strands before the strand `w` it has come to. -/
def Levels (bags : List Loc) (d : Dag EdgeKind) (p : EdgeKind → Prop) : Strand → List Frame → Prop
  | _, [] => True
  | w, f :: rest =>
      (∀ x, SBelow bags rest.length x ↔ d.Reach p x w) ∧ PBag bags d p rest.length f ∧
        Levels bags d p (f.kind.outer w) rest

/-- Nothing changes at the depths of `frames`. -/
structure SameBelow (bags bags' : List Loc) (n : Nat) : Prop where
  s : ∀ (x : Nat) (i : Nat), i < n → (bags'[x]? = some (.s i) ↔ bags[x]? = some (.s i))
  p : ∀ (x : Nat) (i : Nat), i < n → (bags'[x]? = some (.p i) ↔ bags[x]? = some (.p i))

section Levels

variable {bags bags' : List Loc} {d : Dag EdgeKind} {es : List (InEdge EdgeKind)}
  {p : EdgeKind → Prop}

theorem SameBelow.sBelow {n i : Nat} (h : SameBelow bags bags' n) (hi : i < n) (x : Strand) :
    SBelow bags' i x ↔ SBelow bags i x := by
  constructor
  · rintro ⟨j, hj, hx⟩
    exact ⟨j, hj, (h.s x j (Nat.lt_of_le_of_lt hj hi)).mp hx⟩
  · rintro ⟨j, hj, hx⟩
    exact ⟨j, hj, (h.s x j (Nat.lt_of_le_of_lt hj hi)).mpr hx⟩

/-- Fewer depths are the same, too. -/
theorem SameBelow.mono {n m : Nat} (h : SameBelow bags bags' n) (hm : m ≤ n) :
    SameBelow bags bags' m :=
  ⟨fun x i hi => h.s x i (Nat.lt_of_lt_of_le hi hm), fun x i hi => h.p x i (Nat.lt_of_lt_of_le hi hm)⟩

/-- The children of a frame stay as they were when a strand is started. -/
theorem children_reach (es : List (InEdge EdgeKind)) (hd : d.WF) {w : Strand} {f : Frame}
    (hch : ∀ c ∈ f.children, ChildOk d w c) (hw : w < d.length) (x : Strand) :
    (∃ c ∈ f.children, (d ++ [es]).Reach p x c.last ∧ ¬(d ++ [es]).Reach p x c.fork) ↔
      ∃ c ∈ f.children, d.Reach p x c.last ∧ ¬d.Reach p x c.fork := by
  have hiff : ∀ c ∈ f.children, (((d ++ [es]).Reach p x c.last ∧ ¬(d ++ [es]).Reach p x c.fork) ↔
      (d.Reach p x c.last ∧ ¬d.Reach p x c.fork)) := by
    intro c hc
    have hfork : c.fork < d.length := Nat.lt_of_le_of_lt ((hch c hc).fork.le hd) hw
    rw [Dag.reach_concat_old hd (hch c hc).lt, Dag.reach_concat_old hd hfork]
  constructor
  · rintro ⟨c, hc, h⟩
    exact ⟨c, hc, (hiff c hc).mp h⟩
  · rintro ⟨c, hc, h⟩
    exact ⟨c, hc, (hiff c hc).mpr h⟩

/-- Frames whose depths are not touched stay good when a strand is started: the paths between old strands are as
    before, and so are the bags at these depths. -/
theorem Levels.stable (hd : d.WF) {frames : List Frame} :
    ∀ {w : Strand}, w < d.length → FramesOk d w frames → SameBelow bags bags' frames.length →
      Levels bags d p w frames → Levels bags' (d ++ [es]) p w frames := by
  induction frames with
  | nil => exact fun _ _ _ _ => trivial
  | cons f rest ih =>
      rintro w hw ⟨hch, -, hout, hrest⟩ hsame ⟨hs, hp, hlev⟩
      have hlt : rest.length < (f :: rest).length := Nat.lt_succ_self _
      refine ⟨?_, ?_, ?_⟩
      · intro x
        rw [hsame.sBelow hlt, hs, Dag.reach_concat_old hd hw]
      · intro x
        rw [hsame.p x _ hlt, hp, children_reach es hd hch hw]
      · exact ih (Nat.lt_of_le_of_lt (hout.le hd) hw) hrest (hsame.mono (Nat.le_of_lt hlt)) hlev

/-- The top task moves on to the new strand: its S bag gains the strands `N`, which have to be those that come to
    precede it. A function's frame shares the S bag of its caller's, so all frames of the task move on together,
    down to the one that was forked. -/
theorem Levels.advance (hd : d.WF) {N : Strand → Prop} {rest : List Frame} :
    ∀ {g g' : Frame} {w : Strand}, w < d.length → FramesOk d w (g :: rest) → g'.kind = g.kind →
      (∀ (x : Nat) (i : Nat), i < (g :: rest).length → (bags'[x]? = some (.s i) ↔
        bags[x]? = some (.s i) ∨ (N x ∧ i = taskDepth (g :: rest)))) →
      (∀ (x : Nat) (i : Nat), i < rest.length → (bags'[x]? = some (.p i) ↔ bags[x]? = some (.p i))) →
      (∀ x, (d ++ [es]).Reach p x d.length ↔ d.Reach p x w ∨ N x) →
      PBag bags' (d ++ [es]) p rest.length g' → Levels bags d p w (g :: rest) →
      Levels bags' (d ++ [es]) p d.length (g' :: rest) := by
  induction rest with
  | nil =>
      rintro g g' w hw - - hs - hreach hpbag ⟨hlev, -, -⟩
      refine ⟨?_, hpbag, trivial⟩
      intro x
      have htask : taskDepth [g] = 0 := by
        unfold taskDepth
        split <;> rfl
      rw [hreach, ← hlev]
      constructor
      · rintro ⟨j, hj, hx⟩
        obtain rfl := Nat.le_zero.mp hj
        rcases (hs x 0 Nat.zero_lt_one).mp hx with h | ⟨h, -⟩
        · exact Or.inl ⟨0, Nat.le_refl 0, h⟩
        · exact Or.inr h
      · rintro (⟨j, hj, hx⟩ | h)
        · obtain rfl := Nat.le_zero.mp hj
          exact ⟨0, Nat.le_refl 0, (hs x 0 Nat.zero_lt_one).mpr (Or.inl hx)⟩
        · exact ⟨0, Nat.le_refl 0, (hs x 0 Nat.zero_lt_one).mpr (Or.inr ⟨h, htask.symm⟩)⟩
  | cons h rest ih =>
      rintro g g' w hw ⟨-, -, hout, hrest⟩ hk hs hp hreach hpbag ⟨hlev, -, hlevs⟩
      have htask : taskDepth (g :: h :: rest) ≤ (h :: rest).length :=
        Nat.le_of_lt_succ (taskDepth_lt (by simp))
      refine ⟨?_, hpbag, ?_⟩
      · intro x
        rw [hreach, ← hlev]
        constructor
        · rintro ⟨j, hj, hx⟩
          rcases (hs x j (Nat.lt_succ_of_le hj)).mp hx with h | ⟨h, -⟩
          · exact Or.inl ⟨j, hj, h⟩
          · exact Or.inr h
        · rintro (⟨j, hj, hx⟩ | h)
          · exact ⟨j, hj, (hs x j (Nat.lt_succ_of_le hj)).mpr (Or.inl hx)⟩
          · exact ⟨_, htask, (hs x _ (Nat.lt_succ_of_le htask)).mpr (Or.inr ⟨h, rfl⟩)⟩
      · have houtlt := Nat.lt_of_le_of_lt (hout.le hd) hw
        rw [hk]
        -- the rest belongs to the same task below a function, and to another one below a fork
        by_cases hkind : g.kind = .function
        · rw [hkind] at hrest hlevs ⊢
          have hsame : taskDepth (g :: h :: rest) = taskDepth (h :: rest) := by
            rw [taskDepth, hkind]
          apply ih hw hrest rfl _ _ hreach _ hlevs
          · intro x i hi
            rw [← hsame]
            exact hs x i (Nat.lt_succ_of_lt hi)
          · intro x i hi
            exact hp x i (Nat.lt_succ_of_lt hi)
          · intro x
            rw [hp x _ (Nat.lt_succ_self _), children_reach es hd hrest.1 hw]
            exact hlevs.2.1 x
        · rw [Kind.outer_of_ne hkind d.length w]
          refine Levels.stable hd houtlt hrest ⟨?_, hp⟩ hlevs
          intro x i hi
          have hne : i ≠ (h :: rest).length := Nat.ne_of_lt hi
          rw [hs x i (Nat.lt_succ_of_lt hi), taskDepth_of_ne hkind]
          simp only [hne, and_false, or_false]

end Levels

/-! ## Every run

The top frame's level is the one that an event changes. `BagsOk` adds the bags of finished futures, which are not on
the stack, and the futures whose bags are gone (`got`); it is proved for both versions at once, with and without
merging at a get, as MultiBags uses the one and MultiBags+ the other. -/

/-- A get that the bags allow: with merging, the future is got for the first time, and by a strand after
    its creator's. -/
def GetOk (mergeGet : Bool) (p : EdgeKind → Prop) (s : State) (got : List FutId) (fut : FutId) : Prop :=
  mergeGet = true → fut ∉ got ∧
    ∀ fin : Finished, s.futures[fut]? = some (some fin) → s.dag.Reach p fin.fork s.cur

/-- The futures whose bags are gone after an event. -/
def gotAfter (mergeGet : Bool) (got : List FutId) (e : Event) : List FutId :=
  match e with
  | .get fut => if mergeGet then fut :: got else got
  | _ => got

/-- The bags are right: those of the frames, and those of the futures that are still to be got. -/
structure BagsOk (p : EdgeKind → Prop) (s : State) (bags : List Loc) (got : List FutId) : Prop where
  length : bags.length = s.dag.length
  s_lt : ∀ (x i : Nat), bags[x]? = some (.s i) → i < s.frames.length
  p_lt : ∀ (x i : Nat), bags[x]? = some (.p i) → i < s.frames.length
  done : ∀ (x : Nat) (fut : FutId), bags[x]? = some (.fut fut) →
    ∃ fin : Finished, s.futures[fut]? = some (some fin)
  levels : Levels bags s.dag p s.cur s.frames
  fut : ∀ (fut : FutId) (fin : Finished), s.futures[fut]? = some (some fin) → fut ∉ got →
    ∀ x, bags[x]? = some (.fut fut) ↔ s.dag.Reach p x fin.last ∧ ¬s.dag.Reach p x fin.fork

section Step

variable {rules : Rules} {s s' : State} {bags : List Loc} {got : List FutId} {p : EdgeKind → Prop}
  {mergeGet : Bool}

/-- The bags of the futures stay as they were when a strand is started. -/
theorem BagsOk.fut_start (hb : BagsOk p s bags got) (hok : Ok s) (es : List (InEdge EdgeKind))
    (fut : FutId) (fin : Finished) (hfin : s.futures[fut]? = some (some fin)) (hgot : fut ∉ got) (x : Nat) :
    bags[x]? = some (.fut fut) ↔
      (s.dag ++ [es]).Reach p x fin.last ∧ ¬(s.dag ++ [es]).Reach p x fin.fork := by
  have hfok := hok.futures fut fin hfin
  have hfork : fin.fork < s.dag.length := Nat.lt_of_le_of_lt (hfok.last.le hok.wf) hfok.last_lt
  rw [hb.fut fut fin hfin hgot, Dag.reach_concat_old hok.wf hfok.last_lt,
    Dag.reach_concat_old hok.wf hfork]

/-- The S bag of a forked task: what it did since its fork. What precedes the fork is in the S bags below. -/
theorem BagsOk.top_task (hb : BagsOk p s bags got) {f g : Frame} {rest : List Frame}
    (hf : s.frames = f :: g :: rest) (x : Nat) : bags[x]? = some (.s (g :: rest).length) ↔
      s.dag.Reach p x s.cur ∧ ¬s.dag.Reach p x (f.kind.outer s.cur) := by
  have hlev := hb.levels
  rw [hf] at hlev
  obtain ⟨htop, -, hbelow, -⟩ := hlev
  rw [← htop, ← hbelow]
  constructor
  · intro hx
    refine ⟨⟨_, Nat.le_refl _, hx⟩, ?_⟩
    rintro ⟨j, hj, hx'⟩
    obtain rfl : (g :: rest).length = j := by simpa [hx] using hx'
    exact absurd hj (Nat.not_succ_le_self _)
  · rintro ⟨⟨j, hj, hx⟩, hno⟩
    by_cases hjl : j ≤ rest.length
    · exact absurd ⟨j, hjl, hx⟩ hno
    · obtain rfl : j = (g :: rest).length := Nat.le_antisymm hj (Nat.lt_of_not_le hjl)
      exact hx

/-- A synced frame has no P bag. -/
theorem BagsOk.p_lt_of_synced (hb : BagsOk p s bags got) (hok : StackOk s) {f : Frame}
    {rest : List Frame} (hf : s.frames = f :: rest) (hu : f.unsynced = false) {x i : Nat}
    (hx : bags[x]? = some (.p i)) : i < rest.length := by
  have hlt := hb.p_lt x i hx
  have hlev := hb.levels
  rw [hf] at hlt hlev
  refine Nat.lt_of_le_of_ne (Nat.le_of_lt_succ hlt) ?_
  rintro rfl
  obtain ⟨c, hc, -⟩ := (hlev.2.1 x).mp hx
  rw [hok.synced f (by rw [hf]; simp) hu] at hc
  cases hc

/-- **The answer of the bags**: the strands in S bags are those with a path to the current strand. No S bag is above
    the top frame, so the level of the top frame says it of all of them. -/
theorem BagsOk.mem_s (hb : BagsOk p s bags got) (hok : StackOk s) (x : Nat) :
    (∃ i, bags[x]? = some (.s i)) ↔ s.dag.Reach p x s.cur := by
  have hlev := hb.levels
  cases hf : s.frames with
  | nil => exact absurd hf hok.nonempty
  | cons f rest =>
      rw [hf] at hlev
      rw [← hlev.1]
      constructor
      · rintro ⟨i, hx⟩
        have hi := hb.s_lt x i hx
        rw [hf] at hi
        exact ⟨i, Nat.le_of_lt_succ hi, hx⟩
      · rintro ⟨i, -, hx⟩
        exact ⟨i, hx⟩

/-- Before the first event there is one strand. -/
theorem reach_init (x : Strand) : init.dag.Reach p x 0 ↔ x = 0 := by
  rw [Dag.reach_iff_edge]
  constructor
  · rintro (h | ⟨z, -, es, hes, e, he, -⟩)
    · exact h
    · obtain rfl : es = [] := by simpa [init] using hes.symm
      cases he
  · exact Or.inl

/-- It is in the S bag of the root. -/
theorem bagsOk_init : BagsOk p init [.s 0] [] where
  length := rfl
  s_lt x i hx := by
    obtain ⟨hx0, heq⟩ := List.getElem?_eq_some_iff.mp hx
    obtain rfl : x = 0 := by simpa using hx0
    obtain rfl : i = 0 := by simpa using heq.symm
    decide
  p_lt x i hx := by
    obtain ⟨hx0, heq⟩ := List.getElem?_eq_some_iff.mp hx
    obtain rfl : x = 0 := by simpa using hx0
    simp at heq
  done x fut hx := by
    obtain ⟨hx0, heq⟩ := List.getElem?_eq_some_iff.mp hx
    obtain rfl : x = 0 := by simpa using hx0
    simp at heq
  levels := by
    refine ⟨?_, ?_, trivial⟩
    · intro x
      show SBelow _ 0 x ↔ init.dag.Reach p x 0
      rw [reach_init]
      constructor
      · rintro ⟨j, -, hx⟩
        obtain ⟨hx0, -⟩ := List.getElem?_eq_some_iff.mp hx
        simpa using hx0
      · rintro rfl
        exact ⟨0, Nat.le_refl 0, rfl⟩
    · intro x
      simp only [Frame.new, List.not_mem_nil, false_and, exists_false, iff_false]
      intro hx
      obtain ⟨hx0, heq⟩ := List.getElem?_eq_some_iff.mp hx
      obtain rfl : x = 0 := by simpa using hx0
      simp at heq
  fut fut fin hfin := by
    simp [init] at hfin

/-- A call pushes a frame with no bags of its own. -/
theorem bagsOk_call (hb : BagsOk p s bags got) {f : Frame} {rest : List Frame}
    (hf : s.frames = f :: rest) :
    BagsOk p { s with frames := .new .function :: f :: rest } bags got := by
  obtain ⟨hlen, hs, hp, hdone, hlev, hfut⟩ := hb
  rw [hf] at hs hp hlev
  refine ⟨hlen, fun x i hx => Nat.lt_succ_of_lt (hs x i hx), fun x i hx => Nat.lt_succ_of_lt (hp x i hx),
    hdone, ⟨?_, ?_, hlev⟩, hfut⟩
  · intro x
    rw [← hlev.1]
    constructor
    · rintro ⟨j, hj, hx⟩
      exact ⟨j, Nat.le_of_lt_succ (hs x j hx), hx⟩
    · rintro ⟨j, hj, hx⟩
      exact ⟨j, Nat.le_succ_of_le hj, hx⟩
  · intro x
    simp only [Frame.new, List.not_mem_nil, false_and, exists_false, iff_false]
    intro hx
    exact absurd (hp x _ hx) (Nat.lt_irrefl _)

/-- A function returns: it has no bags of its own to leave behind. -/
theorem bagsOk_ret (hb : BagsOk p s bags got) (hok : StackOk s) {f g : Frame} {rest : List Frame}
    (hf : s.frames = f :: g :: rest) (hk : f.kind = .function) (hu : f.unsynced = false) :
    BagsOk p { s with frames := g :: rest } bags got := by
  have htop := hb.top_task hf
  have hp := fun x i => hb.p_lt_of_synced hok hf hu (x := x) (i := i)
  obtain ⟨hlen, hs, -, hdone, hlev, hfut⟩ := hb
  rw [hf] at hs hlev
  obtain ⟨-, -, hlev⟩ := hlev
  rw [hk] at hlev htop
  refine ⟨hlen, ?_, hp, hdone, hlev, hfut⟩
  intro x i hx
  refine Nat.lt_of_le_of_ne (Nat.le_of_lt_succ (hs x i hx)) ?_
  rintro rfl
  have hno := (htop x).mp hx
  exact hno.2 hno.1

/-- A spawn or a create: the new task starts with a bag of its own. -/
theorem bagsOk_fork (hb : BagsOk p s bags got) (hok : Ok s) (hsp : p .sp) {f : Frame}
    {rest : List Frame} (hf : s.frames = f :: rest) (unsynced : Bool) {kind : Kind}
    (hk : kind.outer s.dag.length = s.cur) {futures : List (Option Finished)}
    (hfutures : ∀ (fut : FutId) (fin : Finished),
      futures[fut]? = some (some fin) ↔ s.futures[fut]? = some (some fin)) :
    BagsOk p ⟨s.dag ++ [[⟨s.cur, .sp⟩]], s.dag.length,
      .new kind :: { f with unsynced := unsynced } :: rest, futures⟩
      (bags ++ [.s s.frames.length]) got := by
  have hstart := hb.fut_start hok [⟨s.cur, .sp⟩]
  obtain ⟨hlen, hs, hp, hdone, hlev, hfut⟩ := hb
  have hfr := hok.frames
  rw [hf] at hs hp hlev hfr ⊢
  have hreach : ∀ x, Dag.Reach (s.dag ++ [[⟨s.cur, .sp⟩]]) p x s.dag.length ↔
      x = s.dag.length ∨ s.dag.Reach p x s.cur := by
    intro x
    rw [Dag.reach_concat_new hok.wf (single_lt hok.cur_lt)]
    simp [hsp]
  refine ⟨by simp [hlen], ?_, ?_, ?_, ⟨?_, ?_, ?_⟩, ?_⟩
  · intro x i hx
    rcases getElem?_concat.mp hx with hx | ⟨-, hl⟩
    · exact Nat.lt_succ_of_lt (hs x i hx)
    · cases hl
      exact Nat.lt_succ_self _
  · intro x i hx
    rcases getElem?_concat.mp hx with hx | ⟨-, hl⟩
    · exact Nat.lt_succ_of_lt (hp x i hx)
    · cases hl
  · intro x fut hx
    rcases getElem?_concat.mp hx with hx | ⟨-, hl⟩
    · obtain ⟨fin, hfin⟩ := hdone x fut hx
      exact ⟨fin, (hfutures fut fin).mpr hfin⟩
    · cases hl
  · intro x
    rw [hreach, ← hlev.1, ← hlen]
    constructor
    · rintro ⟨j, hj, hx⟩
      rcases getElem?_concat.mp hx with hx | ⟨hx, -⟩
      · exact Or.inr ⟨j, Nat.le_of_lt_succ (hs x j hx), hx⟩
      · exact Or.inl hx
    · rintro (hx | ⟨j, hj, hx⟩)
      · exact ⟨_, Nat.le_refl _, getElem?_concat.mpr (Or.inr ⟨hx, rfl⟩)⟩
      · exact ⟨j, Nat.le_succ_of_le hj, getElem?_concat.mpr (Or.inl hx)⟩
  · intro x
    simp only [Frame.new, List.not_mem_nil, false_and, exists_false, iff_false]
    intro hx
    rcases getElem?_concat.mp hx with hx | ⟨-, hl⟩
    · exact absurd (hp x _ hx) (Nat.lt_irrefl _)
    · cases hl
  · rw [kind_new, hk]
    refine Levels.stable hok.wf hok.cur_lt hfr ⟨?_, ?_⟩ hlev
    · intro x i hi
      have hne : i ≠ (f :: rest).length := Nat.ne_of_lt hi
      rw [getElem?_concat]
      simp only [Loc.s.injEq, hne, and_false, or_false]
    · intro x i hi
      rw [getElem?_concat]
      simp
  · intro fut fin hfin hgot x
    rw [getElem?_concat, ← hstart fut fin ((hfutures fut fin).mp hfin) hgot]
    simp

/-- A spawned child returns: its bag goes to its parent's P bag. The child has no P bag of its own any more, because
    it is synced; and what it did since its fork is just what `PBag` asks for. -/
theorem bagsOk_spawnRet (hb : BagsOk p s bags got) (hok : Ok s) (hst : StackOk s) (hsp : p .sp)
    {f g : Frame} {rest : List Frame} {fork : Strand} (hf : s.frames = f :: g :: rest)
    (hk : f.kind = .spawned fork) (hu : f.unsynced = false) :
    BagsOk p ⟨s.dag ++ [[⟨fork, .sp⟩]], s.dag.length,
      { g with children := ⟨fork, s.cur⟩ :: g.children } :: rest, s.futures⟩
      (moveBag (.s (g :: rest).length) (.p rest.length) bags ++ [.s (taskDepth (g :: rest))]) got := by
  have hstart := hb.fut_start hok [⟨fork, .sp⟩]
  have htop := hb.top_task hf
  have hp := fun x i => hb.p_lt_of_synced hst hf hu (x := x) (i := i)
  obtain ⟨hout, hforklt, hbelow⟩ := hok.returning hf
  have htask := taskDepth_lt (show g :: rest ≠ [] by simp)
  obtain ⟨hlen, hs, -, hdone, hlev, -⟩ := hb
  rw [hf] at hs hlev
  obtain ⟨-, -, hlev⟩ := hlev
  rw [hk, outer_spawned] at hforklt hbelow hlev
  simp only [hk, outer_spawned] at htop
  refine ⟨by simp [moveBag, hlen], ?_, ?_, ?_, ?_, ?_⟩
  · intro x i hx
    rcases getElem?_concat.mp hx with hx | ⟨-, hl⟩
    · rcases getElem?_moveBag.mp hx with ⟨-, hl⟩ | ⟨hx, hne⟩
      · cases hl
      · refine Nat.lt_of_le_of_ne (Nat.le_of_lt_succ (hs x i hx)) ?_
        rintro rfl
        exact hne rfl
    · cases hl
      exact htask
  · intro x i hx
    rcases getElem?_concat.mp hx with hx | ⟨-, hl⟩
    · rcases getElem?_moveBag.mp hx with ⟨-, hl⟩ | ⟨hx, -⟩
      · cases hl
        exact Nat.lt_succ_self _
      · exact hp x i hx
    · cases hl
  · intro x fut hx
    rcases getElem?_concat.mp hx with hx | ⟨-, hl⟩
    · rcases getElem?_moveBag.mp hx with ⟨-, hl⟩ | ⟨hx, -⟩
      · cases hl
      · exact hdone x fut hx
    · cases hl
  · refine Levels.advance (N := fun x => x = s.dag.length) hok.wf hforklt hbelow rfl ?_ ?_ ?_ ?_ hlev
    · intro x i hi
      have hne : i ≠ (g :: rest).length := Nat.ne_of_lt hi
      rw [getElem?_move_concat, ← hlen]
      simp only [reduceCtorEq, and_false, false_or, Loc.s.injEq, ne_eq, hne, not_false_eq_true,
        and_true]
    · intro x i hi
      have hne : i ≠ rest.length := Nat.ne_of_lt hi
      rw [getElem?_move_concat]
      simp [hne]
    · intro x
      rw [Dag.reach_concat_new hok.wf (single_lt hforklt)]
      simp [hsp, or_comm]
    · -- the child's bag joins what was there
      intro x
      have hch := children_reach (p := p) [⟨fork, .sp⟩] hok.wf hbelow.1 hforklt x
      rw [getElem?_move_concat, htop, hlev.2.1]
      simp only [List.mem_cons, or_and_right, exists_or, exists_eq_left]
      rw [hch, Dag.reach_concat_old hok.wf hok.cur_lt, Dag.reach_concat_old hok.wf hforklt]
      simp
  · intro fut fin hfin hgot x
    rw [getElem?_move_concat, ← hstart fut fin hfin hgot]
    simp

/-- A future finishes: its bag is kept for the gets. It has what the future did since its fork, and this stays true,
    for no strand is added to what precedes its last one. -/
theorem bagsOk_finish (hb : BagsOk p s bags got) (hok : Ok s) (hst : StackOk s) (hsp : p .sp)
    {f g : Frame} {rest : List Frame} {fut : FutId} {fork : Strand} (hf : s.frames = f :: g :: rest)
    (hk : f.kind = .future fut fork) (hu : f.unsynced = false) :
    BagsOk p ⟨s.dag ++ [[⟨fork, .sp⟩]], s.dag.length,
      { g with created := ⟨fork, s.cur⟩ :: g.created } :: rest,
      s.futures.set fut (some ⟨fork, s.cur, s.dag.length⟩)⟩
      (moveBag (.s (g :: rest).length) (.fut fut) bags ++ [.s (taskDepth (g :: rest))]) got := by
  have hstart := hb.fut_start hok [⟨fork, .sp⟩]
  have htop := hb.top_task hf
  have hp := fun x i => hb.p_lt_of_synced hst hf hu (x := x) (i := i)
  obtain ⟨hout, hforklt, hbelow⟩ := hok.returning hf
  have htask := taskDepth_lt (show g :: rest ≠ [] by simp)
  -- the future was still running, so no bag was its own yet
  have hrunning : s.futures[fut]? = some none := by
    apply hst.running
    rw [hf, futIds_cons, hk]
    simp
  obtain ⟨hlen, hs, -, hdone, hlev, -⟩ := hb
  have hfresh : ∀ x : Nat, bags[x]? ≠ some (Loc.fut fut) := by
    intro x hx
    obtain ⟨fin, hfin⟩ := hdone x fut hx
    rw [hrunning] at hfin
    cases hfin
  have hfutlt : fut < s.futures.length := (List.getElem?_eq_some_iff.mp hrunning).1
  rw [hf] at hs hlev
  obtain ⟨-, -, hlev⟩ := hlev
  rw [hk, outer_future] at hforklt hbelow hlev
  simp only [hk, outer_future] at htop
  refine ⟨by simp [moveBag, hlen], ?_, ?_, ?_, ?_, ?_⟩
  · intro x i hx
    rcases getElem?_move_concat.mp hx with ⟨-, hl⟩ | ⟨hx, hne⟩ | ⟨-, hl⟩
    · cases hl
    · refine Nat.lt_of_le_of_ne (Nat.le_of_lt_succ (hs x i hx)) ?_
      rintro rfl
      exact hne rfl
    · cases hl
      exact htask
  · intro x i hx
    rcases getElem?_move_concat.mp hx with ⟨-, hl⟩ | ⟨hx, -⟩ | ⟨-, hl⟩
    · cases hl
    · exact hp x i hx
    · cases hl
  · intro x fut' hx
    rcases getElem?_move_concat.mp hx with ⟨-, hl⟩ | ⟨hx, -⟩ | ⟨-, hl⟩
    · cases hl
      exact ⟨⟨fork, s.cur, s.dag.length⟩, by simp [hfutlt]⟩
    · have hne : fut ≠ fut' := by
        rintro rfl
        exact hfresh x hx
      obtain ⟨fin, hfin⟩ := hdone x fut' hx
      exact ⟨fin, by rw [List.getElem?_set_ne hne]; exact hfin⟩
    · cases hl
  · refine Levels.advance (N := fun x => x = s.dag.length) hok.wf hforklt hbelow rfl ?_ ?_ ?_ ?_ hlev
    · intro x i hi
      have hne : i ≠ (g :: rest).length := Nat.ne_of_lt hi
      rw [getElem?_move_concat, ← hlen]
      simp only [reduceCtorEq, and_false, false_or, Loc.s.injEq, ne_eq, hne, not_false_eq_true,
        and_true]
    · intro x i hi
      rw [getElem?_move_concat]
      simp
    · intro x
      rw [Dag.reach_concat_new hok.wf (single_lt hforklt)]
      simp [hsp, or_comm]
    · intro x
      have hch := children_reach (p := p) [⟨fork, .sp⟩] hok.wf hbelow.1 hforklt x
      rw [getElem?_move_concat, hch, ← hlev.2.1]
      simp
  · intro fut' fin hfin hgot x
    by_cases hne : fut' = fut
    · subst hne
      obtain rfl : fin = ⟨fork, s.cur, s.dag.length⟩ := by
        simpa [hfutlt, eq_comm] using hfin
      rw [getElem?_move_concat, htop, Dag.reach_concat_old hok.wf hok.cur_lt,
        Dag.reach_concat_old hok.wf hforklt]
      simp [hfresh x]
    · rw [List.getElem?_set_ne (fun h => hne h.symm)] at hfin
      rw [getElem?_move_concat, ← hstart fut' fin hfin hgot]
      simp [hne]

/-- A sync: the P bag of the frame joins its S bag. What precedes the strand after the sync is what preceded the one
    before it, and what the children did. -/
theorem bagsOk_sync (hb : BagsOk p s bags got) (hok : Ok s) (hsp : p .sp) (hjoin : ¬p .join) {f : Frame}
    {rest : List Frame} (hf : s.frames = f :: rest) :
    BagsOk p ⟨s.dag ++ [syncEdges s.cur f], s.dag.length, .new f.kind :: rest, s.futures⟩
      (moveBag (.p rest.length) (.s (taskDepth (f :: rest))) bags ++ [.s (taskDepth (f :: rest))])
      got := by
  have hstart := hb.fut_start hok (syncEdges s.cur f)
  have htask := taskDepth_lt (show f :: rest ≠ [] by simp)
  have hedges := syncEdges_lt hok hf
  have hfr := hok.frames
  obtain ⟨hlen, hs, hp, hdone, hlev, -⟩ := hb
  rw [hf] at hs hp hlev hfr
  refine ⟨by simp [moveBag, hlen], ?_, ?_, ?_, ?_, ?_⟩
  · intro x i hx
    rcases getElem?_move_concat.mp hx with ⟨-, hl⟩ | ⟨hx, -⟩ | ⟨-, hl⟩
    · cases hl
      exact htask
    · exact hs x i hx
    · cases hl
      exact htask
  · intro x i hx
    rcases getElem?_move_concat.mp hx with ⟨-, hl⟩ | ⟨hx, -⟩ | ⟨-, hl⟩
    · cases hl
    · exact hp x i hx
    · cases hl
  · intro x fut hx
    rcases getElem?_move_concat.mp hx with ⟨-, hl⟩ | ⟨hx, -⟩ | ⟨-, hl⟩
    · cases hl
    · exact hdone x fut hx
    · cases hl
  · refine Levels.advance (N := fun x => bags[x]? = some (.p rest.length) ∨ x = s.dag.length)
      hok.wf hok.cur_lt hfr rfl ?_ ?_ ?_ ?_ hlev
    · intro x i _
      rw [getElem?_move_concat, ← hlen]
      simp only [Loc.s.injEq, ne_eq, reduceCtorEq, not_false_eq_true, and_true, or_and_right]
      tauto
    · intro x i hi
      have hne : i ≠ rest.length := Nat.ne_of_lt hi
      rw [getElem?_move_concat]
      simp [hne]
    · -- what a child did was there before its fork, or is in the P bag
      intro x
      rw [Dag.reach_concat_new hok.wf hedges, hlev.2.1]
      constructor
      · rintro (rfl | ⟨e, he, hpe, hr⟩)
        · exact Or.inr (Or.inr rfl)
        · simp only [syncEdges, List.cons_append, List.mem_cons, List.mem_append, List.mem_map] at he
          rcases he with rfl | ⟨c, hc, rfl⟩ | ⟨c, hc, rfl⟩
          · exact Or.inl hr
          · by_cases hfork : s.dag.Reach p x c.fork
            · exact Or.inl (hfork.trans (((hfr.1 c hc).fork).mono (fun k hk => by rw [hk]; exact hsp)))
            · exact Or.inr (Or.inl ⟨c, hc, hr, hfork⟩)
          · exact absurd hpe hjoin
      · rintro (hr | ⟨c, hc, hr, -⟩ | rfl)
        · exact Or.inr ⟨⟨s.cur, .sp⟩, by simp [syncEdges], hsp, hr⟩
        · refine Or.inr ⟨⟨c.last, .sp⟩, ?_, hsp, hr⟩
          simp only [syncEdges, List.cons_append, List.mem_cons, List.mem_append, List.mem_map]
          exact Or.inr (Or.inl ⟨c, hc, rfl⟩)
        · exact Or.inl rfl
    · intro x
      rw [getElem?_move_concat]
      simp [Frame.new]
  · intro fut fin hfin hgot x
    rw [getElem?_move_concat, ← hstart fut fin hfin hgot]
    simp

/-- What a get does to the bags that are there. -/
theorem getBags_iff {fut : FutId} {n x : Nat} {k : Loc} :
    (if mergeGet then moveBag (.fut fut) (.s n) bags else bags)[x]? = some k ↔
      (mergeGet = true ∧ bags[x]? = some (.fut fut) ∧ k = .s n) ∨
        (bags[x]? = some k ∧ (mergeGet = true → k ≠ .fut fut)) := by
  cases mergeGet with
  | true => simp [getElem?_moveBag]
  | false => simp

/-- A get: with merging, the bag of the future joins the S bag of the getter. The future's fork precedes the getter
    already (`GetOk`), so the strands that come to precede it are those in the bag. -/
theorem bagsOk_get (hb : BagsOk p s bags got) (hok : Ok s) (hst : StackOk s) (hsp : p .sp)
    (hget : p .get ↔ mergeGet = true) {fut : FutId} {fin : Finished}
    (hfin : s.futures[fut]? = some (some fin)) (hg : GetOk mergeGet p s got fut) :
    BagsOk p (s.start [⟨s.cur, .sp⟩, ⟨fin.last, .get⟩])
      ((if mergeGet then moveBag (.fut fut) (.s (taskDepth s.frames)) bags else bags) ++
        [.s (taskDepth s.frames)]) (if mergeGet then fut :: got else got) := by
  have hstart := hb.fut_start hok [⟨s.cur, .sp⟩, ⟨fin.last, .get⟩]
  have htask := taskDepth_lt hst.nonempty
  have hbag := hb.fut fut fin hfin
  have hedges : ∀ e ∈ [(⟨s.cur, .sp⟩ : InEdge EdgeKind), ⟨fin.last, .get⟩], e.src < s.dag.length := by
    intro e he
    simp only [List.mem_cons, List.not_mem_nil, or_false] at he
    rcases he with rfl | rfl
    · exact hok.cur_lt
    · exact (hok.futures fut fin hfin).last_lt
  have hfr := hok.frames
  obtain ⟨hlen, hs, hp, hdone, hlev, -⟩ := hb
  have hlen' : (if mergeGet then moveBag (.fut fut) (.s (taskDepth s.frames)) bags else bags).length =
      s.dag.length := by
    split <;> simp [moveBag, hlen]
  refine ⟨by simp [hlen', State.start], ?_, ?_, ?_, ?_, ?_⟩
  · intro x i hx
    rcases getElem?_concat.mp hx with hx | ⟨-, hl⟩
    · rcases getBags_iff.mp hx with ⟨-, -, hl⟩ | ⟨hx, -⟩
      · cases hl
        exact htask
      · exact hs x i hx
    · cases hl
      exact htask
  · intro x i hx
    rcases getElem?_concat.mp hx with hx | ⟨-, hl⟩
    · rcases getBags_iff.mp hx with ⟨-, -, hl⟩ | ⟨hx, -⟩
      · cases hl
      · exact hp x i hx
    · cases hl
  · intro x fut' hx
    rcases getElem?_concat.mp hx with hx | ⟨-, hl⟩
    · rcases getBags_iff.mp hx with ⟨-, -, hl⟩ | ⟨hx, -⟩
      · cases hl
      · exact hdone x fut' hx
    · cases hl
  · cases hframes : s.frames with
    | nil => exact absurd hframes hst.nonempty
    | cons g rest =>
        rw [hframes] at hlev hfr hs hp hlen'
        show Levels _ (s.dag ++ [[⟨s.cur, .sp⟩, ⟨fin.last, .get⟩]]) p s.dag.length s.frames
        rw [hframes]
        refine Levels.advance (N := fun x =>
          (mergeGet = true ∧ bags[x]? = some (.fut fut)) ∨ x = s.dag.length)
          hok.wf hok.cur_lt hfr rfl ?_ ?_ ?_ ?_ hlev
        · intro x i _
          rw [getElem?_concat, getBags_iff, hlen']
          simp only [Loc.s.injEq, ne_eq, reduceCtorEq, not_false_eq_true, implies_true, and_true]
          tauto
        · intro x i _
          rw [getElem?_concat, getBags_iff]
          simp
        · intro x
          rw [Dag.reach_concat_new hok.wf hedges]
          constructor
          · rintro (rfl | ⟨e, he, hpe, hr⟩)
            · exact Or.inr (Or.inr rfl)
            · simp only [List.mem_cons, List.not_mem_nil, or_false] at he
              rcases he with rfl | rfl
              · exact Or.inl hr
              · -- what the future did was there before its fork, or is in its bag
                have hm := hget.mp hpe
                obtain ⟨hgot, hfork⟩ := hg hm
                by_cases hxf : s.dag.Reach p x fin.fork
                · exact Or.inl (hxf.trans (hfork fin hfin))
                · exact Or.inr (Or.inl ⟨hm, (hbag hgot x).mpr ⟨hr, hxf⟩⟩)
          · rintro (hr | ⟨hm, hx⟩ | rfl)
            · exact Or.inr ⟨⟨s.cur, .sp⟩, by simp, hsp, hr⟩
            · exact Or.inr ⟨⟨fin.last, .get⟩, by simp, hget.mpr hm, ((hbag (hg hm).1 x).mp hx).1⟩
            · exact Or.inl rfl
        · intro x
          have hch := children_reach (p := p) [⟨s.cur, .sp⟩, ⟨fin.last, .get⟩] hok.wf hfr.1 hok.cur_lt x
          rw [getElem?_concat, getBags_iff, hch, ← hlev.2.1]
          simp
  · intro fut' fin' hfin' hgot' x
    have hgot : fut' ∉ got ∧ (mergeGet = true → fut' ≠ fut) := by
      cases mergeGet with
      | true =>
          rw [if_pos rfl, List.mem_cons, not_or] at hgot'
          exact ⟨hgot'.2, fun _ => hgot'.1⟩
      | false => exact ⟨hgot', fun h => by cases h⟩
    rw [getElem?_concat, getBags_iff]
    show _ ↔ Dag.Reach (s.dag ++ [[⟨s.cur, .sp⟩, ⟨fin.last, .get⟩]]) p x fin'.last ∧
      ¬Dag.Reach (s.dag ++ [[⟨s.cur, .sp⟩, ⟨fin.last, .get⟩]]) p x fin'.fork
    rw [← hstart fut' fin' hfin' hgot.1]
    simpa using fun _ => hgot.2

/-- **One event** keeps the bags right. -/
theorem bagsOk_step (hb : BagsOk p s bags got) (hok : Ok s) (hst : StackOk s) (hsp : p .sp)
    (hjoin : ¬p .join) (hget : p .get ↔ mergeGet = true) {e : Event} (h : Step rules s e s')
    (hg : ∀ fut, e = .get fut → GetOk mergeGet p s got fut) :
    BagsOk p s' (bagStep mergeGet s bags e) (gotAfter mergeGet got e) := by
  cases h with
  | call hf =>
      have hbags : bagStep mergeGet s bags .call = bags := by simp [bagStep]
      rw [hbags]
      exact bagsOk_call hb hf
  | ret hf hk hu =>
      have hbags : bagStep mergeGet s bags .ret = bags := by simp [bagStep]
      rw [hbags]
      exact bagsOk_ret hb hst hf hk hu
  | spawn hf _ =>
      have hbags : bagStep mergeGet s bags .spawn = bags ++ [.s s.frames.length] := by simp [bagStep]
      rw [hbags]
      exact bagsOk_fork hb hok hsp hf true rfl (fun _ _ => Iff.rfl)
  | @spawnRet f g rest fork hf hk hu =>
      have hbags : bagStep mergeGet s bags .spawnRet =
          moveBag (.s (g :: rest).length) (.p rest.length) bags ++ [.s (taskDepth (g :: rest))] := by
        simp [bagStep, hf]
      rw [hbags]
      exact bagsOk_spawnRet hb hok hst hsp hf hk hu
  | @sync f rest hf _ hu =>
      have hbags : bagStep mergeGet s bags .sync =
          moveBag (.p rest.length) (.s (taskDepth (f :: rest))) bags ++
            [.s (taskDepth (f :: rest))] := by
        simp [bagStep, hf, hu]
      rw [hbags]
      exact bagsOk_sync hb hok hsp hjoin hf
  | synced hf _ hu =>
      have hbags : bagStep mergeGet s bags .sync = bags := by simp [bagStep, hf, hu]
      rw [hbags]
      exact hb
  | create hf _ =>
      have hbags : bagStep mergeGet s bags .create = bags ++ [.s s.frames.length] := by simp [bagStep]
      rw [hbags]
      refine bagsOk_fork hb hok hsp hf _ rfl ?_
      intro fut fin
      rcases Nat.lt_trichotomy fut s.futures.length with hlt | rfl | hgt
      · rw [List.getElem?_append_left hlt]
      · simp
      · rw [List.getElem?_eq_none (by simp; omega), List.getElem?_eq_none (Nat.le_of_lt hgt)]
  | @finish f g rest fut fork hf hk hu =>
      have hbags : bagStep mergeGet s bags (.finish fut) =
          moveBag (.s (g :: rest).length) (.fut fut) bags ++ [.s (taskDepth (g :: rest))] := by
        simp [bagStep, hf]
      rw [hbags]
      exact bagsOk_finish hb hok hst hsp hf hk hu
  | @get fut fin hfin =>
      have hbags := bagsOk_get hb hok hst hsp hget hfin (hg fut rfl)
      simpa [bagStep, gotAfter] using hbags

end Step

end FOrder.Serial
