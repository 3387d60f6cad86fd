import FOrder.Rdtool.SpOrder

/-!
# `Rdtool.OwnFuture` — inside one future, the fork-join view is right

The fork-join view adds edges from a future to the next sync of its creator, so a path in it can be wrong. It is not
wrong between two strands of the same future: a path that goes through another future and comes back along such an
edge must have entered that future through its create, and from there the creator itself goes on to the sync.

This is why F-Order may ask the two orders about strands of one future, and needs its lists for the others.

`Walled` is how a path must enter: between a fork and the end of what was forked, edges from before the fork come
from the fork itself. It holds of each future as long as that runs, and stays true of its strands afterwards
(`CreatedOk`), so that the sync that joins it can use it (`ownFuture_sync`). `futs` is the future of each strand, by
the id that the tool gives it; the strands behind the wall of a future are in futures with greater ids than its
creator's.
-/

namespace FOrder.Rdtool

open Serial (State Event FutId Strand Step EdgeKind Child Ok StackOk FramesOk isForkJoin isDep kind_new)

/-- Below `n`, the edges into a strand after `u` do not come from before `u`. -/
def Walled (d : Dag EdgeKind) (u n : Strand) : Prop :=
  ∀ x y, d.Edge isForkJoin x y → u < y → y < n → u ≤ x

/-- A path over the wall goes through `u`. -/
theorem Walled.reach {d : Dag EdgeKind} (hd : d.WF) {u n x z : Strand} (hw : Walled d u n) (hx : x ≤ u)
    (hz : z < n) (huz : u ≤ z) (h : d.Reach isForkJoin x z) : d.Reach isForkJoin x u := by
  induction h with
  | refl =>
      rw [Nat.le_antisymm hx huz]
      exact Dag.Reach.refl u
  | @tail v z hxv hvz ih =>
      rcases Nat.lt_or_eq_of_le huz with huz | rfl
      · exact ih (Nat.lt_trans (hvz.lt hd) hz) (hw v z hvz huz hz)
      · exact hxv.tail hvz

/-- The fork of the topmost frame that was forked. -/
def topFork : List Serial.Frame → Strand
  | [] => 0
  | f :: rest => if f.kind = .function then topFork rest else f.kind.outer 0

/-- It is not after the current strand. -/
theorem topFork_le {d : Dag EdgeKind} (hd : d.WF) {frames : List Serial.Frame} :
    ∀ {w : Strand}, FramesOk d w frames → topFork frames ≤ w := by
  induction frames with
  | nil => exact fun _ => Nat.zero_le _
  | cons f rest ih =>
      intro w hfr
      obtain ⟨-, -, hout, hrest⟩ := hfr
      unfold topFork
      split
      · rename_i hk
        rw [hk] at hrest
        exact ih hrest
      · rename_i hk
        rw [Serial.Kind.outer_of_ne hk 0 w]
        exact hout.le hd

/-- A future that finished in a frame of the future `F`. -/
structure CreatedOk (d : Dag EdgeKind) (futs : List Nat) (F : Nat) (c : Child) : Prop where
  fork : futs[c.fork]? = some F
  walled : Walled d c.fork (c.last + 1)
  inside : ∀ y G, futs[y]? = some G → c.fork < y → y ≤ c.last → F < G

/-- The frames of the stack; `futs` are the futures of the strands. -/
def FutFrames (d : Dag EdgeKind) (futs : List Nat) : List Serial.Frame → Prop
  | [] => True
  | f :: rest =>
      (∀ c ∈ f.children, futs[c.last]? = some (futureOf (f :: rest))) ∧
      (∀ c ∈ f.created, CreatedOk d futs (futureOf (f :: rest)) c) ∧
      (∀ c ∈ f.children ++ f.created, topFork (f :: rest) ≤ c.last) ∧
      (f.kind ≠ .function → futs[f.kind.outer 0]? = some (futureOf rest) ∧
        Walled d (f.kind.outer 0) d.length) ∧
      (∀ fut u, f.kind = .future fut u → futureOf rest < fut + 1 ∧
        ∀ y G, futs[y]? = some G → u < y → futureOf rest < G) ∧
      FutFrames d futs rest

/-- `futs` are the futures of the strands; a path of the view within one future is a path of the dag. -/
structure OwnFuture (s : State) (futs : List Nat) : Prop where
  length : futs.length = s.dag.length
  cur : futs[s.cur]? = some (futureOf s.frames)
  le : ∀ F ∈ futs, F ≤ s.futures.length
  frames : FutFrames s.dag futs s.frames
  real : ∀ x y F, futs[x]? = some F → futs[y]? = some F → s.dag.Reach isForkJoin x y →
    s.dag.Reach isDep x y

/-! ## One strand more

A new strand is last, so it changes no path between old strands, and the walls that stand already are not about it.
Only for the futures that are running does it matter where its edges come from, and they come from behind the fork of
the topmost one. -/

section Extend

variable {d : Dag EdgeKind} {es : List (InEdge EdgeKind)} {futs : List Nat} {F : Nat}

/-- The future of a strand, old or new. -/
theorem getElem?_futs (hlen : futs.length = d.length) {y G : Nat} :
    (futs ++ [F])[y]? = some G ↔ futs[y]? = some G ∨ (y = d.length ∧ G = F) := by
  rw [← hlen]
  exact getElem?_snoc

/-- A new strand is no part of what is walled already. -/
theorem Walled.old {u n : Strand} (h : Walled d u n) (hn : n ≤ d.length) :
    Walled (d ++ [es]) u n := by
  intro x y hxy huy hyn
  rcases Dag.edge_concat.mp hxy with hxy | ⟨rfl, -⟩
  · exact h x y hxy huy hyn
  · exact absurd hyn (Nat.not_lt_of_le hn)

/-- The wall goes on when the new strand's edges come from behind it. -/
theorem Walled.concat {u : Strand} (h : Walled d u d.length)
    (hes : ∀ e ∈ es, isForkJoin e.kind → u ≤ e.src) : Walled (d ++ [es]) u (d ++ [es]).length := by
  intro x y hxy huy _
  rcases Dag.edge_concat.mp hxy with hxy | ⟨rfl, e, he, rfl, hk⟩
  · exact h x y hxy huy hxy.lt_length
  · exact hes e he hk

/-- A future that has finished stays as it was. -/
theorem CreatedOk.old (hlen : futs.length = d.length) {G : Nat} {c : Child}
    (h : CreatedOk d futs G c) (hlt : c.last < d.length) : CreatedOk (d ++ [es]) (futs ++ [F]) G c where
  fork := (getElem?_futs hlen).mpr (Or.inl h.fork)
  walled := h.walled.old hlt
  inside y G' hy hfork hlast := by
    rcases (getElem?_futs hlen).mp hy with hy | ⟨rfl, -⟩
    · exact h.inside y G' hy hfork hlast
    · exact absurd hlast (Nat.not_le_of_lt hlt)

/-- Forks further up the stack are later. -/
theorem topFork_cons_le {d : Dag EdgeKind} (hd : d.WF) {w : Strand} {f : Serial.Frame}
    {rest : List Serial.Frame} (hfr : FramesOk d w (f :: rest)) : topFork rest ≤ topFork (f :: rest) := by
  obtain ⟨-, -, -, hrest⟩ := hfr
  by_cases hk : f.kind = .function
  · simp [topFork, hk]
  · have hle := topFork_le hd hrest
    rw [Serial.Kind.outer_of_ne hk w 0] at hle
    simpa [topFork, hk] using hle

/-- Futures inside one another have growing ids. -/
theorem FutFrames.futureOf_le {f : Serial.Frame} {rest : List Serial.Frame}
    (h : FutFrames d futs (f :: rest)) : futureOf rest ≤ futureOf (f :: rest) := by
  obtain ⟨-, -, -, -, hfuture, -⟩ := h
  cases hk : f.kind with
  | function => simp [futureOf, hk]
  | spawned u => simp [futureOf, hk]
  | future fut u =>
      have := (hfuture fut u hk).1
      simpa [futureOf, hk] using Nat.le_of_lt this

/-- A new strand of the future `F` starts behind all forks on the stack. -/
theorem FutFrames.extend (hd : d.WF) (hlen : futs.length = d.length) {frames : List Serial.Frame} :
    ∀ {w : Strand}, FramesOk d w frames → FutFrames d futs frames →
      (∀ e ∈ es, isForkJoin e.kind → topFork frames ≤ e.src) → futureOf frames ≤ F →
      FutFrames (d ++ [es]) (futs ++ [F]) frames := by
  induction frames with
  | nil => exact fun _ _ _ _ => trivial
  | cons f rest ih =>
      intro w hfr hfut hes hF
      have hid := hfut.futureOf_le
      obtain ⟨hchildren, hcreated, htop, hforked, hfuture, hrest⟩ := hfut
      have hle := topFork_cons_le hd hfr
      refine ⟨?_, ?_, htop, ?_, ?_, ?_⟩
      · exact fun c hc => (getElem?_futs hlen).mpr (Or.inl (hchildren c hc))
      · exact fun c hc => (hcreated c hc).old hlen (hfr.2.1 c hc).lt
      · intro hk
        obtain ⟨hfork, hwall⟩ := hforked hk
        refine ⟨(getElem?_futs hlen).mpr (Or.inl hfork), hwall.concat ?_⟩
        intro e he hkind
        have := hes e he hkind
        simpa [topFork, hk] using this
      · intro fut u hk
        obtain ⟨hlt, hin⟩ := hfuture fut u hk
        refine ⟨hlt, ?_⟩
        intro y G hy hu
        rcases (getElem?_futs hlen).mp hy with hy | ⟨-, rfl⟩
        · exact hin y G hy hu
        · refine Nat.lt_of_lt_of_le hlt ?_
          simpa [futureOf, hk] using hF
      · apply ih hfr.2.2.2 hrest
        · exact fun e he hk => Nat.le_trans hle (hes e he hk)
        · exact Nat.le_trans hid hF

end Extend

/-! ## One event

By cases on the event. All but the sync start their strand by one edge of the view, from a strand of the same future,
or from the fork of a new one. The sync is the event for which the walls were built. -/

section Steps

variable {s s' : State} {futs : List Nat} {es : List (InEdge EdgeKind)} {F : Nat}

/-- The id of a future is not above the number of futures. -/
theorem OwnFuture.futureOf_le (h : OwnFuture s futs) : futureOf s.frames ≤ s.futures.length :=
  h.le _ (List.mem_of_getElem? h.cur)

/-- A path of the view that comes back to its future at the new strand has a real path beside it. -/
theorem OwnFuture.real_concat (h : OwnFuture s futs) (hok : Ok s) (hes : ∀ e ∈ es, e.src < s.dag.length)
    (hreal : ∀ x, futs[x]? = some F → ∀ e ∈ es, isForkJoin e.kind → s.dag.Reach isForkJoin x e.src →
      ∃ e' ∈ es, isDep e'.kind ∧ s.dag.Reach isDep x e'.src) (x y G : Nat)
    (hx : (futs ++ [F])[x]? = some G) (hy : (futs ++ [F])[y]? = some G)
    (hr : Dag.Reach (s.dag ++ [es]) isForkJoin x y) : Dag.Reach (s.dag ++ [es]) isDep x y := by
  have hlt : ∀ {x : Strand}, futs[x]? = some G → x < s.dag.length := fun hx =>
    h.length ▸ (List.getElem?_eq_some_iff.mp hx).1
  rcases (getElem?_futs h.length).mp hy with hyo | ⟨rfl, rfl⟩
  · rcases (getElem?_futs h.length).mp hx with hxo | ⟨rfl, -⟩
    · rw [Dag.reach_concat_old hok.wf (hlt hyo)] at hr ⊢
      exact h.real x y G hxo hyo hr
    · have heq := Dag.reach_from_new hok.wf hes hr (Nat.le_of_lt (hlt hyo))
      rw [heq]
      exact Dag.Reach.refl _
  · rcases (getElem?_futs h.length).mp hx with hxo | ⟨rfl, -⟩
    · rcases (Dag.reach_concat_new hok.wf hes).mp hr with rfl | ⟨e, he, hk, hr⟩
      · exact absurd (hlt hxo) (Nat.lt_irrefl _)
      · obtain ⟨e', he', hk', hr'⟩ := hreal x hxo e he hk hr
        exact (Dag.reach_concat_new hok.wf hes).mpr (Or.inr ⟨e', he', hk', hr'⟩)
    · exact Dag.Reach.refl _

/-- The only edge of the view comes from a strand `w` of the same future, and is real. -/
theorem OwnFuture.real_single (h : OwnFuture s futs) (hok : Ok s) (hes : ∀ e ∈ es, e.src < s.dag.length)
    {w : Strand} (hw : futs[w]? = some F) (hmem : ⟨w, .sp⟩ ∈ es)
    (honly : ∀ e ∈ es, isForkJoin e.kind → e.src = w) (x y G : Nat)
    (hx : (futs ++ [F])[x]? = some G) (hy : (futs ++ [F])[y]? = some G)
    (hr : Dag.Reach (s.dag ++ [es]) isForkJoin x y) : Dag.Reach (s.dag ++ [es]) isDep x y := by
  refine h.real_concat hok hes ?_ x y G hx hy hr
  intro x hx e he hk hr
  rw [honly e he hk] at hr
  exact ⟨⟨w, .sp⟩, hmem, Serial.isDep_of_isSp _ rfl, h.real x w F hx hw hr⟩

/-- The ids of all strands, with one more. -/
theorem le_futs (h : OwnFuture s futs) {n : Nat} (hn : s.futures.length ≤ n) (hF : F ≤ n) :
    ∀ G ∈ futs ++ [F], G ≤ n := by
  intro G hG
  rcases List.mem_append.mp hG with hG | hG
  · exact Nat.le_trans (h.le G hG) hn
  · rw [List.mem_singleton.mp hG]
    exact hF

/-- The wall around a child that starts at the new strand. -/
theorem walled_new {d : Dag EdgeKind} (u : Strand) (hu : u + 1 = d.length) :
    Walled (d ++ [[⟨u, .sp⟩]]) u (d ++ [[(⟨u, .sp⟩ : InEdge EdgeKind)]]).length := by
  intro x y hxy huy _
  rcases Dag.edge_concat.mp hxy with hxy | ⟨-, e, he, rfl, -⟩
  · have hy := hxy.lt_length
    rw [← hu] at hy
    exact absurd hy (Nat.not_lt_of_le huy)
  · obtain rfl := List.mem_singleton.mp he
    exact Nat.le_refl u

/-- The frames after a fork at the current strand. -/
theorem futFrames_fork (h : OwnFuture s futs) (hok : Ok s) (hcur : s.cur + 1 = s.dag.length)
    {f : Serial.Frame} {rest : List Serial.Frame} (hf : s.frames = f :: rest) (unsynced : Bool)
    {kind : Serial.Kind} (hfork : kind.outer 0 = s.cur)
    (hF : futureOf (f :: rest) ≤ F)
    (hfut : ∀ fut u, kind = .future fut u → u = s.cur ∧ F = fut + 1 ∧ futureOf (f :: rest) < F) :
    FutFrames (s.dag ++ [[⟨s.cur, .sp⟩]]) (futs ++ [F])
      (.new kind :: { f with unsynced := unsynced } :: rest) := by
  have hfr := hok.frames
  have hfut' := h.frames
  have hcurfut := h.cur
  rw [hf] at hfr hfut' hcurfut
  have hrest : FutFrames (s.dag ++ [[⟨s.cur, .sp⟩]]) (futs ++ [F]) ({ f with unsynced := unsynced } :: rest) := by
    have hfr : FramesOk s.dag s.cur ({ f with unsynced := unsynced } :: rest) := hfr
    refine FutFrames.extend hok.wf h.length hfr hfut' ?_ hF
    intro e he _
    rw [List.mem_singleton.mp he]
    exact topFork_le hok.wf hfr
  refine ⟨by simp [Serial.Frame.new], by simp [Serial.Frame.new], by simp [Serial.Frame.new], ?_, ?_, hrest⟩
  · intro _
    rw [kind_new, hfork]
    exact ⟨(getElem?_futs h.length).mpr (Or.inl hcurfut), walled_new s.cur hcur⟩
  · intro fut u hkind
    obtain ⟨rfl, rfl, hlt⟩ := hfut fut u hkind
    refine ⟨hlt, ?_⟩
    intro y G hy hu
    rcases (getElem?_futs h.length).mp hy with hy | ⟨-, rfl⟩
    · have hylt : y < s.dag.length := h.length ▸ (List.getElem?_eq_some_iff.mp hy).1
      rw [← hcur] at hylt
      exact absurd hylt (Nat.not_lt_of_le hu)
    · exact hlt

/-- The frames when the top frame has ended and the frame below goes on. -/
theorem futFrames_join (h : OwnFuture s futs) (hok : Ok s) {f g : Serial.Frame} {rest : List Serial.Frame}
    (hf : s.frames = f :: g :: rest) {fork : Strand} (hfork : f.kind.outer s.cur = fork) :
    FutFrames (s.dag ++ [[⟨fork, .sp⟩]]) (futs ++ [futureOf (g :: rest)]) (g :: rest) ∧
      topFork (g :: rest) ≤ s.cur := by
  obtain ⟨hout, -, hfr⟩ := hok.returning hf
  have hfut := h.frames
  rw [hf] at hfut
  rw [hfork] at hfr hout
  obtain ⟨-, -, -, -, -, hrest⟩ := hfut
  refine ⟨FutFrames.extend hok.wf h.length hfr hrest ?_ (Nat.le_refl _), ?_⟩
  · intro e he _
    rw [List.mem_singleton.mp he]
    exact topFork_le hok.wf hfr
  · exact Nat.le_trans (topFork_le hok.wf hfr) (hout.le hok.wf)

/-- The continuation is of the parent's future, and the only edge comes from the fork. -/
theorem ownFuture_spawnRet (h : OwnFuture s futs) (hok : Ok s) {f g : Serial.Frame}
    {rest : List Serial.Frame} {fork : Strand} (hf : s.frames = f :: g :: rest)
    (hk : f.kind = .spawned fork) : OwnFuture { s.start [⟨fork, .sp⟩] with
      frames := { g with children := ⟨fork, s.cur⟩ :: g.children } :: rest }
      (futs ++ [futureOf (g :: rest)]) := by
  have hfork : f.kind.outer s.cur = fork := by
    rw [hk]
    rfl
  obtain ⟨hchildren, hcreated, htop, hforked, hfuture, hrest⟩ := (futFrames_join h hok hf hfork).1
  have hle := (futFrames_join h hok hf hfork).2
  have hlt := (hok.returning hf).2.1
  rw [hfork] at hlt
  have hfut := h.frames
  have hcur := h.cur
  have hlef := h.futureOf_le
  rw [hf] at hfut hcur hlef
  have hid : futureOf (f :: g :: rest) = futureOf (g :: rest) := by simp [futureOf, hk]
  rw [hid] at hcur hlef
  have hforkfut : futs[fork]? = some (futureOf (g :: rest)) := by
    obtain ⟨-, -, -, hforked, -⟩ := hfut
    have := (hforked (by simp [hk])).1
    rwa [hk] at this
  have hg : futureOf ({ g with children := ⟨fork, s.cur⟩ :: g.children } :: rest) = futureOf (g :: rest) :=
    futureOf_of_kind rfl
  refine ⟨?_, ?_, le_futs h (Nat.le_refl _) hlef, ⟨?_, hcreated, ?_, hforked, hfuture, hrest⟩, ?_⟩
  · simp [h.length, State.start]
  · show (futs ++ [_])[s.dag.length]? = _
    rw [← h.length, hg]
    simp
  · rw [hg]
    exact List.forall_mem_cons.mpr ⟨(getElem?_futs h.length).mpr (Or.inl hcur), hchildren⟩
  · exact List.forall_mem_cons.mpr ⟨hle, htop⟩
  · exact h.real_single hok (Serial.single_lt hlt) hforkfut (by simp) (by simp)

/-- A future has finished: its strands are behind the wall of its fork. -/
theorem ownFuture_finish (h : OwnFuture s futs) (hok : Ok s)
    (hlast : s.cur + 1 = s.dag.length) {f g : Serial.Frame}
    {rest : List Serial.Frame} {fut : FutId} {fork : Strand} (hf : s.frames = f :: g :: rest)
    (hk : f.kind = .future fut fork) : OwnFuture { s.start [⟨fork, .sp⟩] with
      frames := { g with created := ⟨fork, s.cur⟩ :: g.created } :: rest
      futures := s.futures.set fut (some ⟨fork, s.cur, s.dag.length⟩) }
      (futs ++ [futureOf (g :: rest)]) := by
  have hfork : f.kind.outer s.cur = fork := by
    rw [hk]
    rfl
  obtain ⟨hchildren, hcreated, htop, hforked, hfuture, hrest⟩ := (futFrames_join h hok hf hfork).1
  have hle := (futFrames_join h hok hf hfork).2
  have hlt := (hok.returning hf).2.1
  rw [hfork] at hlt
  have hfut := h.frames
  have hlef := h.futureOf_le
  have hidle := hfut
  rw [hf] at hfut hlef hidle
  obtain ⟨-, -, -, hforked', hfuture', -⟩ := hfut
  obtain ⟨hforkfut, hwall⟩ := hforked' (by simp [hk])
  obtain ⟨-, hinside⟩ := hfuture' fut fork hk
  rw [hk] at hforkfut hwall
  have hg : futureOf ({ g with created := ⟨fork, s.cur⟩ :: g.created } :: rest) = futureOf (g :: rest) :=
    futureOf_of_kind rfl
  have hchild : CreatedOk s.dag futs (futureOf (g :: rest)) ⟨fork, s.cur⟩ := by
    refine ⟨hforkfut, ?_, fun y G hy hfork _ => hinside y G hy hfork⟩
    rw [hlast]
    exact hwall
  refine ⟨?_, ?_, le_futs h ?_ ?_, ⟨hchildren, ?_, ?_, hforked, hfuture, hrest⟩, ?_⟩
  · simp [h.length, State.start]
  · show (futs ++ [_])[s.dag.length]? = _
    rw [← h.length, hg]
    simp
  · simp
  · simpa using Nat.le_trans hidle.futureOf_le hlef
  · rw [hg]
    exact List.forall_mem_cons.mpr ⟨hchild.old h.length hok.cur_lt, hcreated⟩
  · intro c hc
    rcases List.mem_append.mp hc with hc | hc
    · exact htop c (List.mem_append_left _ hc)
    · rcases List.mem_cons.mp hc with rfl | hc
      · exact hle
      · exact htop c (List.mem_append_right _ hc)
  · exact h.real_single hok (Serial.single_lt hlt) hforkfut (by simp) (by simp)

/-- The edges of a sync: from the frame, from its children, and from the futures it has created. -/
theorem mem_syncEdges {cur : Strand} {f : Serial.Frame} {e : InEdge EdgeKind}
    (he : e ∈ Serial.syncEdges cur f) : e = ⟨cur, .sp⟩ ∨ (∃ c ∈ f.children, e = ⟨c.last, .sp⟩) ∨
      ∃ c ∈ f.created, e = ⟨c.last, .join⟩ := by
  simp only [Serial.syncEdges, List.mem_append, List.mem_cons, List.mem_map] at he
  rcases he with (rfl | ⟨c, hc, rfl⟩) | ⟨c, hc, rfl⟩
  · exact Or.inl rfl
  · exact Or.inr (Or.inl ⟨c, hc, rfl⟩)
  · exact Or.inr (Or.inr ⟨c, hc, rfl⟩)

/-- **The sync.** A path that comes back from a created future has left through its create. -/
theorem ownFuture_sync (h : OwnFuture s futs) (hok : Ok s) {f : Serial.Frame} {rest : List Serial.Frame}
    (hf : s.frames = f :: rest) : OwnFuture { s.start (Serial.syncEdges s.cur f) with
      frames := .new f.kind :: rest } (futs ++ [futureOf (f :: rest)]) := by
  have hes := Serial.syncEdges_lt hok hf
  have hfr := hok.frames
  have hfut := h.frames
  have hcur := h.cur
  have hlef := h.futureOf_le
  rw [hf] at hfr hfut hcur hlef
  have hsource : ∀ e ∈ Serial.syncEdges s.cur f, topFork (f :: rest) ≤ e.src := by
    intro e he
    obtain ⟨-, -, htop, -⟩ := hfut
    rcases mem_syncEdges he with rfl | ⟨c, hc, rfl⟩ | ⟨c, hc, rfl⟩
    · exact topFork_le hok.wf hfr
    · exact htop c (List.mem_append_left _ hc)
    · exact htop c (List.mem_append_right _ hc)
  have hg : futureOf (.new f.kind :: rest) = futureOf (f :: rest) := futureOf_of_kind rfl
  obtain ⟨-, -, -, hforked, hfuture, hrest⟩ :=
    FutFrames.extend hok.wf h.length hfr hfut (fun e he _ => hsource e he) (Nat.le_refl _)
  refine ⟨?_, ?_, le_futs h (Nat.le_refl _) hlef, ⟨?_, ?_, ?_, ?_, ?_, hrest⟩, ?_⟩
  · simp [h.length, State.start]
  · show (futs ++ [_])[s.dag.length]? = _
    rw [← h.length, hg]
    simp
  · simp [Serial.Frame.new]
  · simp [Serial.Frame.new]
  · simp [Serial.Frame.new]
  · exact hforked
  · exact hfuture
  · refine h.real_concat hok hes ?_
    intro x hx e he _ hr
    obtain ⟨hchildren, hcreated, -⟩ := hfut
    have hself : ∀ {y : Strand}, ⟨y, .sp⟩ ∈ Serial.syncEdges s.cur f → s.dag.Reach isDep x y →
        ∃ e' ∈ Serial.syncEdges s.cur f, isDep e'.kind ∧ s.dag.Reach isDep x e'.src :=
      fun hmem hr => ⟨_, hmem, Serial.isDep_of_isSp _ rfl, hr⟩
    rcases mem_syncEdges he with rfl | ⟨c, hc, rfl⟩ | ⟨c, hc, rfl⟩
    · exact hself he (h.real x s.cur _ hx hcur hr)
    · exact hself he (h.real x c.last _ hx (hchildren c hc) hr)
    · obtain ⟨hforkfut, hwall, hinside⟩ := hcreated c hc
      obtain ⟨hforkcur, hforklast, -⟩ := hfr.2.1 c hc
      apply hself (y := s.cur) (by simp [Serial.syncEdges])
      rcases Nat.lt_or_ge c.fork x with hlt | hle
      · -- strands inside the future belong to later futures
        exact absurd (hinside x _ hx hlt (hr.le hok.wf)) (Nat.lt_irrefl _)
      · have hrfork := hwall.reach hok.wf hle (Nat.lt_succ_self _) (hforklast.le hok.wf) hr
        exact (h.real x c.fork _ hx hforkfut hrfork).trans (hforkcur.mono Serial.isDep_of_isSp)

/-- The edge of a get is not in the view. -/
theorem ownFuture_get (h : OwnFuture s futs) (hok : Ok s) {fut : FutId} {fin : Serial.Finished}
    (hfin : s.futures[fut]? = some (some fin)) :
    OwnFuture (s.start [⟨s.cur, .sp⟩, ⟨fin.last, .get⟩]) (futs ++ [futureOf s.frames]) := by
  have hes : ∀ e ∈ ([⟨s.cur, .sp⟩, ⟨fin.last, .get⟩] : List (InEdge EdgeKind)), e.src < s.dag.length := by
    simp [hok.cur_lt, (hok.futures fut fin hfin).last_lt]
  have honly : ∀ e ∈ ([⟨s.cur, .sp⟩, ⟨fin.last, .get⟩] : List (InEdge EdgeKind)), isForkJoin e.kind →
      e.src = s.cur := by simp [isForkJoin]
  refine ⟨?_, ?_, le_futs h (Nat.le_refl _) h.futureOf_le, ?_, ?_⟩
  · simp [h.length, State.start]
  · show (futs ++ [_])[s.dag.length]? = some (futureOf s.frames)
    rw [← h.length]
    simp
  · apply FutFrames.extend hok.wf h.length hok.frames h.frames
    · intro e he hk
      rw [honly e he hk]
      exact topFork_le hok.wf hok.frames
    · exact Nat.le_refl _
  · exact h.real_single hok hes h.cur (by simp) honly

/-- A spawned child is of its parent's future. -/
theorem ownFuture_spawn (h : OwnFuture s futs) (hok : Ok s) (hlast : s.cur + 1 = s.dag.length)
    {f : Serial.Frame} {rest : List Serial.Frame} (hf : s.frames = f :: rest) :
    OwnFuture { s.start [⟨s.cur, .sp⟩] with
      frames := .new (.spawned s.cur) :: { f with unsynced := true } :: rest }
      (futs ++ [futureOf (f :: rest)]) := by
  have hcur := h.cur
  have hlef := h.futureOf_le
  rw [hf] at hcur hlef
  have hid : futureOf (.new (.spawned s.cur) :: { f with unsynced := true } :: rest) = futureOf (f :: rest) :=
    futureOf_of_kind rfl
  refine ⟨?_, ?_, le_futs h (Nat.le_refl _) hlef, ?_, ?_⟩
  · simp [h.length, State.start]
  · show (futs ++ [_])[s.dag.length]? = _
    rw [← h.length, hid]
    simp
  · exact futFrames_fork h hok hlast hf true rfl (Nat.le_refl _) (by rintro fut u ⟨⟩)
  · exact h.real_single hok (Serial.single_lt hok.cur_lt) hcur (by simp) (by simp)

/-- The first strand of a future is the only one of its future. -/
theorem ownFuture_create (h : OwnFuture s futs) (hok : Ok s) (hlast : s.cur + 1 = s.dag.length)
    {f : Serial.Frame} {rest : List Serial.Frame} (hf : s.frames = f :: rest) (unsynced : Bool) :
    OwnFuture { s.start [⟨s.cur, .sp⟩] with
      frames := .new (.future s.futures.length s.cur) :: { f with unsynced := unsynced } :: rest
      futures := s.futures ++ [none] } (futs ++ [s.futures.length + 1]) := by
  have hlef := h.futureOf_le
  rw [hf] at hlef
  refine ⟨?_, ?_, le_futs h ?_ ?_, ?_, ?_⟩
  · simp [h.length, State.start]
  · show (futs ++ [_])[s.dag.length]? = some (s.futures.length + 1)
    rw [← h.length]
    simp
  · simp
  · simp
  · apply futFrames_fork h hok hlast hf unsynced rfl (Nat.le_succ_of_le hlef)
    rintro fut u ⟨⟩
    exact ⟨rfl, rfl, Nat.lt_succ_of_le hlef⟩
  · refine h.real_concat hok (Serial.single_lt hok.cur_lt) ?_
    intro x hx
    exact absurd (h.le _ (List.mem_of_getElem? hx)) (Nat.not_succ_le_self _)

/-- **One event.** -/
theorem ownFuture_step (h : OwnFuture s futs) (hok : Ok s) (hlast : s.cur + 1 = s.dag.length) {e : Event}
    (hs : Step rules s e s') : ∃ futs', futs <+: futs' ∧ OwnFuture s' futs' := by
  cases hs with
  | @call f rest hf =>
      obtain ⟨hlen, hcur, hle, hfut, hreal⟩ := h
      rw [hf] at hcur hfut
      refine ⟨futs, List.prefix_rfl, hlen, hcur, hle, ?_, hreal⟩
      exact ⟨by simp [Serial.Frame.new], by simp [Serial.Frame.new], by simp [Serial.Frame.new],
        fun hk => absurd rfl hk, by rintro fut u ⟨⟩, hfut⟩
  | @ret f g rest hf hk _ =>
      obtain ⟨hlen, hcur, hle, hfut, hreal⟩ := h
      rw [hf] at hcur hfut
      have hid : futureOf (f :: g :: rest) = futureOf (g :: rest) := by simp [futureOf, hk]
      rw [hid] at hcur
      exact ⟨futs, List.prefix_rfl, hlen, hcur, hle, hfut.2.2.2.2.2, hreal⟩
  | spawn hf _ => exact ⟨_, List.prefix_append _ _, ownFuture_spawn h hok hlast hf⟩
  | spawnRet hf hk _ => exact ⟨_, List.prefix_append _ _, ownFuture_spawnRet h hok hf hk⟩
  | sync hf _ _ => exact ⟨_, List.prefix_append _ _, ownFuture_sync h hok hf⟩
  | synced => exact ⟨futs, List.prefix_rfl, h⟩
  | create hf _ => exact ⟨_, List.prefix_append _ _, ownFuture_create h hok hlast hf _⟩
  | finish hf hk _ => exact ⟨_, List.prefix_append _ _, ownFuture_finish h hok hlast hf hk⟩
  | get hfin => exact ⟨_, List.prefix_append _ _, ownFuture_get h hok hfin⟩

/-- Before the first event there is one strand, of the root. -/
theorem ownFuture_init : OwnFuture Serial.init [0] := by
  have hzero : ∀ {x F : Nat}, ([0] : List Nat)[x]? = some F → x = 0 := by
    intro x F hx
    exact Nat.lt_one_iff.mp (List.getElem?_eq_some_iff.mp hx).1
  refine ⟨rfl, rfl, by simp, ⟨by simp [Serial.Frame.new], by simp [Serial.Frame.new],
    by simp [Serial.Frame.new], fun hk => absurd rfl hk, by rintro fut u ⟨⟩, trivial⟩, ?_⟩
  intro x y F hx hy _
  rw [hzero hx, hzero hy]
  exact Dag.Reach.refl 0

end Steps

end FOrder.Rdtool
