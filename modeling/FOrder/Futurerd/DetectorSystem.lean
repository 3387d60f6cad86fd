import FOrder.Futurerd.DetectorCallbacks
import FOrder.Futurerd.NonblockSoundRuns

/-!
# `Futurerd.DetectorSystem` — whole runs of the detector

Whatever a program does, none of the detector's assertions fails. With MultiBags+ every race with the last access of
its kind is reported; with MultiBags, on structured futures, nothing else is.

Both are instances of `DetectorCallbacks`, which needs two things of a tool: that its invariant answers (`answers`),
and that an event keeps it. For MultiBags the invariant is `Inv` of `StructuredExact`, and a yes is a path and a no
is none. For MultiBags+ it is `Inv` of `NonblockRuns` beside `Told` of `NonblockSound`, and only a yes is known to
be a path: this is why `detector_complete` speaks of races that are missed, and not of reports that are wrong.

In both tools an access stores the bag of the frame on top. That this is the bag of the strand that makes the access
needs an argument for events that start no strand: they leave the bag on top where it is (`active_of_stays`).
-/

namespace FOrder.Futurerd

open Serial (Event FutId Strand State Step Ok Stays step_dag isDep)

/-- A query changes the reachability structure only. -/
theorem query_frame {σ φ ψ τ : Type} {ds : ReachDs σ φ ψ τ} {x x' : Exec σ φ ψ τ} {i : Strand} {answer : Bool}
    (h : Exec.query ds x i = some (x', answer)) :
    ∃ reach, x' = { x with tool := { x.tool with reach := reach } } := by
  obtain ⟨u, -, h⟩ := Option.bind_eq_some_iff.mp h
  obtain ⟨⟨reach, a⟩, -, h⟩ := Option.bind_eq_some_iff.mp h
  cases h
  exact ⟨reach, rfl⟩

/-! ## Structured futures

MultiBags answers exactly, so both directions of `Follows` apply. The legal gets are those of `StructuredGet`, with
the futures that have been got as the run's own record. -/

namespace Structured

abbrev Running := Exec Bags SframeData SfutData Nat

/-- The bag stored for the current strand is the one an access stores now. -/
structure Current (x : Running) : Prop where
  last : x.prog.cur + 1 = x.prog.dag.length
  stored : ∃ u, Driver.active ds x.tool = some u ∧ x.strands[x.prog.cur]? = some u

variable {x x' : Running} {got : List FutId}

/-- There is a bag for each strand. -/
theorem Inv.length (h : Inv x got) : x.strands.length = x.prog.dag.length := by
  obtain ⟨o, bags, hk⟩ := h
  rw [hk.strands.length]
  exact hk.bagsOk.length

/-- The program is in a state of a serial run. -/
theorem Inv.ok (h : Inv x got) : Ok x.prog := by
  obtain ⟨o, bags, hk⟩ := h
  exact hk.ok

/-- The tool has a frame for each frame of the program. -/
theorem FramesLinked.length_eq {o : Owner} : ∀ {frames : List Serial.Frame} {gs : Frames}, FramesLinked o frames gs →
    gs.length = frames.length
  | [], [], _ => rfl
  | _ :: _, _ :: _, h => congrArg Nat.succ h.2.2.2.2.length_eq

/-- So the tool has as many frames. -/
theorem Inv.frames (h : Inv x got) : x.tool.sstack.length = x.prog.frames.length := by
  obtain ⟨o, bags, hk⟩ := h
  exact hk.linked.frames.length_eq

/-- What is known of MultiBags. -/
def Tracked (got : List FutId) (x : Running) : Prop := Inv x got ∧ Current x

/-- MultiBags answers, and the answer is exact. -/
theorem answers (got : List FutId) :
    Answers ds (fun s j a => a = true ↔ s.dag.Reach isDep j s.cur) (Tracked got) where
  ok h := h.1.ok
  cur h := h.2.last
  length h := h.1.length
  frames h := h.1.frames
  active h := h.2.stored
  query := by
    rintro x i ⟨hinv, hcur⟩ hi
    obtain ⟨x', answer, hquery, hprog, hinv', hmeans⟩ := inv_query hinv hi
    obtain ⟨reach, rfl⟩ := query_frame hquery
    exact ⟨_, answer, hquery, ⟨hinv', hcur.last, hcur.stored⟩, hmeans⟩
  yes h := h.mp rfl

/-- **An event** that starts no strand leaves the bag where it is. -/
theorem active_of_stays (hinv : Inv x got) {e : Event} (hstays : Stays x.prog e)
    (htool : Driver.step ds x.tool e = some x'.tool) : Driver.active ds x'.tool = Driver.active ds x.tool := by
  obtain ⟨o, bags, hk⟩ := hinv
  have hframes := hk.linked.frames
  cases hstays with
  | call =>
      cases hst : x.tool.sstack with
      | nil =>
          simp [Driver.step, hst] at htool
      | cons p rest =>
          simp only [Driver.step, hst, ds, beginStrand, Option.bind_eq_bind, Option.bind_some, Option.some.injEq] at htool
          rw [← htool]
          simp [Driver.active, hst, ds]
  | @ret f g rest hf hfun =>
      rw [hf] at hframes
      obtain ⟨a, grest, hst⟩ := hframes.exists_cons
      rw [hst] at hframes
      obtain ⟨-, ⟨b, hb, hsb⟩, -, -, hbelow⟩ := hframes
      obtain ⟨p, grest', rfl⟩ := hbelow.exists_cons
      obtain ⟨-, ⟨b', hb', hsb'⟩, -⟩ := hbelow
      -- a called function is in the task of its caller
      have htask : Serial.taskDepth (f :: g :: rest) = Serial.taskDepth (g :: rest) := by
        rw [Serial.taskDepth, hfun]
      rw [htask, hsb'] at hsb
      simp only [Driver.step, hst, Option.some.injEq] at htool
      rw [← htool]
      simp [Driver.active, hst, ds, hb, hb', Option.some.inj hsb]
  | @synced f rest hf hu =>
      rw [hf] at hframes
      obtain ⟨a, grest, hst⟩ := hframes.exists_cons
      rw [hst] at hframes
      have hsynced : a.synced = true := by simpa [hu] using hframes.1
      simp only [Driver.step, hst, hsynced, if_true, Option.some.injEq] at htool
      rw [htool]

/-- A strand that starts stores the bag on top. -/
theorem Current.step (hinv : Inv x got) (hcur : Current x) {e : Event} (hexec : Exec.step ds rules x e = some x') :
    Current x' := by
  obtain ⟨hprog, htool, hstrands⟩ := exec_step_cases hexec
  rcases step_dag (Step.of_step hprog) with ⟨hdag, hc, hstays⟩ | ⟨es, hdag, hc⟩
  · rw [hdag, if_neg (Nat.lt_irrefl _)] at hstrands
    refine ⟨?_, ?_⟩
    · rw [hdag, hc]
      exact hcur.last
    · rw [active_of_stays hinv hstays htool, hc, ← Option.some.inj hstrands]
      exact hcur.stored
  · have hlt : x.prog.dag.length < x'.prog.dag.length := by
      rw [hdag]
      simp
    rw [if_pos hlt] at hstrands
    obtain ⟨u, hu, hstrands⟩ := Option.map_eq_some_iff.mp hstrands
    refine ⟨?_, u, hu, ?_⟩
    · rw [hc, hdag]
      simp
    · rw [hc, ← hinv.length, ← hstrands]
      simp

/-- At the start the bag on top is the one of the first strand. -/
theorem current_init (hx : Exec.init ds = some x) (hprog : x.prog = Serial.init) : Current x := by
  cases hx
  exact ⟨rfl, 0, rfl, rfl⟩

/-- **The detector follows** any program with structured futures. -/
theorem CallbackRun.follows {cbs : List Callback} {cap : Nat} {s : State} (h : CallbackRun StructuredGet cbs got cap s) :
    ∃ w, Watch.run ds rules cbs = some w ∧ w.prog = s ∧
      Follows (fun s j a => a = true ↔ s.dag.Reach isDep j s.cur) (Tracked got) cbs cap w := by
  induction h with
  | nil =>
      obtain ⟨x, hx, hprog, hinv⟩ := inv_init
      have hI : Tracked [] x := ⟨hinv, current_init hx hprog⟩
      obtain ⟨w, hw, rfl, hf⟩ := follows_init hx hprog hI
      exact ⟨w, hw, hprog, hf⟩
  | @event cbs got cap s s' cb e h hcb hs hget hroom ih =>
      obtain ⟨w, hrun, rfl, hf⟩ := ih
      obtain ⟨hinv, hcur⟩ := hf.watched.sees.reach
      obtain ⟨x', hexec, rfl, hinv'⟩ := inv_step hinv hs hget
      have hI : Tracked (Serial.gotAfter true got e) x' := ⟨hinv', hcur.step hinv hexec⟩
      obtain ⟨w', hstep, rfl, hf'⟩ := (answers got).follows_event hf hcb hroom hI hinv'.frames hexec
        (CallbackRun.event h hcb hs hget hroom).strandAfter
      exact ⟨w', by rw [Watch.run_concat, hrun]; exact hstep, rfl, hf'⟩
  | @quiet cbs got cap s cb h hcb hpromised ih =>
      obtain ⟨w, hrun, rfl, hf⟩ := ih
      obtain ⟨w', hstep, hprog, hf'⟩ := (answers got).follows_quiet hf hcb hpromised h.strandAfter
      exact ⟨w', by rw [Watch.run_concat, hrun]; exact hstep, hprog, hf'⟩

/-- **The detector with MultiBags is exact.** Whatever a program with structured futures does, no assertion fails, and
`report_race` is called for a grain if and only if there is a race on it. -/
theorem detector_exact {cbs : List Callback} {cap : Nat} {s : State} (h : CallbackRun StructuredGet cbs got cap s) :
    ∃ w, Watch.run ds rules cbs = some w ∧ w.prog = s ∧
      ∀ g, (∃ r ∈ w.races, r.grain = g) ↔ RaceOn s.dag cbs g := by
  obtain ⟨w, hrun, rfl, hf⟩ := CallbackRun.follows h
  have hok := hf.watched.sees.reach.1.ok
  refine ⟨w, hrun, rfl, ?_⟩
  intro g
  constructor
  · rintro ⟨r, hr, rfl⟩
    exact hf.real hok (fun s j hno hreach => absurd (hno.mpr hreach) (by simp)) hr
  · exact hf.reported hok

/-- A future and the continuation of its create write the same word, and the same single byte. -/
def twoWriters : List Callback :=
  [.enterBegin, .enterEnd, .futureCreate, .access ⟨false, 1, 64, 4, ()⟩, .access ⟨false, 2, 80, 1, ()⟩, .futureFinishBegin,
    .futureFinishEnd 0, .access ⟨false, 3, 64, 8, ()⟩, .access ⟨false, 4, 80, 1, ()⟩]

/-- The callbacks are those of a structured program. -/
theorem callbackRun_twoWriters : ∃ cap s, CallbackRun StructuredGet twoWriters [] cap s ∧
    s.dag = [[], [⟨0, .sp⟩], [⟨0, .sp⟩]] := by
  have hnoget : ∀ (e : Event) (s : State) (got : List FutId), (∀ fut, e ≠ .get fut) →
      ∀ fut, e = .get fut → StructuredGet s got fut := fun _ _ _ h fut heq => absurd heq (h fut)
  have henter : CallbackRun StructuredGet [.enterBegin] [] _ _ :=
    CallbackRun.nil.event rfl rfl (hnoget .call _ _ (by simp)) (fun _ => by decide)
  have hend : CallbackRun StructuredGet [.enterBegin, .enterEnd] [] _ _ := henter.quiet rfl trivial
  have hcreate : CallbackRun StructuredGet [.enterBegin, .enterEnd, .futureCreate] [] _ _ :=
    hend.event rfl rfl (hnoget .create _ _ (by simp)) (by simp)
  have hword : CallbackRun StructuredGet (twoWriters.take 4) [] _ _ :=
    hcreate.quiet rfl ⟨Or.inl ⟨by decide, rfl⟩, by decide⟩
  have hbyte : CallbackRun StructuredGet (twoWriters.take 5) [] _ _ := hword.quiet rfl ⟨Or.inl ⟨by decide, rfl⟩, by decide⟩
  have hbegin : CallbackRun StructuredGet (twoWriters.take 6) [] _ _ := hbyte.quiet rfl trivial
  have hfinish : CallbackRun StructuredGet (twoWriters.take 7) [] _ _ :=
    hbegin.event rfl rfl (hnoget (.finish 0) _ _ (by simp)) (by simp)
  have hagain : CallbackRun StructuredGet (twoWriters.take 8) [] _ _ :=
    hfinish.quiet rfl ⟨Or.inl ⟨by decide, rfl⟩, by decide⟩
  exact ⟨_, _, hagain.quiet rfl ⟨Or.inl ⟨by decide, rfl⟩, by decide⟩, rfl⟩

/-- The race is on grain `16`; only one of the writes has grain `17`, and no write of a byte has grain `20`. -/
theorem detector_exact_twoWriters : ∃ w, Watch.run ds rules twoWriters = some w ∧
    RaceOn w.prog.dag twoWriters 16 ∧ ¬RaceOn w.prog.dag twoWriters 17 ∧ ¬RaceOn w.prog.dag twoWriters 20 := by
  obtain ⟨cap, s, h, -⟩ := callbackRun_twoWriters
  obtain ⟨w, hrun, rfl, hexact⟩ := detector_exact h
  have hraces : (Watch.run ds rules twoWriters).map (fun w => w.races.map RaceReport.grain) = some [16] := by
    decide +kernel
  have hgrains : w.races.map RaceReport.grain = [16] := by
    rw [hrun] at hraces
    exact Option.some.inj hraces
  have hmem : ∀ g, RaceOn w.prog.dag twoWriters g ↔ g = 16 := by
    intro g
    rw [← hexact, ← List.mem_map, hgrains, List.mem_singleton]
  exact ⟨w, hrun, (hmem 16).mpr rfl, fun h => absurd ((hmem 17).mp h) (by decide),
    fun h => absurd ((hmem 20).mp h) (by decide)⟩

end Structured

/-! ## All futures

MultiBags+ is asked through its bags first, and then through its sets; a yes is a path either way. Gets are
unrestricted, and what limits a run is the number of its strands. -/

namespace Nonblock

abbrev Running := Exec State SframeData SfutData Nat

/-- What is known of MultiBags+. -/
def Tracked (x : Running) : Prop :=
  ∃ b h locs sbags, Inv x b h locs sbags ∧ Told x.prog.dag (LastOf x.prog.futures) x.tool.reach.mR x.tool.reach
    (Nonblock.items x.prog.frames) x.prog.cur

variable {x x' : Running}

theorem answers : Answers ds (fun s j a => a = true → s.dag.Reach isDep j s.cur) Tracked where
  ok := by
    rintro x ⟨b, h, locs, sbags, hinv, -⟩
    exact hinv.known.ok
  cur := by
    rintro x ⟨b, h, locs, sbags, hinv, -⟩
    exact hinv.cur
  length := by
    rintro x ⟨b, h, locs, sbags, hinv, -⟩
    rw [hinv.strands, List.length_range]
  frames := by
    rintro x ⟨b, h, locs, sbags, hinv, -⟩
    exact hinv.frames.length_eq.symm
  active := by
    rintro x ⟨b, h, locs, sbags, hinv, -⟩
    obtain ⟨f, rest, hf⟩ : ∃ f rest, x.prog.frames = f :: rest :=
      List.exists_cons_of_ne_nil hinv.known.stack.nonempty
    obtain ⟨g, grest, hg, -, -⟩ := hinv.top hf
    refine ⟨x.prog.cur, ?_, ?_⟩
    · simp [Driver.active, hg, ds, hinv.tCurrent]
    · rw [hinv.strands]
      exact List.getElem?_range hinv.known.ok.cur_lt
  query := by
    rintro x i ⟨b, h, locs, sbags, hinv, ht⟩ hi
    obtain ⟨x', answer, b', hquery, hprog, hinv', hR, -⟩ := inv_query hinv hi
    obtain ⟨hsame, hyes⟩ := query_sound hinv ht hi hquery
    refine ⟨x', answer, hquery, ⟨b', h, locs, sbags, hinv', ?_⟩, hyes⟩
    rw [hR, hprog]
    exact hsame.told ht
  yes h := h rfl

/-- An event keeps what is known of MultiBags+. -/
theorem Tracked.step {e : Event} {s' : Serial.State} (hx : Tracked x) (hroom : s'.dag.length + 1 < 2 ^ 64)
    (hs : Serial.step rules x.prog e = some s') :
    ∃ x', Exec.step ds rules x e = some x' ∧ x'.prog = s' ∧ Tracked x' := by
  obtain ⟨b, h, locs, sbags, hinv, ht⟩ := hx
  have hstep := Step.of_step hs
  have hle := dag_length_le hstep
  obtain ⟨x', b', h', locs', sbags', hexec, hs', hinv', hacts⟩ := inv_step hinv (by omega) hs
  subst hs'
  have hk := hinv.known
  have htold := hacts.told hstep hk.ok hk.stack hinv.nodes hinv'.nodes hinv.live hinv.curLt hinv.tCurrent
    hinv.length hinv'.length (by rw [hinv.length]; omega) ht
  exact ⟨x', hexec, rfl, b', h', locs', sbags', hinv', htold⟩

/-- **The detector follows** any program. -/
theorem CallbackRun.follows {legal : Serial.State → List FutId → FutId → Prop} {cbs : List Callback} {got : List FutId}
    {cap : Nat} {s : Serial.State} (h : CallbackRun legal cbs got cap s) (hroom : s.dag.length + 1 < 2 ^ 64) :
    ∃ w, Watch.run ds rules cbs = some w ∧ w.prog = s ∧
      Follows (fun s j a => a = true → s.dag.Reach isDep j s.cur) Tracked cbs cap w := by
  induction h with
  | nil =>
      obtain ⟨x, b, h, locs, sbags, hx, hprog, hreach, hinv⟩ := inv_init
      have hI : Tracked x := by
        refine ⟨b, h, locs, sbags, hinv, ?_⟩
        rw [hprog, hreach]
        exact told_initial
      obtain ⟨w, hw, rfl, hf⟩ := follows_init hx hprog hI
      exact ⟨w, hw, hprog, hf⟩
  | @event cbs got cap s s' cb e h hcb hs hget hfull ih =>
      have hle := dag_length_le (Step.of_step hs)
      obtain ⟨w, hrun, rfl, hf⟩ := ih (by omega)
      obtain ⟨x', hexec, rfl, hI⟩ := Tracked.step hf.watched.sees.reach hroom hs
      obtain ⟨w', hstep, rfl, hf'⟩ := answers.follows_event hf hcb hfull hI (answers.frames hI) hexec
        (CallbackRun.event h hcb hs hget hfull).strandAfter
      exact ⟨w', by rw [Watch.run_concat, hrun]; exact hstep, rfl, hf'⟩
  | @quiet cbs got cap s cb h hcb hpromised ih =>
      obtain ⟨w, hrun, rfl, hf⟩ := ih hroom
      obtain ⟨w', hstep, hprog, hf'⟩ := answers.follows_quiet hf hcb hpromised h.strandAfter
      exact ⟨w', by rw [Watch.run_concat, hrun]; exact hstep, hprog, hf'⟩

/-- **The detector with MultiBags+ misses no race.** Whatever a program does, no assertion fails, and `report_race` is
called for each grain that has a race on it. -/
theorem detector_complete {legal : Serial.State → List FutId → FutId → Prop} {cbs : List Callback} {got : List FutId}
    {cap : Nat} {s : Serial.State} (h : CallbackRun legal cbs got cap s) (hroom : s.dag.length + 1 < 2 ^ 64) :
    ∃ w, Watch.run ds rules cbs = some w ∧ w.prog = s ∧
      ∀ g, RaceOn s.dag cbs g → ∃ r ∈ w.races, r.grain = g := by
  obtain ⟨w, hrun, rfl, hf⟩ := CallbackRun.follows h hroom
  obtain ⟨b, o, locs, sbags, hinv, -⟩ := hf.watched.sees.reach
  exact ⟨w, hrun, rfl, fun g => hf.reported hinv.known.ok⟩

/-- The strands of a future and of the continuation of its create. -/
theorem parallel_twoWriters : Dag.Parallel [[], [⟨0, .sp⟩], [⟨0, .sp⟩]] isDep 1 2 := by
  have hfrom : ∀ {x y : Nat}, Dag.Path [[], [⟨0, .sp⟩], [⟨0, .sp⟩]] isDep x y → x = 0 := by
    intro x y hpath
    obtain ⟨z, ⟨es, hes, e, he, rfl, -⟩, -⟩ := Relation.TransGen.head'_iff.mp hpath
    match z, hes with
    | 0, hes =>
        cases hes
        cases he
    | 1, hes | 2, hes =>
        cases hes
        rw [List.mem_singleton.mp he]
  exact ⟨by decide, fun h => absurd (hfrom h) (by decide), fun h => absurd (hfrom h) (by decide)⟩

/-- And they race. -/
theorem raceOn_twoWriters : RaceOn [[], [⟨0, .sp⟩], [⟨0, .sp⟩]] Structured.twoWriters 16 := by
  have hlast : LastOn (Structured.twoWriters.take 7) 16 false 1 := by
    have hwrite : LastOn (Structured.twoWriters.take 4) 16 false 1 := by
      have hchecks : ChecksOn (Structured.twoWriters.take 3) := by decide
      have hstrand : strandAfter (Structured.twoWriters.take 3) = some 1 := by decide
      refine lastOn_concat.mpr (Or.inl ⟨⟨false, 1, 64, 4, ()⟩, rfl, ⟨hchecks, by decide, ?_⟩, rfl, hstrand⟩)
      exact ⟨64, by decide, by decide, rfl⟩
    have hbyte : LastOn (Structured.twoWriters.take 5) 16 false 1 := by
      refine lastOn_concat.mpr (Or.inr ⟨hwrite, ?_⟩)
      rintro (⟨a, heq, ⟨-, hsize, -⟩, -⟩ | hclears)
      · cases heq
        exact absurd hsize (by decide)
      · exact hclears
    have hbegin : LastOn (Structured.twoWriters.take 6) 16 false 1 := (lastOn_quiet (by simp) id).mpr hbyte
    exact (lastOn_quiet (by simp) id).mpr hbegin
  refine ⟨Structured.twoWriters.take 7, ⟨false, 3, 64, 8, ()⟩, _, rfl, ⟨by decide, by decide, ?_⟩, false, 1, 2, hlast,
    by decide, Or.inl rfl, parallel_twoWriters⟩
  exact ⟨64, by decide, by decide, rfl⟩

/-- The same race is reported. -/
theorem detector_complete_twoWriters : ∃ w, Watch.run ds rules Structured.twoWriters = some w ∧
    RaceOn w.prog.dag Structured.twoWriters 16 ∧ ∃ r ∈ w.races, r.grain = 16 := by
  obtain ⟨cap, s, h, hdag⟩ := Structured.callbackRun_twoWriters
  obtain ⟨w, hrun, rfl, hreported⟩ := detector_complete h (by rw [hdag]; decide)
  have hrace : RaceOn w.prog.dag Structured.twoWriters 16 := by
    rw [hdag]
    exact raceOn_twoWriters
  exact ⟨w, hrun, hrace, hreported 16 hrace⟩

end Nonblock

end FOrder.Futurerd
