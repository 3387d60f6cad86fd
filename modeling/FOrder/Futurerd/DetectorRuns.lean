import FOrder.Futurerd.DetectorRaces
import FOrder.Serial.Bags

/-!
# `Futurerd.DetectorRuns` — callbacks in a row

One callback keeps what is known of the reports so far, over any reachability structure that answers; and what is
checked at the slots are the races on the grains.

`Watched` is the invariant: the shadow memory mirrors the log, every conflict that was checked and has no path is
reported, and, when a no can be trusted, nothing else is. A later event does not take this back: `Complete.grow` and
`Sound.grow`, since a new strand leaves the paths between earlier ones as they were.

A callback is an event of the program (`Answers.event`) or makes calls (`Answers.quiet`), never both: `FlagsOk.step`
says so, with what the calls are like. That needs what the environment promises of the addresses
(`Callback.Promised`); the range of a `clear` begins and ends with a block only because frames and watermarks do.

`logRace_iff` then leaves the slots: the last access to a slot since it was cleared is the last access to its grain
since that was cleared, if all accesses are of whole grains or of less than one.
-/

namespace FOrder.Futurerd

open Serial (Event FutId Strand State Step Ok Stays step_dag isDep)

variable {σ φ ψ τ : Type} {ds : ReachDs σ φ ψ τ} {means : State → Strand → Bool → Prop} {I : Exec σ φ ψ τ → Prop}

/-! ## What has been reported

`Complete` and `Sound` compare the reports so far with the checks that the log tells of. Both speak of paths in the
dag of today, although the checks were made in the dag of their time: the strands were there then, and paths between
them have not changed. -/

/-- Call `a` was checked against `b` at a slot, and they conflict. -/
structure Checks (log : List (Call Strand)) (a b : Access Strand) (key : Addr) (i : Nat) : Prop where
  call : ∃ pre post, log = pre ++ .check a :: post ∧ LastAt pre key i b
  touches : TouchesCell a key i
  conflict : b.isRead = false ∨ a.isRead = false

/-- What is checked against the last access of a log. -/
theorem checks_concat {log : List (Call Strand)} {c : Call Strand} {a b : Access Strand} {key : Addr} {i : Nat} :
    Checks (log ++ [c]) a b key i ↔ Checks log a b key i ∨
      (c = .check a ∧ LastAt log key i b ∧ TouchesCell a key i ∧ (b.isRead = false ∨ a.isRead = false)) := by
  constructor
  · rintro ⟨⟨pre, post, heq, hlast⟩, ht, hconflict⟩
    rcases concat_eq_append_cons.mp heq with ⟨rfl, rfl, -⟩ | ⟨post', rfl, -⟩
    · exact Or.inr ⟨rfl, hlast, ht, hconflict⟩
    · exact Or.inl ⟨⟨pre, post', rfl, hlast⟩, ht, hconflict⟩
  · rintro (⟨⟨pre, post, rfl, hlast⟩, ht, hconflict⟩ | ⟨rfl, hlast, ht, hconflict⟩)
    · exact ⟨⟨pre, post ++ [c], by simp, hlast⟩, ht, hconflict⟩
    · exact ⟨⟨log, [], rfl, hlast⟩, ht, hconflict⟩

/-- Every conflict that was checked and has no path is reported. -/
def Complete (d : Dag Serial.EdgeKind) (log : List (Call Strand)) (races : List RaceReport) : Prop :=
  ∀ a b key i, Checks log a b key i → ¬d.Reach isDep b.current a.current → ∃ r ∈ races, r.grain = grainOf key i

/-- What is reported is such a conflict. -/
def Sound (d : Dag Serial.EdgeKind) (log : List (Call Strand)) (races : List RaceReport) : Prop :=
  ∀ r ∈ races, ∃ a b key i, Checks log a b key i ∧ r.grain = grainOf key i ∧ ¬d.Reach isDep b.current a.current

/-- A call of the log: its range or grains, and its strand. -/
def Made (d : Dag Serial.EdgeKind) (c : Call Strand) : Prop := c.Good ∧ ∀ a, c = .check a → a.current < d.length

section Log

variable {d : Dag Serial.EdgeKind} {log : List (Call Strand)} {races new : List RaceReport} {c : Call Strand}

/-- A call was made by a strand that is there. -/
theorem Checks.lt {a b : Access Strand} {key : Addr} {i : Nat} (h : Checks log a b key i) (hmade : ∀ c ∈ log, Made d c) :
    a.current < d.length := by
  obtain ⟨pre, post, rfl, -⟩ := h.call
  exact (hmade _ (by simp)).2 a rfl

/-- A new strand is after all that was reported. -/
theorem Complete.grow (h : Complete d log races) (hwf : d.WF) (hmade : ∀ c ∈ log, Made d c)
    (es : List (InEdge Serial.EdgeKind)) : Complete (d ++ [es]) log races := by
  intro a b key i hchecks hno
  refine h a b key i hchecks ?_
  rwa [← Dag.reach_concat_old hwf (hchecks.lt hmade)]

/-- And nothing that was reported gets a path. -/
theorem Sound.grow (h : Sound d log races) (hwf : d.WF) (hmade : ∀ c ∈ log, Made d c)
    (es : List (InEdge Serial.EdgeKind)) : Sound (d ++ [es]) log races := by
  intro r hr
  obtain ⟨a, b, key, i, hchecks, hgrain, hno⟩ := h r hr
  refine ⟨a, b, key, i, hchecks, hgrain, ?_⟩
  rwa [Dag.reach_concat_old hwf (hchecks.lt hmade)]

variable {prog : State}

/-- **One call** reports what it has to. -/
theorem Complete.call (h : Complete prog.dag log races) (hyes : ∀ j, means prog j true → prog.dag.Reach isDep j prog.cur)
    (hcur : ∀ a, c = .check a → a.current = prog.cur) (hnew : c.Reports means prog log new) :
    Complete prog.dag (log ++ [c]) (races ++ new) := by
  intro a b key i hchecks hno
  rcases checks_concat.mp hchecks with hold | ⟨rfl, hlast, ht, hconflict⟩
  · obtain ⟨r, hr, hgrain⟩ := h a b key i hold hno
    exact ⟨r, List.mem_append_left _ hr, hgrain⟩
  · rw [hcur a rfl] at hno
    obtain ⟨r, hr, hgrain⟩ := hnew.complete key i b ht hlast hconflict (fun hm => hno (hyes _ hm))
    exact ⟨r, List.mem_append_right _ hr, hgrain⟩

/-- **One call** reports nothing else, when a no means that there is no path. -/
theorem Sound.call (h : Sound prog.dag log races) (hno : ∀ j, means prog j false → ¬prog.dag.Reach isDep j prog.cur)
    (hcur : ∀ a, c = .check a → a.current = prog.cur) (hnew : c.Reports means prog log new) :
    Sound prog.dag (log ++ [c]) (races ++ new) := by
  intro r hr
  rcases List.mem_append.mp hr with hr | hr
  · obtain ⟨a, b, key, i, hchecks, hgrain, hpath⟩ := h r hr
    exact ⟨a, b, key, i, checks_concat.mpr (Or.inl hchecks), hgrain, hpath⟩
  · cases c with
    | check a =>
        obtain ⟨key, i, b, ht, hgrain, hlast, hconflict, hmeans⟩ := hnew.sound r hr
        refine ⟨a, b, key, i, checks_concat.mpr (Or.inr ⟨rfl, hlast, ht, hconflict⟩), hgrain, ?_⟩
        rw [hcur a rfl]
        exact hno _ hmeans
    | clear start stop =>
        rw [show new = [] from hnew] at hr
        cases hr

end Log

/-! ## One callback

The flags decide which calls a callback makes, and the calls are then performed. That the calls do not fail is where
the promises come in: a range that does not begin and end with a block would fail an assertion of `clear`, or clear
too much. -/

/-- Strands make their calls in their order. -/
def InOrder (log : List (Call Strand)) : Prop :=
  log.Pairwise fun c c' => ∀ a b, c = .check a → c' = .check b → a.current ≤ b.current

/-- What is known after a run so far. -/
structure Watched (means : State → Strand → Bool → Prop) (I : Exec σ φ ψ τ → Prop) (w : Watch σ φ ψ τ) : Prop where
  sees : Sees I w.prog w.strands w.det w.log
  made : ∀ c ∈ w.log, Made w.prog.dag c
  order : InOrder w.log
  complete : Complete w.prog.dag w.log w.races
  sound : (∀ s j, means s j false → ¬s.dag.Reach isDep j s.cur) → Sound w.prog.dag w.log w.races

/-- The calls of a callback, one after the other. -/
theorem Answers.performAll (h : Answers ds means I) {w : Watch σ φ ψ τ} (hw : Watched means I w) {calls : List (Call Unit)}
    (hgood : ∀ c ∈ calls, c.Good) :
    ∃ det races, Detector.performAll ds w.det calls = some (det, races) ∧ det.flags = w.det.flags ∧ det.cap = w.det.cap ∧
      Watched means I { w with det := det, log := w.log ++ calls.map (Call.by w.prog.cur), races := w.races ++ races } := by
  induction calls generalizing w with
  | nil => exact ⟨w.det, [], rfl, rfl, rfl, by simpa using hw⟩
  | cons c cs ih =>
      obtain ⟨det₁, r₁, hrun₁, hflags₁, hcap₁, hsees₁, hnew₁⟩ := h.perform hw.sees (hgood c (by simp))
      have hcur : ∀ a, c.by w.prog.cur = .check a → a.current = w.prog.cur := by
        intro a ha
        cases c with
        | check b =>
            cases ha
            rfl
        | clear start stop => cases ha
      have hw₁ : Watched means I { w with det := det₁, log := w.log ++ [c.by w.prog.cur], races := w.races ++ r₁ } := by
        refine ⟨hsees₁, ?_, ?_, hw.complete.call (fun j => h.yes) hcur hnew₁, fun hno => (hw.sound hno).call (hno _) hcur hnew₁⟩
        · intro c' hc'
          rcases List.mem_append.mp hc' with hc' | hc'
          · exact hw.made c' hc'
          · obtain rfl := List.mem_singleton.mp hc'
            refine ⟨?_, ?_⟩
            · have hc := hgood c (by simp)
              cases c with
              | check b => exact hc
              | clear start stop => exact hc
            · intro a ha
              rw [hcur a ha]
              exact (h.ok hw.sees.reach).cur_lt
        · refine List.pairwise_append.mpr ⟨hw.order, List.pairwise_singleton _ _, ?_⟩
          intro c₁ hc₁ c₂ hc₂ a b ha hb
          rw [List.mem_singleton.mp hc₂] at hb
          rw [hcur b hb]
          have hlt := (hw.made c₁ hc₁).2 a ha
          have hlast : w.prog.cur + 1 = w.prog.dag.length := h.cur hw.sees.reach
          rw [← hlast] at hlt
          exact Nat.le_of_lt_succ hlt
      obtain ⟨det₂, r₂, hrun₂, hflags₂, hcap₂, hw₂⟩ := ih hw₁ (fun c' hc' => hgood c' (by simp [hc']))
      refine ⟨det₂, r₁ ++ r₂, by simp [Detector.performAll, hrun₁, hrun₂], hflags₂.trans hflags₁, hcap₂.trans hcap₁, ?_⟩
      simpa using hw₂

/-- The watermark is unset, or the start of a block. -/
def FlagsOk (f : Flags) : Prop := f.stackLowWatermark = BitVec.allOnes 64 ∨ f.stackLowWatermark.toNat % 16 = 0

/-- What the compiler, the calling convention and the C library promise: accesses do not cross a boundary of their size,
    frames and blocks from `malloc` start at multiples of 16, addresses have 48 bits, and callers are above. -/
def Callback.Promised : Callback → Prop
  | .access a => Rdtool.Delivered a ∧ a.addr.toNat + a.memSize ≤ 2 ^ 48
  | .markStackAllocate addr => addr.toNat % 16 = 0
  | .funcEntry frame => frame.toNat % 16 = 0 ∧ frame.toNat < 2 ^ 48
  | .funcExit frame caller =>
      frame.toNat % 16 = 0 ∧ caller.toNat % 16 = 0 ∧ frame.toNat ≤ caller.toNat ∧ caller.toNat < 2 ^ 48
  | .forIterationEnd frame caller =>
      frame.toNat % 16 = 0 ∧ caller.toNat % 16 = 0 ∧ 0 < frame.toNat ∧ frame.toNat ≤ caller.toNat ∧ caller.toNat < 2 ^ 48
  | .malloc block size => block.toNat % 16 = 0 ∧ block.toNat + size + 15 < 2 ^ 48
  | _ => True

/-- The lower of the watermark and a frame is the start of a block, and not above the frame. -/
theorem FlagsOk.lower {f : Flags} (h : FlagsOk f) {frame : Addr} (hframe : frame.toNat % 16 = 0)
    (hlt : frame.toNat < 2 ^ 48) : (f.lower frame).stackLowWatermark.toNat % 16 = 0 ∧
      (f.lower frame).stackLowWatermark.toNat ≤ frame.toNat ∧ (f.lower frame).shadowEnabled = f.shadowEnabled ∧
      (f.lower frame).clearStack = f.clearStack := by
  unfold Flags.lower
  split
  · exact ⟨hframe, Nat.le_refl _, rfl, rfl⟩
  · rename_i hnot
    have hle : f.stackLowWatermark.toNat ≤ frame.toNat := Nat.le_of_not_lt hnot
    refine ⟨h.resolve_left ?_, hle, rfl, rfl⟩
    intro hall
    rw [hall] at hle
    simp at hle
    omega

/-- The calls that an access is split into. -/
theorem tsanEntry_good {a : Access Unit} (ha : Rdtool.Delivered a) :
    ∃ calls, Rdtool.tsanEntry a = some calls ∧ ∀ c ∈ calls, (Call.check c).Good := by
  by_cases hsize : 4 ≤ a.memSize
  · obtain ⟨calls, hrun, hparts⟩ := Rdtool.tsanEntry_parts ha hsize
    exact ⟨calls, hrun, fun c hc => Or.inl (hparts.aligned c hc)⟩
  · have hsmall := ha.small hsize
    refine ⟨[a], (Rdtool.tsanEntry_small ha (Nat.lt_of_not_le hsize)).1, ?_⟩
    intro c hc
    obtain rfl := List.mem_singleton.mp hc
    exact Or.inr hsmall

/-- **The flags** after a callback, and its calls. -/
theorem FlagsOk.step {f : Flags} (h : FlagsOk f) {cb : Callback} (hcb : cb.Promised) :
    ∃ f' calls, f.step cb = some (f', calls) ∧ FlagsOk f' ∧ (∀ c ∈ calls, c.Good) ∧
      (cb.event.isSome = true → calls = []) := by
  have hquiet : ∀ f' : Flags, f.step cb = some (f', []) → f'.stackLowWatermark = f.stackLowWatermark →
      ∃ f' calls, f.step cb = some (f', calls) ∧ FlagsOk f' ∧ (∀ c ∈ calls, c.Good) ∧
        (cb.event.isSome = true → calls = []) := by
    intro f' hrun hsame
    refine ⟨f', [], hrun, ?_, by simp, fun _ => rfl⟩
    unfold FlagsOk
    rw [hsame]
    exact h
  cases cb with
  | access a =>
      obtain ⟨calls, hrun, hgood⟩ := tsanEntry_good hcb.1
      refine ⟨f, if f.shouldCheck then calls.map .check else [], by simp [Flags.step, hrun], h, ?_, by simp [Callback.event]⟩
      intro c hc
      split at hc
      · obtain ⟨b, hb, rfl⟩ := List.mem_map.mp hc
        exact hgood b hb
      · cases hc
  | markStackAllocate addr => exact ⟨_, [], rfl, Or.inr hcb, by simp, fun _ => rfl⟩
  | funcEntry frame =>
      obtain ⟨hmod, -⟩ := h.lower hcb.1 hcb.2
      exact ⟨_, [], rfl, Or.inr hmod, by simp, fun _ => rfl⟩
  | funcExit frame caller =>
      obtain ⟨hframe, hcaller, hle, hlt⟩ := hcb
      obtain ⟨hmod, hlow, -⟩ := h.lower hframe (Nat.lt_of_le_of_lt hle hlt)
      by_cases hclear : (f.lower frame).shadowEnabled && (f.lower frame).clearStack
      · have hset : (f.lower frame).stackLowWatermark ≠ BitVec.allOnes 64 := by
          intro hall
          rw [hall] at hlow
          simp at hlow
          omega
        have hbelow : (f.lower frame).stackLowWatermark ≤ caller := Nat.le_trans hlow hle
        refine ⟨{ f.lower frame with stackLowWatermark := caller, clearStack := false },
          [.clear (f.lower frame).stackLowWatermark caller], ?_, Or.inr hcaller, ?_, by simp [Callback.event]⟩
        · simp only [Flags.step, if_pos hclear, if_pos (And.intro hset hbelow)]
        intro c hc
        obtain rfl := List.mem_singleton.mp hc
        exact ⟨hmod, hcaller, hbelow, Nat.le_of_lt hlt⟩
      · exact ⟨_, [], by simp only [Flags.step, if_neg hclear], Or.inr hmod, by simp, fun _ => rfl⟩
  | forIterationEnd frame caller =>
      obtain ⟨hframe, hcaller, hpos, hle, hlt⟩ := hcb
      have htest : frame ≠ 0 ∧ frame ≠ BitVec.allOnes 64 ∧ caller ≠ 0 ∧ frame ≤ caller := by
        refine ⟨?_, ?_, ?_, hle⟩
        · rintro rfl
          simp at hpos
        · rintro rfl
          simp at hle
          omega
        · rintro rfl
          simp at hle
          omega
      refine ⟨f.disable, [.clear frame caller], by simp only [Flags.step, if_pos htest], h, ?_, by simp [Callback.event]⟩
      intro c hc
      obtain rfl := List.mem_singleton.mp hc
      exact ⟨hframe, hcaller, hle, Nat.le_of_lt hlt⟩
  | malloc block size =>
      obtain ⟨hblock, hroom⟩ := hcb
      refine ⟨f, _, rfl, h, ?_, by simp [Callback.event]⟩
      intro c hc
      split at hc
      · obtain rfl := List.mem_singleton.mp hc
        have hsize : (BitVec.ofNat 64 size).toNat = size := by
          rw [BitVec.toNat_ofNat]
          exact Nat.mod_eq_of_lt (by omega)
        have hle := alignByNext_le (BitVec.ofNat 64 size) (by rw [hsize]; omega)
        have hmod := alignByNext_mod (BitVec.ofNat 64 size)
        rw [hsize] at hle
        have hadd : (block + ShadowMem.alignByNextMaxGrainSize (BitVec.ofNat 64 size)).toNat =
            block.toNat + (ShadowMem.alignByNextMaxGrainSize (BitVec.ofNat 64 size)).toNat := by
          rw [BitVec.toNat_add]
          exact Nat.mod_eq_of_lt (by omega)
        refine ⟨hblock, ?_, ?_, ?_⟩
        · rw [hadd]
          omega
        · rw [hadd]
          omega
        · rw [hadd]
          omega
      · cases hc
  | _ => exact hquiet _ rfl rfl

section Callback

variable {rules : Serial.Rules} {w : Watch σ φ ψ τ} {cb : Callback} {e : Event} {f : Flags} {x' : Exec σ φ ψ τ}

/-- A step of the tool beside the program: a step of each, and what is stored for a strand that starts. -/
theorem exec_step_cases {x : Exec σ φ ψ τ} (h : Exec.step ds rules x e = some x') :
    Serial.step rules x.prog e = some x'.prog ∧ Driver.step ds x.tool e = some x'.tool ∧
      (if x.prog.dag.length < x'.prog.dag.length then (Driver.active ds x'.tool).map fun u => x.strands ++ [u]
        else some x.strands) = some x'.strands := by
  unfold Exec.step at h
  obtain ⟨prog, hprog, h⟩ := Option.bind_eq_some_iff.mp h
  obtain ⟨tool, htool, h⟩ := Option.bind_eq_some_iff.mp h
  split at h
  · rename_i hlt
    obtain ⟨u, hu, h⟩ := Option.bind_eq_some_iff.mp h
    cases h
    exact ⟨hprog, htool, by simp [hlt, hu]⟩
  · rename_i hlt
    cases h
    exact ⟨hprog, htool, by simp [hlt]⟩

/-- **An event**: the reachability structure and the program go on, and no call is made. -/
theorem Watch.step_event (hcb : cb.event = some e) (hflags : w.det.flags.step cb = some (f, []))
    (hroom : ¬(e = .call ∧ w.det.driver.sstack.length = w.det.cap)) (hexec : Exec.step ds rules w.exec e = some x') :
    Watch.step ds rules w cb = some { w with
      prog := x'.prog
      det := ⟨x'.tool, capAfter w.det.cap w.det.driver.sstack.length x'.tool.sstack.length, w.det.smem, f⟩
      strands := x'.strands } := by
  obtain ⟨hprog, htool, hstrands⟩ := exec_step_cases hexec
  have hprog : Serial.step rules w.prog e = some x'.prog := hprog
  have htool : Driver.step ds w.det.driver e = some x'.tool := htool
  have hstrands : (if w.prog.dag.length < x'.prog.dag.length then
      (Driver.active ds x'.tool).map fun u => w.strands ++ [u] else some w.strands) = some x'.strands := hstrands
  by_cases hlt : w.prog.dag.length < x'.prog.dag.length
  · rw [if_pos hlt] at hstrands
    obtain ⟨u, hu, hstrands⟩ := Option.map_eq_some_iff.mp hstrands
    simp [Watch.step, Detector.step, Detector.stepDriver, hroom, hflags, hcb, htool, Detector.performAll, hprog, hlt, hu,
      hstrands]
  · rw [if_neg hlt] at hstrands
    simp [Watch.step, Detector.step, Detector.stepDriver, hroom, hflags, hcb, htool, Detector.performAll, hprog, hlt,
      Option.some.inj hstrands]

/-- **Any other callback**: only its calls. -/
theorem Watch.step_quiet {calls : List (Call Unit)} {det : Detector σ φ ψ τ} {races : List RaceReport}
    (hcb : cb.event = none) (hflags : w.det.flags.step cb = some (f, calls))
    (hrun : Detector.performAll ds { w.det with flags := f } calls = some (det, races)) :
    Watch.step ds rules w cb = some { w with
      det := det, log := w.log ++ calls.map (Call.by w.prog.cur), races := w.races ++ races } := by
  simp [Watch.step, Detector.step, hflags, hcb, hrun]

/-- Events keep what is known: what was reported stays true, and the reachability structure goes on by itself. -/
theorem Watched.event (hw : Watched means I w) (hok : Ok w.prog) {I' : Exec σ φ ψ τ → Prop} (hI : I' x')
    (hexec : Exec.step ds rules w.exec e = some x') (cap : Nat) : Watched means I' { w with
      prog := x'.prog, det := ⟨x'.tool, cap, w.det.smem, f⟩, strands := x'.strands } := by
  obtain ⟨hprog, -, hstrands⟩ := exec_step_cases hexec
  have hgrows : ∃ us, x'.strands = w.strands ++ us := by
    split at hstrands
    · obtain ⟨u, -, hu⟩ := Option.map_eq_some_iff.mp hstrands
      exact ⟨[u], hu.symm⟩
    · exact ⟨[], (Option.some.inj hstrands).symm.trans (List.append_nil w.strands).symm⟩
  obtain ⟨us, hus⟩ := hgrows
  refine ⟨⟨hI, ?_⟩, ?_, hw.order, ?_, ?_⟩
  · show Mirrors x'.strands w.det.smem w.log
    rw [hus]
    exact hw.sees.cells.extend us
  · intro c hc
    refine ⟨(hw.made c hc).1, ?_⟩
    intro a ha
    have hlt := (hw.made c hc).2 a ha
    show a.current < x'.prog.dag.length
    rcases step_dag (Step.of_step hprog) with ⟨hdag, -⟩ | ⟨es, hdag, -⟩
    · rw [hdag]
      exact hlt
    · rw [hdag, List.length_append]
      exact Nat.lt_add_right _ hlt
  · show Complete x'.prog.dag w.log w.races
    rcases step_dag (Step.of_step hprog) with ⟨hdag, -⟩ | ⟨es, hdag, -⟩
    · rw [hdag]
      exact hw.complete
    · rw [hdag]
      exact hw.complete.grow hok.wf hw.made es
  · intro hno
    show Sound x'.prog.dag w.log w.races
    rcases step_dag (Step.of_step hprog) with ⟨hdag, -⟩ | ⟨es, hdag, -⟩
    · rw [hdag]
      exact hw.sound hno
    · rw [hdag]
      exact (hw.sound hno).grow hok.wf hw.made es

/-- A callback has its effect on the flags, and its calls are in the log. -/
def Logged (w : Watch σ φ ψ τ) (cb : Callback) (w' : Watch σ φ ψ τ) : Prop :=
  ∃ calls, w.det.flags.step cb = some (w'.det.flags, calls) ∧ w'.log = w.log ++ calls.map (Call.by w'.prog.cur)

/-- Events promise nothing. -/
theorem Callback.promised_of_event (hcb : cb.event = some e) : cb.Promised := by
  cases cb with
  | access _ | funcEntry _ | funcExit _ _ | forIterationEnd _ _ | malloc _ _ | markStackAllocate _ => cases hcb
  | _ => trivial

/-- **An event** goes through when the frame of the parent stays where it is. -/
theorem Answers.event (h : Answers ds means I) (hw : Watched means I w) (hflags : FlagsOk w.det.flags)
    (hcb : cb.event = some e) (hroom : e = .call → w.prog.frames.length ≠ w.det.cap) {I' : Exec σ φ ψ τ → Prop}
    (hI : I' x') (hframes : x'.tool.sstack.length = x'.prog.frames.length)
    (hexec : Exec.step ds rules w.exec e = some x') :
    ∃ w', Watch.step ds rules w cb = some w' ∧ w'.exec = x' ∧ Watched means I' w' ∧ FlagsOk w'.det.flags ∧
      w'.det.cap = capAfter w.det.cap w.prog.frames.length x'.prog.frames.length ∧ Logged w cb w' := by
  obtain ⟨f, calls, hstep, hok, -, hnone⟩ := hflags.step (Callback.promised_of_event hcb)
  obtain rfl := hnone (by simp [hcb])
  have hlen : w.det.driver.sstack.length = w.prog.frames.length := h.frames hw.sees.reach
  have hpush : ¬(e = .call ∧ w.det.driver.sstack.length = w.det.cap) := by
    rintro ⟨hcall, hfull⟩
    exact hroom hcall (hlen.symm.trans hfull)
  refine ⟨_, Watch.step_event hcb hstep hpush hexec, rfl, hw.event (h.ok hw.sees.reach) hI hexec _, hok, ?_, [], hstep,
    by simp⟩
  rw [← hlen, ← hframes]

/-- **A callback that is no event** goes through when its addresses are as promised. -/
theorem Answers.quiet (h : Answers ds means I) (hw : Watched means I w) (hflags : FlagsOk w.det.flags)
    (hcb : cb.event = none) (hpromised : cb.Promised) :
    ∃ w', Watch.step ds rules w cb = some w' ∧ w'.prog = w.prog ∧ Watched means I w' ∧ FlagsOk w'.det.flags ∧
      w'.det.cap = w.det.cap ∧ Logged w cb w' := by
  obtain ⟨f, calls, hstep, hok, hgood, -⟩ := hflags.step hpromised
  have hw₁ : Watched means I { w with det := { w.det with flags := f } } :=
    ⟨⟨hw.sees.reach, hw.sees.cells⟩, hw.made, hw.order, hw.complete, hw.sound⟩
  obtain ⟨det, races, hrun, hf, hcap, hw'⟩ := h.performAll hw₁ hgood
  have hf : det.flags = f := hf
  refine ⟨_, Watch.step_quiet hcb hstep hrun, rfl, hw', ?_, hcap, calls, ?_, rfl⟩
  · show FlagsOk det.flags
    rw [hf]
    exact hok
  · show _ = some (det.flags, calls)
    rw [hf]
    exact hstep

end Callback

/-! ## Races

From slots to grains. A slot is told by its key and its index and a grain by its number, and with accesses of whole
grains or of none the two views agree. -/

/-- An access of whole grains, one of them `g`. -/
def Whole {P : Type} (a : Access P) (g : Nat) : Prop := Aligned a.addr a.memSize ∧ a.Touches g

/-- After this call an earlier access of kind `k` to grain `g` does not count any more. -/
def Call.Drops {P : Type} (k : Bool) (g : Nat) : Call P → Prop
  | .check a => Whole a g ∧ a.isRead = k
  | .clear start stop => start.toNat ≤ g * grainSize ∧ g * grainSize < stop.toNat

/-- Strand `u` has called for an access of kind `k` to grain `g`, and nothing after it drops that. -/
def LastBy (log : List (Call Strand)) (g : Nat) (k : Bool) (u : Strand) : Prop :=
  ∃ a, Since (fun c => ¬c.Drops k g) log (.check a) ∧ Whole a g ∧ a.isRead = k ∧ a.current = u

/-- A race between two calls: the strands are parallel, one access is a write, and the first is the last of its kind. -/
def LogRace (d : Dag Serial.EdgeKind) (log : List (Call Strand)) (g : Nat) : Prop :=
  ∃ pre b post, log = pre ++ .check b :: post ∧ Whole b g ∧ ∃ k u, LastBy pre g k u ∧ (k = false ∨ b.isRead = false) ∧
    d.Parallel isDep u b.current

section Grains

variable {a : Access Strand} {key : Addr} {i : Nat} {d : Dag Serial.EdgeKind} {log : List (Call Strand)}
  {races : List RaceReport}

/-- Slots are in a block. -/
theorem slot_lt (h : TouchesCell a key i) (ha : (Call.check a).Good) : i < numSlots :=
  Nat.lt_of_lt_of_le h.2.2 ha.fits

/-- A slot is reached by the accesses of whole grains that touch its grain. Those of one or two bytes reach none. -/
theorem whole_grainOf (ha : (Call.check a).Good) (hi : i < numSlots) : Whole a (grainOf key i) ↔ TouchesCell a key i := by
  have hsmall : a.memSize = 1 ∨ a.memSize = 2 → ¬Aligned a.addr a.memSize ∧ ¬TouchesCell a key i := by
    intro h
    refine ⟨?_, ?_⟩
    · rintro ⟨hsize, -⟩
      omega
    · rintro ⟨-, hlo, hhi⟩
      have hnone : sizeToNumGrains a.memSize = 0 := by
        rw [sizeToNumGrains_eq]
        omega
      omega
  rcases ha with hal | hsize
  · exact ⟨fun h => (touches_grainOf hal hi).mp h.2, fun h => ⟨hal, (touches_grainOf hal hi).mpr h⟩⟩
  · obtain ⟨hno, hnot⟩ := hsmall hsize
    exact ⟨fun h => absurd h.1 hno, fun h => absurd h hnot⟩

/-- What a slot forgets is what does not count for its grain any more. -/
theorem drops_grainOf {c : Call Strand} (hc : c.Good) (hi : i < numSlots) {k : Bool} :
    c.Drops k (grainOf key i) ↔ c.Forgets k key i := by
  cases c with
  | check b => exact and_congr_left fun _ => whole_grainOf hc hi
  | clear start stop =>
      obtain ⟨hstart, hstop, -, -⟩ := hc
      have hi4 : i < 4 := hi
      show start.toNat ≤ (key.toNat * 4 + i) * 4 ∧ (key.toNat * 4 + i) * 4 < stop.toNat ↔
        start.toNat / 16 ≤ key.toNat ∧ 16 * key.toNat < stop.toNat
      omega

/-- The last access of its kind, at a slot and on its grain. -/
theorem lastBy_iff (hgood : ∀ c ∈ log, c.Good) (hi : i < numSlots) {k : Bool} {u : Strand} :
    LastBy log (grainOf key i) k u ↔ ∃ b, LastAt log key i b ∧ b.isRead = k ∧ b.current = u := by
  constructor
  · rintro ⟨b, ⟨pre, mid, rfl, hkeep⟩, hb, rfl, rfl⟩
    refine ⟨b, ⟨⟨pre, mid, rfl, ?_⟩, (whole_grainOf (hgood _ (by simp)) hi).mp hb⟩, rfl, rfl⟩
    intro c hc hforgets
    exact hkeep c hc ((drops_grainOf (hgood c (by simp [hc])) hi).mpr hforgets)
  · rintro ⟨b, ⟨⟨pre, mid, rfl, hkeep⟩, hb⟩, rfl, rfl⟩
    refine ⟨b, ⟨pre, mid, rfl, ?_⟩, (whole_grainOf (hgood _ (by simp)) hi).mpr hb, rfl, rfl⟩
    intro c hc hdrops
    exact hkeep c hc ((drops_grainOf (hgood c (by simp [hc])) hi).mp hdrops)

/-- **Races, slot by slot**: an unordered pair that is checked. -/
theorem logRace_iff (hwf : d.WF) (hmade : ∀ c ∈ log, Made d c) (horder : InOrder log) {g : Nat} :
    LogRace d log g ↔ ∃ a b key i, Checks log a b key i ∧ g = grainOf key i ∧ ¬d.Reach isDep b.current a.current := by
  constructor
  · rintro ⟨pre, a, post, rfl, ha, k, u, hlast, hconflict, hpar⟩
    obtain ⟨key, i, hi, rfl⟩ := exists_slot_of_touches ha.1 ha.2
    obtain ⟨b, hb, rfl, rfl⟩ := (lastBy_iff (fun c hc => (hmade c (by simp [hc])).1) hi).mp hlast
    refine ⟨a, b, key, i, ⟨⟨pre, post, rfl, hb⟩, (whole_grainOf (hmade _ (by simp)).1 hi).mp ha, hconflict⟩, rfl, ?_⟩
    intro hreach
    exact hpar.2.1 ((Dag.path_iff hwf).mpr ⟨hreach, hpar.1⟩)
  · rintro ⟨a, b, key, i, ⟨⟨pre, post, rfl, hlast⟩, hat, hconflict⟩, rfl, hno⟩
    have hgooda : (Call.check a).Good := (hmade _ (by simp)).1
    have hi := slot_lt hat hgooda
    have hle : b.current ≤ a.current :=
      (List.pairwise_append.mp horder).2.2 (.check b) hlast.since.mem (.check a) (by simp) b a rfl rfl
    have hne : b.current ≠ a.current := by
      intro hsame
      rw [hsame] at hno
      exact hno (Dag.Reach.refl _)
    refine ⟨pre, a, post, rfl, (whole_grainOf hgooda hi).mpr hat, b.isRead, b.current,
      (lastBy_iff (fun c hc => (hmade c (by simp [hc])).1) hi).mpr ⟨b, hlast, rfl, rfl⟩, hconflict, hne, ?_, ?_⟩
    · intro hpath
      exact hno ((Dag.path_iff hwf).mp hpath).1
    · intro hpath
      have hback := ((Dag.path_iff hwf).mp hpath).1.le hwf
      exact hne (Nat.le_antisymm hle hback)

/-- A race is reported. -/
theorem Watched.reported {w : Watch σ φ ψ τ} (hw : Watched means I w) (hok : Ok w.prog) {g : Nat}
    (hrace : LogRace w.prog.dag w.log g) : ∃ r ∈ w.races, r.grain = g := by
  obtain ⟨a, b, key, i, hchecks, rfl, hno⟩ := (logRace_iff hok.wf hw.made hw.order).mp hrace
  exact hw.complete a b key i hchecks hno

/-- What is reported is a race, when a no can be trusted. -/
theorem Watched.real {w : Watch σ φ ψ τ} (hw : Watched means I w) (hok : Ok w.prog)
    (hno : ∀ s j, means s j false → ¬s.dag.Reach isDep j s.cur) {r : RaceReport} (hr : r ∈ w.races) :
    LogRace w.prog.dag w.log r.grain := by
  obtain ⟨a, b, key, i, hchecks, hgrain, hpath⟩ := hw.sound hno r hr
  exact (logRace_iff hok.wf hw.made hw.order).mpr ⟨a, b, key, i, hchecks, hgrain, hpath⟩

end Grains

/-! ## The start

The constructor of the detector, next to the first strand. -/

/-- Before the first callback. -/
theorem watched_init {x : Exec σ φ ψ τ} (hx : Exec.init ds = some x) (hprog : x.prog = Serial.init) (hI : I x) :
    ∃ w, Watch.init ds = some w ∧ w.exec = x ∧ Watched means I w ∧ w.det.flags = .init ∧
      w.det.cap = defaultCapacity ∧ w.log = [] := by
  unfold Exec.init at hx
  obtain ⟨tool, htool, hx⟩ := Option.bind_eq_some_iff.mp hx
  obtain ⟨u, hu, hx⟩ := Option.bind_eq_some_iff.mp hx
  cases hx
  refine ⟨⟨Serial.init, ⟨tool, defaultCapacity, .empty, .init⟩, [u], [], []⟩, by simp [Watch.init, Detector.init, htool, hu], rfl, ?_,
    rfl, rfl, rfl⟩
  refine ⟨⟨hI, mirrors_init⟩, by simp, List.Pairwise.nil, ?_, ?_⟩
  · rintro a b key i ⟨⟨pre, post, heq, -⟩, -, -⟩
    simp at heq
  · intro _ r hr
    cases hr

end FOrder.Futurerd
