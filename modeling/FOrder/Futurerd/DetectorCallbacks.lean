import FOrder.Futurerd.DetectorRuns

/-!
# `Futurerd.DetectorCallbacks` — races, told from the callbacks alone

`DetectorRuns` says what the detector reports in terms of the calls it makes, and which calls it makes is its own
decision. Here the races of a run are defined on the callbacks, without its flags and its shadow memory:

- `strandAfter` runs the serial machine on the events, to know which strand makes an access;
- `ChecksOn` counts the callbacks that switch the checks on and off;
- `Clears` says which grains a callback takes out of the history, with `stackUse` for the part of the stack that was
  used since the last such callback;
- `Counts` says which accesses have to be seen on a grain: checks are on, and the access has four bytes at least. An
  access of one or two bytes is in no grain, and what happens while checks are off is not looked at; such accesses
  are in no race.

`Tells` connects the two. It holds at the start, and `Tells.step` keeps it over any callback: what a callback adds to
the history is what its calls add to the log. An access of 16 bytes may be several calls, so the calls are added one
after the other (`lastBy_append`, `logRace_append`); that they have the same bytes as the access is `Rdtool.Parts`.
-/

namespace FOrder.Futurerd

open Serial (Event FutId Strand State isDep)

/-! ## The callbacks of a run

The definitions that the theorems about whole runs are stated with. They read the callbacks, the serial machine and
nothing of the detector. -/

/-- The strand that runs after the callbacks `cbs`. -/
def strandAfter (cbs : List Callback) : Option Strand :=
  (Serial.run rules Serial.init (cbs.filterMap Callback.event)).map State.cur

/-- The callbacks that switch the checks off, and on. -/
def Callback.disables : Callback → Bool
  | .enterBegin | .enterHelperBegin | .detachBegin | .futureGetBegin | .futurePutBegin | .futureFinishBegin
  | .syncBegin | .leaveBegin _ | .disableChecking | .forIterationEnd _ _ => true
  | _ => false

/-- The callbacks that count `check_disabled` down. -/
def Callback.enables : Callback → Bool
  | .enterEnd | .detachEnd | .futureGetEnd _ | .futurePutEnd | .futureFinishEnd _ | .syncEnd | .leaveEnd
  | .enableChecking => true
  | _ => false

/-- As many callbacks have switched the checks on as off, and none has ended them for good. -/
def ChecksOn (cbs : List Callback) : Prop :=
  cbs.countP Callback.disables = cbs.countP Callback.enables ∧ .disableShadowing ∉ cbs

instance : DecidablePred ChecksOn := fun _ => inferInstanceAs (Decidable (_ ∧ _))

/-- The stack since it was last cleared: its lowest frame, and whether a spawned call or a future has returned. -/
structure StackUse where
  lowest : Nat
  returned : Bool

/-- What a callback does to what is known of the stack. -/
def StackUse.next (u : StackUse) : Callback → StackUse
  | .markStackAllocate addr => { u with lowest := addr.toNat }
  | .funcEntry frame => { u with lowest := min u.lowest frame.toNat }
  | .funcExit frame caller => if u.returned then ⟨caller.toNat, false⟩ else { u with lowest := min u.lowest frame.toNat }
  | .futureFinishEnd _ | .futureHelperLeave _ => { u with returned := true }
  | .leaveBegin isHelper => { u with returned := u.returned || isHelper }
  | _ => u

/-- No frame is above all addresses. -/
def stackUse (cbs : List Callback) : StackUse := cbs.foldl StackUse.next ⟨2 ^ 64 - 1, false⟩

/-- Callback `cb`, after the callbacks `cbs`, takes grain `g` out of the history: at the end of an iteration of a
    parallel loop its frame, at a `malloc` the block, at the first exit after a spawned call or a future has returned
    the stack below the caller. -/
def Clears (cbs : List Callback) (g : Nat) : Callback → Prop
  | .forIterationEnd frame caller => frame.toNat ≤ g * grainSize ∧ g * grainSize < caller.toNat
  | .malloc block size =>
      ChecksOn cbs ∧ block.toNat ≤ g * grainSize ∧ g * grainSize < block.toNat + (size + 15) / 16 * 16
  | .funcExit frame caller =>
      .disableShadowing ∉ cbs ∧ (stackUse cbs).returned = true ∧
        min (stackUse cbs).lowest frame.toNat ≤ g * grainSize ∧ g * grainSize < caller.toNat
  | _ => False

/-- The access, after the callbacks `cbs`, is one to be seen on grain `g`. -/
def Counts (cbs : List Callback) (a : Access Unit) (g : Nat) : Prop := ChecksOn cbs ∧ grainSize ≤ a.memSize ∧ a.Touches g

/-- After callback `cb` an earlier access of kind `k` to grain `g` is not the last one any more. -/
def Supersedes (cbs : List Callback) (k : Bool) (g : Nat) (cb : Callback) : Prop :=
  (∃ a, cb = .access a ∧ Counts cbs a g ∧ a.isRead = k) ∨ Clears cbs g cb

/-- Strand `u` has made an access of kind `k` to grain `g`, and it is the last one still. -/
def LastOn (cbs : List Callback) (g : Nat) (k : Bool) (u : Strand) : Prop :=
  ∃ pre a mid, cbs = pre ++ .access a :: mid ∧ Counts pre a g ∧ a.isRead = k ∧ strandAfter pre = some u ∧
    ∀ m₁ c m₂, mid = m₁ ++ c :: m₂ → ¬Supersedes (pre ++ .access a :: m₁) k g c

/-- A **race** on grain `g`: an access and the last one of its kind before it, of two parallel strands, at least one of
    them a write. -/
def RaceOn (d : Dag Serial.EdgeKind) (cbs : List Callback) (g : Nat) : Prop :=
  ∃ pre b post, cbs = pre ++ .access b :: post ∧ Counts pre b g ∧ ∃ k u v, LastOn pre g k u ∧ strandAfter pre = some v ∧
    (k = false ∨ b.isRead = false) ∧ d.Parallel isDep u v

/-- The callbacks of a program: its events fit its state, the gets are legal, no `cilk_enter_begin` comes when the array
    of the shadow stack is full, and everything else is as promised. `got` are the futures that have been got, `cap` is
    the size of that array. -/
inductive CallbackRun (legal : State → List FutId → FutId → Prop) :
    List Callback → List FutId → Nat → State → Prop where
  | nil : CallbackRun legal [] [] defaultCapacity Serial.init
  | event {cbs got cap s s' cb e} (h : CallbackRun legal cbs got cap s) (hcb : Callback.event cb = some e)
      (hs : Serial.step rules s e = some s') (hget : ∀ fut, e = .get fut → legal s got fut)
      (hroom : e = .call → s.frames.length ≠ cap) :
      CallbackRun legal (cbs ++ [cb]) (Serial.gotAfter true got e) (capAfter cap s.frames.length s'.frames.length) s'
  | quiet {cbs got cap s cb} (h : CallbackRun legal cbs got cap s) (hcb : Callback.event cb = none)
      (hpromised : Callback.Promised cb) : CallbackRun legal (cbs ++ [cb]) got cap s

section Spec

variable {cbs : List Callback} {cb : Callback} {g : Nat} {k : Bool} {u : Strand}

/-- The machine runs along with the callbacks. -/
theorem CallbackRun.run {legal : State → List FutId → FutId → Prop} {got : List FutId} {cap : Nat} {s : State}
    (h : CallbackRun legal cbs got cap s) : Serial.run rules Serial.init (cbs.filterMap Callback.event) = some s := by
  induction h with
  | nil => rfl
  | event _ hcb hs _ _ ih =>
      rw [List.filterMap_append, Serial.run_append]
      exact ⟨_, ih, by simp [hcb, Serial.run, hs]⟩
  | quiet _ hcb _ ih => simpa [List.filterMap_append, hcb] using ih

/-- In a serial execution the strand after the callbacks is the current one. -/
theorem CallbackRun.strandAfter {legal : State → List FutId → FutId → Prop} {got : List FutId} {cap : Nat} {s : State}
    (h : CallbackRun legal cbs got cap s) : strandAfter cbs = some s.cur := by
  rw [Futurerd.strandAfter, h.run]
  rfl

/-- A callback that is no event starts no strand. -/
theorem strandAfter_quiet (hcb : cb.event = none) : strandAfter (cbs ++ [cb]) = strandAfter cbs := by
  simp [strandAfter, hcb]

/-- One callback more. -/
theorem stackUse_concat : stackUse (cbs ++ [cb]) = (stackUse cbs).next cb := by
  simp [stackUse]

/-! ## One more callback

A run grows at its end, so each notion gets an equation for one more callback: what the new one adds, and what it
supersedes. -/

/-- The last access of its kind is the newest one, or one that is not superseded. -/
theorem lastOn_concat : LastOn (cbs ++ [cb]) g k u ↔
    (∃ a, cb = .access a ∧ Counts cbs a g ∧ a.isRead = k ∧ strandAfter cbs = some u) ∨
      (LastOn cbs g k u ∧ ¬Supersedes cbs k g cb) := by
  constructor
  · rintro ⟨pre, a, mid, heq, hcounts, hk, hu, hkeep⟩
    rcases concat_eq_append_cons.mp heq with ⟨rfl, rfl, -⟩ | ⟨mid', rfl, rfl⟩
    · exact Or.inl ⟨a, rfl, hcounts, hk, hu⟩
    · refine Or.inr ⟨⟨pre, a, mid', rfl, hcounts, hk, hu, ?_⟩, hkeep mid' cb [] rfl⟩
      intro m₁ c m₂ hmid
      exact hkeep m₁ c (m₂ ++ [cb]) (by simp [hmid])
  · rintro (⟨a, rfl, hcounts, hk, hu⟩ | ⟨⟨pre, a, mid, rfl, hcounts, hk, hu, hkeep⟩, hlast⟩)
    · exact ⟨cbs, a, [], rfl, hcounts, hk, hu, by simp⟩
    · refine ⟨pre, a, mid ++ [cb], by simp, hcounts, hk, hu, ?_⟩
      intro m₁ c m₂ hmid
      rcases concat_eq_append_cons.mp hmid with ⟨rfl, rfl, -⟩ | ⟨m₂', rfl, -⟩
      · exact hlast
      · exact hkeep m₁ c m₂' rfl

/-- A new race is between the newest access and the last one of some kind. -/
theorem raceOn_concat {d : Dag Serial.EdgeKind} : RaceOn d (cbs ++ [cb]) g ↔ RaceOn d cbs g ∨
    ∃ b, cb = .access b ∧ Counts cbs b g ∧ ∃ k u v, LastOn cbs g k u ∧ strandAfter cbs = some v ∧
      (k = false ∨ b.isRead = false) ∧ d.Parallel isDep u v := by
  constructor
  · rintro ⟨pre, b, post, heq, hrace⟩
    rcases concat_eq_append_cons.mp heq with ⟨rfl, rfl, -⟩ | ⟨post', rfl, -⟩
    · exact Or.inr ⟨b, rfl, hrace⟩
    · exact Or.inl ⟨pre, b, post', rfl, hrace⟩
  · rintro (⟨pre, b, post, rfl, hrace⟩ | ⟨b, rfl, hrace⟩)
    · exact ⟨pre, b, post ++ [cb], by simp, hrace⟩
    · exact ⟨cbs, b, [], rfl, hrace⟩

/-- Nothing changes at a callback that makes no access and clears nothing. -/
theorem lastOn_quiet (haccess : ∀ a, cb ≠ .access a) (hclears : ¬Clears cbs g cb) :
    LastOn (cbs ++ [cb]) g k u ↔ LastOn cbs g k u := by
  rw [lastOn_concat]
  constructor
  · rintro (⟨a, rfl, -⟩ | ⟨h, -⟩)
    · exact absurd rfl (haccess a)
    · exact h
  · intro h
    refine Or.inr ⟨h, ?_⟩
    rintro (⟨a, rfl, -⟩ | h)
    · exact haccess a rfl
    · exact hclears h

/-- Only accesses make races. -/
theorem raceOn_quiet {d : Dag Serial.EdgeKind} (haccess : ∀ a, cb ≠ .access a) :
    RaceOn d (cbs ++ [cb]) g ↔ RaceOn d cbs g := by
  rw [raceOn_concat]
  constructor
  · rintro (h | ⟨b, rfl, -⟩)
    · exact h
    · exact absurd rfl (haccess b)
  · exact Or.inl

end Spec

/-! ## One more call

The same for the log of calls. A callback adds several calls at once, all by one strand and of one kind, which is why
none of them races with another. -/

section Log

variable {log : List (Call Strand)} {c : Call Strand} {g : Nat} {k r : Bool} {u v : Strand} {d : Dag Serial.EdgeKind}

/-- No call, no last one. -/
theorem lastBy_nil : ¬LastBy [] g k u := by
  rintro ⟨a, hs, -⟩
  exact not_since_nil _ hs

/-- No call, no race. -/
theorem logRace_nil : ¬LogRace d [] g := by
  rintro ⟨pre, b, post, heq, -⟩
  simp at heq

/-- **The step**: a new call is the last of its kind, and may take the place of others. -/
theorem lastBy_concat : LastBy (log ++ [c]) g k u ↔
    (∃ a, c = .check a ∧ Whole a g ∧ a.isRead = k ∧ a.current = u) ∨ (LastBy log g k u ∧ ¬c.Drops k g) := by
  constructor
  · rintro ⟨a, hs, ha, hk, hu⟩
    rcases since_concat_cases hs with heq | ⟨hs, hkeep⟩
    · exact Or.inl ⟨a, heq.symm, ha, hk, hu⟩
    · exact Or.inr ⟨⟨a, hs, ha, hk, hu⟩, hkeep⟩
  · rintro (⟨a, rfl, ha, hk, hu⟩ | ⟨⟨a, hs, ha, hk, hu⟩, hkeep⟩)
    · exact ⟨a, since_concat_self log _, ha, hk, hu⟩
    · exact ⟨a, hs.concat hkeep, ha, hk, hu⟩

/-- **The step**: the races of a new call are with the last calls before it. -/
theorem logRace_concat : LogRace d (log ++ [c]) g ↔ LogRace d log g ∨
    ∃ b, c = .check b ∧ Whole b g ∧ ∃ k u, LastBy log g k u ∧ (k = false ∨ b.isRead = false) ∧
      d.Parallel isDep u b.current := by
  constructor
  · rintro ⟨pre, b, post, heq, hrace⟩
    rcases concat_eq_append_cons.mp heq with ⟨rfl, rfl, -⟩ | ⟨post', rfl, -⟩
    · exact Or.inr ⟨b, rfl, hrace⟩
    · exact Or.inl ⟨pre, b, post', rfl, hrace⟩
  · rintro (⟨pre, b, post, rfl, hrace⟩ | ⟨b, rfl, hrace⟩)
    · exact ⟨pre, b, post ++ [c], by simp, hrace⟩
    · exact ⟨log, b, [], rfl, hrace⟩

variable {cs : List (Access Strand)}

/-- **Several calls** of one strand, of one kind: the last one of that kind is its own wherever one of them is. -/
theorem lastBy_append (hsame : ∀ c ∈ cs, c.isRead = r ∧ c.current = v) :
    LastBy (log ++ cs.map .check) g k u ↔ ((∃ c ∈ cs, Whole c g) ∧ r = k ∧ v = u) ∨
      (LastBy log g k u ∧ ¬((∃ c ∈ cs, Whole c g) ∧ r = k)) := by
  induction cs using List.reverseRecOn with
  | nil => simp
  | append_singleton cs c ih =>
      have ih := ih (fun c' hc' => hsame c' (List.mem_append_left _ hc'))
      obtain ⟨hr, hv⟩ := hsame c (by simp)
      rw [List.map_append, List.map_singleton, ← List.append_assoc, lastBy_concat, ih]
      have hex : (∃ c' ∈ cs ++ [c], Whole c' g) ↔ (∃ c' ∈ cs, Whole c' g) ∨ Whole c g := by
        simp [or_and_right, exists_or]
      have hdrops : (Call.check c).Drops k g ↔ Whole c g ∧ r = k := by
        rw [← hr]
        rfl
      have hnew : (∃ a, Call.check c = .check a ∧ Whole a g ∧ a.isRead = k ∧ a.current = u) ↔ Whole c g ∧ r = k ∧ v = u := by
        constructor
        · rintro ⟨a, heq, h⟩
          cases heq
          rwa [hr, hv] at h
        · intro h
          exact ⟨c, rfl, by rwa [hr, hv]⟩
      rw [hex, hdrops, hnew]
      by_cases hw : Whole c g ∧ r = k
      · simp [hw]
      · by_cases hk : r = k
        · have hw : ¬Whole c g := fun h => hw ⟨h, hk⟩
          simp [hw]
        · simp [hk]

/-- **Several calls** of one strand race with what was there before them. -/
theorem logRace_append (hsame : ∀ c ∈ cs, c.isRead = r ∧ c.current = v) :
    LogRace d (log ++ cs.map .check) g ↔ LogRace d log g ∨ ((∃ c ∈ cs, Whole c g) ∧
      ∃ k u, LastBy log g k u ∧ (k = false ∨ r = false) ∧ d.Parallel isDep u v) := by
  induction cs using List.reverseRecOn with
  | nil => simp
  | append_singleton cs c ih =>
      have hold := fun c' (hc' : c' ∈ cs) => hsame c' (List.mem_append_left _ hc')
      obtain ⟨hr, hv⟩ := hsame c (by simp)
      rw [List.map_append, List.map_singleton, ← List.append_assoc, logRace_concat, ih hold]
      constructor
      · rintro ((h | ⟨⟨c', hc', hw⟩, hrace⟩) | ⟨b, heq, hw, k, u, hlast, hconflict, hpar⟩)
        · exact Or.inl h
        · exact Or.inr ⟨⟨c', List.mem_append_left _ hc', hw⟩, hrace⟩
        · cases heq
          rw [hr] at hconflict
          rw [hv] at hpar
          rcases (lastBy_append hold).mp hlast with ⟨-, -, rfl⟩ | ⟨hlast, -⟩
          · exact absurd rfl hpar.1
          · exact Or.inr ⟨⟨c, by simp, hw⟩, k, u, hlast, hconflict, hpar⟩
      · rintro (h | ⟨⟨c', hc', hw⟩, k, u, hlast, hconflict, hpar⟩)
        · exact Or.inl (Or.inl h)
        · -- the first of the calls on the grain meets the old access
          by_cases hbefore : ∃ c' ∈ cs, Whole c' g
          · exact Or.inl (Or.inr ⟨hbefore, k, u, hlast, hconflict, hpar⟩)
          · rcases List.mem_append.mp hc' with hc' | hc'
            · exact absurd ⟨c', hc', hw⟩ hbefore
            · obtain rfl := List.mem_singleton.mp hc'
              refine Or.inr ⟨c', rfl, hw, k, u, (lastBy_append hold).mpr (Or.inr ⟨hlast, fun h => hbefore h.1⟩), ?_, ?_⟩
              · rwa [hr]
              · rwa [hv]

end Log

/-! ## What the flags tell

`check_disabled` is a counter that callbacks move up and down, and checks are on when it is `0`; so it has to be the
difference of two counts of callbacks. The stack is cleared from its lowest frame so far, which the flags keep as the
watermark. -/

section Flags

variable {cbs : List Callback} {cb : Callback} {f f' : Flags} {calls : List (Call Unit)}

/-- The stack as the detector keeps it. -/
def Flags.stackUse (f : Flags) : StackUse := ⟨f.stackLowWatermark.toNat, f.clearStack⟩

/-- What the flags say of the callbacks so far. -/
structure FlagsTell (cbs : List Callback) (f : Flags) : Prop where
  disabled : f.checkDisabled = (cbs.countP Callback.disables : Int) - cbs.countP Callback.enables
  shadow : f.shadowEnabled = true ↔ .disableShadowing ∉ cbs
  stack : f.shadowEnabled = true → f.stackUse = Futurerd.stackUse cbs

/-- At first checks are on. -/
theorem flagsTell_init : FlagsTell [] .init := by
  refine ⟨rfl, ?_, fun _ => rfl⟩
  simp [Flags.init]

/-- The detector checks exactly when the callbacks have the checks on. -/
theorem FlagsTell.shouldCheck (h : FlagsTell cbs f) : f.shouldCheck = true ↔ ChecksOn cbs := by
  have hzero : f.checkDisabled = 0 ↔ cbs.countP Callback.disables = cbs.countP Callback.enables := by
    rw [h.disabled]
    omega
  simp only [Flags.shouldCheck, Bool.and_eq_true, decide_eq_true_eq, hzero, h.shadow, ChecksOn]

/-- The lowest stack address so far. -/
theorem Flags.lower_stackUse (frame : Addr) :
    (f.lower frame).stackUse = { f.stackUse with lowest := min f.stackUse.lowest frame.toNat } := by
  unfold Flags.lower
  split
  · rename_i hlt
    have hle : frame.toNat ≤ f.stackLowWatermark.toNat := Nat.le_of_lt hlt
    simp [Flags.stackUse, Nat.min_eq_right hle]
  · rename_i hnot
    have hle : f.stackLowWatermark.toNat ≤ frame.toNat := Nat.le_of_not_lt hnot
    simp [Flags.stackUse, Nat.min_eq_left hle]

/-- The switches are left alone. -/
theorem Flags.lower_same (frame : Addr) : (f.lower frame).checkDisabled = f.checkDisabled ∧
    (f.lower frame).shadowEnabled = f.shadowEnabled ∧ (f.lower frame).clearStack = f.clearStack := by
  unfold Flags.lower
  split <;> simp

/-- What a callback adds to the count of open `disable_checking`. -/
def Callback.switch (cb : Callback) : Int := (if cb.disables then 1 else 0) - (if cb.enables then 1 else 0)

/-- **What one callback does to the flags.** -/
theorem Flags.step_flags (hstep : f.step cb = some (f', calls)) :
    f'.checkDisabled = f.checkDisabled + cb.switch ∧
      (f'.shadowEnabled = true ↔ f.shadowEnabled = true ∧ cb ≠ .disableShadowing) ∧
      (f.shadowEnabled = true → f'.stackUse = f.stackUse.next cb) := by
  have hkept : f.checkDisabled = f.checkDisabled + 0 := (Int.add_zero _).symm
  cases cb with
  | access a =>
      obtain ⟨parts, -, heq⟩ := Option.bind_eq_some_iff.mp hstep
      cases heq
      exact ⟨hkept, by simp, fun _ => rfl⟩
  | funcEntry frame =>
      cases hstep
      obtain ⟨hd, hs, -⟩ := Flags.lower_same (f := f) frame
      exact ⟨hd.trans hkept, by simp [hs], fun _ => Flags.lower_stackUse frame⟩
  | funcExit frame caller =>
      obtain ⟨hd, hs, hc⟩ := Flags.lower_same (f := f) frame
      simp only [Flags.step, hs, hc] at hstep
      split at hstep
      · rename_i hclear
        split at hstep
        · cases hstep
          have hreturned : f.stackUse.returned = true := (Bool.and_eq_true_iff.mp hclear).2
          exact ⟨hd.trans hkept, by simp, fun _ => (if_pos hreturned).symm⟩
        · cases hstep
      · rename_i hkeep
        cases hstep
        refine ⟨hd.trans hkept, by simp [hs], fun hon => ?_⟩
        have hno : ¬f.stackUse.returned = true := fun hret => hkeep (Bool.and_eq_true_iff.mpr ⟨hon, hret⟩)
        rw [Flags.lower_stackUse]
        exact (if_neg hno).symm
  | forIterationEnd frame caller =>
      simp only [Flags.step] at hstep
      split at hstep
      · cases hstep
        exact ⟨rfl, by simp [Flags.disable], fun _ => rfl⟩
      · cases hstep
  | leaveBegin isHelper =>
      cases hstep
      exact ⟨rfl, by simp [Flags.disable], fun _ => rfl⟩
  | disableShadowing =>
      cases hstep
      exact ⟨hkept, by simp, fun _ => rfl⟩
  | futureCreate | futureHelperLeave | markStackAllocate | malloc =>
      cases hstep
      exact ⟨hkept, by simp, fun _ => rfl⟩
  | _ =>
      cases hstep
      exact ⟨rfl, by simp [Flags.enable, Flags.disable], fun _ => rfl⟩

/-- **The flags tell** the same after any callback. -/
theorem FlagsTell.step (h : FlagsTell cbs f) (hstep : f.step cb = some (f', calls)) : FlagsTell (cbs ++ [cb]) f' := by
  obtain ⟨hdisabled, hshadow, hstack⟩ := Flags.step_flags hstep
  refine ⟨?_, ?_, ?_⟩
  · rw [hdisabled, h.disabled, List.countP_append, List.countP_append, List.countP_singleton, List.countP_singleton,
      Callback.switch]
    push_cast
    cases cb.disables <;> cases cb.enables <;> simp <;> omega
  · rw [hshadow, h.shadow, List.mem_append, List.mem_singleton]
    constructor
    · rintro ⟨hold, hnew⟩ (hmem | rfl)
      · exact hold hmem
      · exact hnew rfl
    · exact fun hno => ⟨fun hmem => hno (Or.inl hmem), fun heq => hno (Or.inr heq.symm)⟩
  · intro hon
    have hon := hshadow.mp hon
    rw [hstack hon.1, h.stack hon.1, stackUse_concat]

/-! ## What the calls of a callback are

An access becomes calls with the same grains, or none while checks are off. Any other callback makes one `clear` at
most, and its blocks are those that `Clears` says. -/

/-- The calls of an access have its grains. -/
theorem whole_parts {a : Access Unit} (ha : (Callback.access a).Promised) {parts : List (Access Unit)}
    (hrun : Rdtool.tsanEntry a = some parts) (g : Nat) (v : Strand) :
    (∃ c ∈ parts.map (fun c => Access.by c v), Whole c g) ↔ grainSize ≤ a.memSize ∧ a.Touches g := by
  obtain ⟨hdelivered, hroom⟩ := ha
  by_cases hsize : 4 ≤ a.memSize
  · obtain ⟨parts', hrun', hparts⟩ := Rdtool.tsanEntry_parts hdelivered hsize
    obtain rfl : parts = parts' := Option.some.inj (hrun.symm.trans hrun')
    rw [and_iff_right (show grainSize ≤ a.memSize from hsize), hparts.touches (by omega)]
    constructor
    · rintro ⟨c, hc, -, ht⟩
      obtain ⟨b, hb, rfl⟩ := List.mem_map.mp hc
      exact ⟨b, hb, ht⟩
    · rintro ⟨b, hb, ht⟩
      exact ⟨Access.by b v, List.mem_map_of_mem hb, hparts.aligned b hb, ht⟩
  · -- an access of one or two bytes is one call, which has no grains
    have hsmall := hdelivered.small hsize
    obtain rfl : parts = [a] := Option.some.inj (hrun.symm.trans (Rdtool.tsanEntry_small hdelivered (Nat.lt_of_not_le hsize)).1)
    constructor
    · rintro ⟨c, hc, ⟨hal, -⟩, -⟩
      obtain rfl := List.mem_singleton.mp hc
      have hal : a.memSize = 4 ∨ a.memSize = 8 ∨ a.memSize = 16 := hal
      omega
    · rintro ⟨hle, -⟩
      exact absurd hle hsize

/-- **The clears of a callback** that is no access: none, or one for the grains that it takes out of the history. -/
theorem FlagsTell.clears (h : FlagsTell cbs f) (hcb : cb.Promised) (haccess : ∀ a, cb ≠ .access a)
    (hstep : f.step cb = some (f', calls)) :
    (calls = [] ∧ ∀ g, ¬Clears cbs g cb) ∨
      ∃ start stop, calls = [.clear start stop] ∧
        ∀ g, Clears cbs g cb ↔ start.toNat ≤ g * grainSize ∧ g * grainSize < stop.toNat := by
  cases cb with
  | access a => exact absurd rfl (haccess a)
  | forIterationEnd frame caller =>
      simp only [Flags.step] at hstep
      split at hstep
      · cases hstep
        exact Or.inr ⟨frame, caller, rfl, fun g => Iff.rfl⟩
      · cases hstep
  | malloc block size =>
      obtain ⟨-, hroom⟩ := hcb
      simp only [Flags.step, Option.some.injEq, Prod.mk.injEq] at hstep
      obtain ⟨rfl, rfl⟩ := hstep
      by_cases hon : f.shouldCheck = true
      · have hsize : (BitVec.ofNat 64 size).toNat = size := by
          rw [BitVec.toNat_ofNat]
          exact Nat.mod_eq_of_lt (by omega)
        have hnew := alignByNext_toNat (BitVec.ofNat 64 size) (by rw [hsize]; omega)
        rw [hsize] at hnew
        have hstop : (block + ShadowMem.alignByNextMaxGrainSize (BitVec.ofNat 64 size)).toNat =
            block.toNat + (size + 15) / 16 * 16 := by
          rw [BitVec.toNat_add, hnew]
          exact Nat.mod_eq_of_lt (by omega)
        refine Or.inr ⟨block, block + ShadowMem.alignByNextMaxGrainSize (BitVec.ofNat 64 size), if_pos hon, ?_⟩
        intro g
        rw [hstop]
        exact and_iff_right (h.shouldCheck.mp hon)
      · exact Or.inl ⟨if_neg hon, fun g hclears => hon (h.shouldCheck.mpr hclears.1)⟩
  | funcExit frame caller =>
      obtain ⟨-, hs, hc⟩ := Flags.lower_same (f := f) frame
      simp only [Flags.step, hs, hc] at hstep
      split at hstep
      · rename_i hclear
        obtain ⟨hon, hreturned⟩ := Bool.and_eq_true_iff.mp hclear
        split at hstep
        · cases hstep
          have hlow := congrArg StackUse.lowest (Flags.lower_stackUse (f := f) frame)
          have hsame := h.stack hon
          refine Or.inr ⟨_, _, rfl, fun g => ?_⟩
          have hstart : (f.lower frame).stackLowWatermark.toNat = min (stackUse cbs).lowest frame.toNat := by
            rw [← hsame]
            exact hlow
          have hret : (stackUse cbs).returned = true := by
            rw [← hsame]
            exact hreturned
          rw [hstart]
          exact (and_iff_right (h.shadow.mp hon)).trans (and_iff_right hret)
        · cases hstep
      · rename_i hkeep
        cases hstep
        refine Or.inl ⟨rfl, ?_⟩
        rintro g ⟨hno, hret, -⟩
        have hon := h.shadow.mpr hno
        rw [← h.stack hon] at hret
        exact hkeep (Bool.and_eq_true_iff.mpr ⟨hon, hret⟩)
  | _ =>
      cases hstep
      exact Or.inl ⟨rfl, fun g => id⟩

/-! ## The log tells of the callbacks

The induction over runs, for the part that has nothing to do with answers: what was called, and by whom. -/

/-- The flags and the log of the detector say what the callbacks were. -/
structure Tells (cbs : List Callback) (f : Flags) (log : List (Call Strand)) : Prop where
  flags : FlagsTell cbs f
  last : ∀ g k u, LastOn cbs g k u ↔ LastBy log g k u
  races : ∀ d g, RaceOn d cbs g ↔ LogRace d log g

/-- No callback and no call. -/
theorem tells_init : Tells [] .init [] := by
  refine ⟨flagsTell_init, ?_, ?_⟩
  · intro g k u
    refine iff_of_false ?_ lastBy_nil
    rintro ⟨pre, a, mid, heq, -⟩
    simp at heq
  · intro d g
    refine iff_of_false ?_ logRace_nil
    rintro ⟨pre, b, post, heq, -⟩
    simp at heq

variable {log : List (Call Strand)} {v : Strand}

/-- **One callback**, by what its calls add to the log. -/
theorem Tells.step (h : Tells cbs f log) (hcb : cb.Promised) (hstep : f.step cb = some (f', calls))
    (hv : strandAfter (cbs ++ [cb]) = some v) : Tells (cbs ++ [cb]) f' (log ++ calls.map (Call.by v)) := by
  by_cases haccess : ∃ a, cb = .access a
  · obtain ⟨a, rfl⟩ := haccess
    rw [strandAfter_quiet rfl] at hv
    obtain ⟨parts, hparts, heq⟩ := Option.bind_eq_some_iff.mp hstep
    cases heq
    have hclears : ∀ g, ¬Clears cbs g (.access a) := fun g => id
    by_cases hon : f.shouldCheck = true
    · have hchecks := h.flags.shouldCheck.mp hon
      have hcalls : (if f.shouldCheck then parts.map Call.check else []).map (Call.by v) =
          (parts.map fun c => Access.by c v).map .check := by
        rw [if_pos hon, List.map_map, List.map_map]
        rfl
      have hsame : ∀ c ∈ parts.map (fun c => Access.by c v), c.isRead = a.isRead ∧ c.current = v := by
        intro c hc
        obtain ⟨b, hb, rfl⟩ := List.mem_map.mp hc
        exact ⟨Rdtool.tsanEntry_isRead hparts b hb, rfl⟩
      have hcounts : ∀ g, Counts cbs a g ↔ ∃ c ∈ parts.map (fun c => Access.by c v), Whole c g := fun g =>
        (and_iff_right hchecks).trans (whole_parts hcb hparts g v).symm
      rw [hcalls]
      refine ⟨h.flags.step hstep, ?_, ?_⟩
      · intro g k u
        rw [lastOn_concat, lastBy_append hsame, h.last, hv]
        simp only [Supersedes, hclears, or_false, Callback.access.injEq, exists_eq_left', hcounts, Option.some.injEq]
      · intro d g
        rw [raceOn_concat, logRace_append hsame, h.races, hv]
        simp only [Callback.access.injEq, exists_eq_left', hcounts, h.last, Option.some.injEq, exists_and_left]
    · have hno : ¬ChecksOn cbs := fun hc => hon (h.flags.shouldCheck.mpr hc)
      rw [if_neg hon, List.map_nil, List.append_nil]
      refine ⟨h.flags.step hstep, ?_, ?_⟩
      · intro g k u
        rw [lastOn_concat, ← h.last]
        simp [Supersedes, hclears, Counts, hno]
      · intro d g
        rw [raceOn_concat, ← h.races]
        simp [Counts, hno]
  · have haccess : ∀ a, cb ≠ .access a := fun a heq => haccess ⟨a, heq⟩
    rcases h.flags.clears hcb haccess hstep with ⟨rfl, hclears⟩ | ⟨start, stop, rfl, hclears⟩
    · rw [List.map_nil, List.append_nil]
      refine ⟨h.flags.step hstep, ?_, ?_⟩
      · intro g k u
        rw [lastOn_quiet haccess (hclears g)]
        exact h.last g k u
      · intro d g
        rw [raceOn_quiet haccess]
        exact h.races d g
    · refine ⟨h.flags.step hstep, ?_, ?_⟩
      · intro g k u
        have hdrops : (Call.clear start stop : Call Strand).Drops k g ↔ Supersedes cbs k g cb := by
          constructor
          · exact fun hd => Or.inr ((hclears g).mpr hd)
          · rintro (⟨a, heq, -⟩ | hc)
            · exact absurd heq (haccess a)
            · exact (hclears g).mp hc
        rw [List.map_singleton, Call.by, lastOn_concat, lastBy_concat, h.last, hdrops]
        simp [haccess]
      · intro d g
        rw [raceOn_quiet haccess, List.map_singleton, Call.by, logRace_concat, h.races]
        simp

end Flags

/-! ## A run that follows the callbacks

`Follows` is what is known of a detector and its reachability structure after the callbacks of a run. It is a
structure over `Answers`, so that MultiBags and MultiBags+ have to show only how an event goes on. -/

section Follows

variable {σ φ ψ τ : Type} {ds : ReachDs σ φ ψ τ} {means : State → Strand → Bool → Prop} {I I' : Exec σ φ ψ τ → Prop}
  {cbs : List Callback} {cap : Nat} {w : Watch σ φ ψ τ} {cb : Callback} {e : Event} {x x' : Exec σ φ ψ τ}

/-- All that is known after the callbacks `cbs`. -/
structure Follows (means : State → Strand → Bool → Prop) (I : Exec σ φ ψ τ → Prop) (cbs : List Callback) (cap : Nat)
    (w : Watch σ φ ψ τ) : Prop where
  watched : Watched means I w
  flags : FlagsOk w.det.flags
  cap : w.det.cap = cap
  tells : Tells cbs w.det.flags w.log

theorem follows_init (hx : Exec.init ds = some x) (hprog : x.prog = Serial.init) (hI : I x) :
    ∃ w, Watch.run ds rules [] = some w ∧ w.exec = x ∧ Follows means I [] defaultCapacity w := by
  obtain ⟨w, hw, hexec, hwatched, hflags, hcap, hlog⟩ := watched_init hx hprog hI
  refine ⟨w, by simp [Watch.run, hw], hexec, hwatched, ?_, hcap, ?_⟩
  · rw [hflags]
    exact Or.inl rfl
  · rw [hflags, hlog]
    exact tells_init

/-- **An event** that the reachability structure goes along with. -/
theorem Answers.follows_event (h : Answers ds means I) (hf : Follows means I cbs cap w) (hcb : cb.event = some e)
    (hroom : e = .call → w.prog.frames.length ≠ cap) (hI : I' x')
    (hframes : x'.tool.sstack.length = x'.prog.frames.length) (hexec : Exec.step ds rules w.exec e = some x')
    (hv : strandAfter (cbs ++ [cb]) = some x'.prog.cur) :
    ∃ w', Watch.step ds rules w cb = some w' ∧ w'.exec = x' ∧
      Follows means I' (cbs ++ [cb]) (capAfter cap w.prog.frames.length x'.prog.frames.length) w' := by
  obtain ⟨w', hstep, rfl, hwatched, hflags, hcap, calls, hcalls, hlog⟩ :=
    h.event hf.watched hf.flags hcb (by rwa [hf.cap]) hI hframes hexec
  refine ⟨w', hstep, rfl, hwatched, hflags, by rw [hcap, hf.cap], ?_⟩
  rw [hlog]
  exact hf.tells.step (Callback.promised_of_event hcb) hcalls hv

/-- **Any other callback.** -/
theorem Answers.follows_quiet (h : Answers ds means I) (hf : Follows means I cbs cap w) (hcb : cb.event = none)
    (hpromised : cb.Promised) (hv : strandAfter cbs = some w.prog.cur) :
    ∃ w', Watch.step ds rules w cb = some w' ∧ w'.prog = w.prog ∧ Follows means I (cbs ++ [cb]) cap w' := by
  obtain ⟨w', hstep, hprog, hwatched, hflags, hcap, calls, hcalls, hlog⟩ := h.quiet hf.watched hf.flags hcb hpromised
  refine ⟨w', hstep, hprog, hwatched, hflags, by rw [hcap, hf.cap], ?_⟩
  rw [hlog]
  exact hf.tells.step hpromised hcalls (by rw [strandAfter_quiet hcb, hv, hprog])

/-- Every race is reported. -/
theorem Follows.reported (hf : Follows means I cbs cap w) (hok : Serial.Ok w.prog) {g : Nat}
    (hrace : RaceOn w.prog.dag cbs g) : ∃ r ∈ w.races, r.grain = g :=
  hf.watched.reported hok ((hf.tells.races _ _).mp hrace)

/-- When a no is never wrong, every report is a race. -/
theorem Follows.real (hf : Follows means I cbs cap w) (hok : Serial.Ok w.prog)
    (hno : ∀ s j, means s j false → ¬s.dag.Reach isDep j s.cur) {r : RaceReport} (hr : r ∈ w.races) :
    RaceOn w.prog.dag cbs r.grain :=
  (hf.tells.races _ _).mpr (hf.watched.real hok hno hr)

end Follows

end FOrder.Futurerd
